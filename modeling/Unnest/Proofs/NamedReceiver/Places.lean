import Unnest.Proofs.Lowered.Frames
import Unnest.Proofs.Lowered.Relation
import Unnest.Proofs.NamedReceiver.Analysis

/-!
# Places that name the receiver

A body that names the receiver somewhere does so in the method itself or in the body of a nested
function, and what is lowered with that function is lowered at each place in it. A body that names
the receiver nowhere is the body it was made from.

## Main definitions

* `Node.Names` : a variable is referred to somewhere below a node.
* `Node.Lowered` : a node is lowered to something.

## Main statements

* `MethodBody.NamesSelf.numbered_eq` : a body without names is not changed.
* `Node.Lowered.variableRef` : a reference in a lowered tree leads to its variable.
* `Graph.Holds.frame_of_mention` : a place belongs to the body of a function.
-/

namespace Unnest

/-! ## Bodies without names -/

/-- Variable `r` is referred to at the node or below it. -/
def Node.Names (r : Variable) (n : Node) : Prop :=
  ∀ p, ∃ q loc, (q, .expr (.ref loc (some r))) ∈ n.sites p

theorem Node.Names.of_inner {r : Variable} {n k : Node} (h : k.Names r) (hk : k ∈ n.inner) :
    n.Names r := by
  intro p
  obtain ⟨q, loc, hq⟩ := h (p.into n)
  exact ⟨q, loc, mem_sites_of_inner hk hq⟩

section EqOrNames

variable {r : Variable}

mutual

/-- Where nothing is named, nothing is changed. -/
theorem Expr.NamesSelf.eq_or_names :
    {e e' : Expr} → e.NamesSelf r e' → e' = e ∨ (Node.expr e').Names r
  | _, _, .named loc _ => .inr fun p => ⟨p, loc, Node.self_mem_sites p _⟩
  | _, _, .self .. | _, _, .literal .. | _, _, .ref .. | _, _, .functionRef ..
  | _, _, .newEnv .. | _, _, .zero .. => .inl rfl
  | _, _, .assign _ ht hv => by
    rcases ht.eq_or_names with rfl | h
    · rcases hv.eq_or_names with rfl | h
      · exact .inl rfl
      · exact .inr (h.of_inner (by simp [Node.inner, Expr.operands]))
    · exact .inr (h.of_inner (by simp [Node.inner, Expr.operands]))
  | _, _, .binary _ _ hl hr => by
    rcases hl.eq_or_names with rfl | h
    · rcases hr.eq_or_names with rfl | h
      · exact .inl rfl
      · exact .inr (h.of_inner (by simp [Node.inner, Expr.operands]))
    · exact .inr (h.of_inner (by simp [Node.inner, Expr.operands]))
  | _, _, .lambda _ _ hb => by
    rcases hb.eq_or_names with rfl | ⟨s, hs, h⟩
    · exact .inl rfl
    · exact .inr (h.of_inner (List.mem_map_of_mem hs))
  | .localCall _ _ args, .localCall _ _ args', .localCall _ _ hargs => by
    rcases Expr.NamesSelf.eq_or_names_all args args' hargs with rfl | ⟨x, hx, h⟩
    · exact .inl rfl
    · exact .inr (h.of_inner (List.mem_map_of_mem hx))
  | .call _ _ _ args, .call _ _ _ args', .call _ _ .none hargs => by
    rcases Expr.NamesSelf.eq_or_names_all args args' hargs with rfl | ⟨x, hx, h⟩
    · exact .inl rfl
    · exact .inr (h.of_inner (List.mem_map_of_mem hx))
  | .call _ _ _ args, .call _ _ _ args', .call _ _ (.some he) hargs => by
    rcases he.eq_or_names with rfl | h
    · rcases Expr.NamesSelf.eq_or_names_all args args' hargs with rfl | ⟨x, hx, h⟩
      · exact .inl rfl
      · exact .inr (h.of_inner (List.mem_map_of_mem (List.mem_append_right _ hx)))
    · exact .inr (h.of_inner (by simp [Node.inner, Expr.operands]))
  | .invoke _ _ args, .invoke _ _ args', .invoke _ hcallee hargs => by
    rcases hcallee.eq_or_names with rfl | h
    · rcases Expr.NamesSelf.eq_or_names_all args args' hargs with rfl | ⟨x, hx, h⟩
      · exact .inl rfl
      · exact .inr (h.of_inner (List.mem_map_of_mem (List.mem_cons_of_mem _ hx)))
    · exact .inr (h.of_inner (by simp [Node.inner, Expr.operands]))
  | _, _, .field _ _ he | _, _, .delegate _ _ (.some he) => by
    rcases he.eq_or_names with rfl | h
    · exact .inl rfl
    · exact .inr (h.of_inner (by simp [Node.inner, Expr.operands]))
  | _, _, .delegate _ _ .none => .inl rfl
termination_by structural e => e

theorem Expr.NamesSelf.eq_or_names_all :
    (es es' : List Expr) → List.Forall₂ (Expr.NamesSelf r) es es' →
    es' = es ∨ ∃ x ∈ es', (Node.expr x).Names r
  | _, _, .nil => .inl rfl
  | _ :: es, _ :: es', .cons he hes => by
    rcases he.eq_or_names with rfl | h
    · rcases Expr.NamesSelf.eq_or_names_all es es' hes with rfl | ⟨x, hx, h⟩
      · exact .inl rfl
      · exact .inr ⟨x, List.mem_cons_of_mem _ hx, h⟩
    · exact .inr ⟨_, List.mem_cons_self, h⟩
termination_by structural es => es

theorem Stmt.NamesSelf.eq_or_names :
    {s s' : Stmt} → s.NamesSelf r s' → s' = s ∨ (Node.stmt s').Names r
  | _, _, .block hb | _, _, .localFunction _ _ hb => by
    rcases hb.eq_or_names with rfl | ⟨s, hs, h⟩
    · exact .inl rfl
    · exact .inr (h.of_inner (List.mem_map_of_mem hs))
  | _, _, .declare _ _ .none | _, _, .ret _ .none => .inl rfl
  | _, _, .declare _ _ (.some he) | _, _, .expr _ he | _, _, .ret _ (.some he) => by
    rcases he.eq_or_names with rfl | h
    · exact .inl rfl
    · exact .inr (h.of_inner (by simp [Node.inner]))
  | _, _, .cond _ htest hb .none | _, _, .loop _ htest hb => by
    rcases htest.eq_or_names with rfl | h
    · rcases hb.eq_or_names with rfl | ⟨s, hs, h⟩
      · exact .inl rfl
      · exact .inr ((h.of_inner (n := .block _) (List.mem_map_of_mem hs)).of_inner
          (by simp [Node.inner]))
    · exact .inr (h.of_inner (by simp [Node.inner]))
  | _, _, .cond _ htest hb (.some hx) => by
    rcases htest.eq_or_names with rfl | h
    · rcases hb.eq_or_names with rfl | ⟨s, hs, h⟩
      · rcases hx.eq_or_names with rfl | ⟨s, hs, h⟩
        · exact .inl rfl
        · exact .inr ((h.of_inner (n := .block _) (List.mem_map_of_mem hs)).of_inner
            (by simp [Node.inner]))
      · exact .inr ((h.of_inner (n := .block _) (List.mem_map_of_mem hs)).of_inner
          (by simp [Node.inner]))
    · exact .inr (h.of_inner (by simp [Node.inner]))
termination_by structural s => s

theorem Stmt.NamesSelf.eq_or_names_all :
    (ss ss' : List Stmt) → List.Forall₂ (Stmt.NamesSelf r) ss ss' →
    ss' = ss ∨ ∃ s ∈ ss', (Node.stmt s).Names r
  | _, _, .nil => .inl rfl
  | _ :: ss, _ :: ss', .cons hs hss => by
    rcases hs.eq_or_names with rfl | h
    · rcases Stmt.NamesSelf.eq_or_names_all ss ss' hss with rfl | ⟨s, hs, h⟩
      · exact .inl rfl
      · exact .inr ⟨s, List.mem_cons_of_mem _ hs, h⟩
    · exact .inr ⟨_, List.mem_cons_self, h⟩
termination_by structural ss => ss

theorem Block.NamesSelf.eq_or_names :
    {b b' : Block} → b.NamesSelf r b' → b' = b ∨ ∃ s ∈ b'.stmts, (Node.stmt s).Names r
  | .mk _ _ ss, .mk _ _ ss', .mk _ _ hss => by
    rcases Stmt.NamesSelf.eq_or_names_all ss ss' hss with rfl | h
    · exact .inl rfl
    · exact .inr h
termination_by structural b => b

end

end EqOrNames

/-- A body that names the receiver nowhere is the body it was made from. -/
theorem MethodBody.NamesSelf.numbered_eq {r : Variable} {m m' : MethodBody} (h : m.NamesSelf r m')
    (hnot : ∀ p loc, (p, .expr (.ref loc (some r))) ∉ m'.numbered.sites) :
    m'.numbered = m.numbered := by
  have hblock : m'.numbered.block = m.numbered.block := by
    have hrel := h.block
    generalize m.numbered.block = o at hrel ⊢
    generalize hm' : m'.numbered.block = o' at hrel ⊢
    cases hrel with
    | none => rfl
    | some hb =>
      rcases hb.eq_or_names with rfl | ⟨s, hs, hnames⟩
      · rfl
      · obtain ⟨q, loc, hq⟩ := hnames .outermost
        refine absurd ?_ (hnot q loc)
        rw [m'.sites_numbered]
        refine List.mem_flatMap.mpr ⟨.stmt s, ?_, hq⟩
        rw [MethodBody.topNodes, hm']
        exact List.mem_map_of_mem hs
  have hfields (m : MethodBody) : m.numbered = ⟨m.method, m.receiver, m.numbered.block⟩ := rfl
  rw [hfields m', hfields m, hblock, h.method_eq, h.receiver_eq]

/-! ## Lowered trees -/

section Lowered

variable {ctx : LoweringContext}

/-- The node is lowered to something. -/
def Node.Lowered (ctx : LoweringContext) : Node → Prop
  | .expr e => ∃ site aliases e', e.LowersTo ctx site aliases e'
  | .stmt s => ∃ site names s' later, s.LowersTo ctx site names s' later
  | .block b => ∃ site names b' later, b.LowersTo ctx site names b' later

theorem Expr.LowersTo.lowered {site : Site} {aliases : List (Variable × Variable)} {e e' : Expr}
    (h : e.LowersTo ctx site aliases e') : (Node.expr e).Lowered ctx := ⟨site, aliases, e', h⟩

theorem Stmt.LowersTo.lowered {site : Site} {names later : Names} {s : Stmt} {s' : Option Stmt}
    (h : s.LowersTo ctx site names s' later) : (Node.stmt s).Lowered ctx :=
  ⟨site, names, s', later, h⟩

theorem Block.LowersTo.lowered {site : Site} {names later : Names} {b b' : Block}
    (h : b.LowersTo ctx site names b' later) : (Node.block b).Lowered ctx :=
  ⟨site, names, b', later, h⟩

theorem Expr.AllLowerTo.lowered {site : Site} {aliases : List (Variable × Variable)}
    {es es' : List Expr} (h : Expr.AllLowerTo ctx site aliases es es') :
    ∀ k ∈ es.map Node.expr, k.Lowered ctx := by
  induction es generalizing es' with
  | nil => exact fun _ hk => nomatch hk
  | cons e es ih =>
    cases h with
    | cons hx hs => exact List.forall_mem_cons.mpr ⟨hx.lowered, ih hs⟩

theorem Expr.OptLowersTo.lowered {site : Site} {aliases : List (Variable × Variable)}
    {e e' : Option Expr} (h : Expr.OptLowersTo ctx site aliases e e') :
    ∀ k ∈ e.toList.map Node.expr, k.Lowered ctx := by
  cases h with
  | none => exact fun _ hk => nomatch hk
  | some hx => exact List.forall_mem_singleton.mpr hx.lowered

theorem Stmt.AllLowerTo.lowered {site : Site} {names later : Names} {ss ss' : List Stmt}
    (h : Stmt.AllLowerTo ctx site names ss ss' later) :
    ∀ k ∈ ss.map Node.stmt, k.Lowered ctx := by
  induction ss generalizing ss' names with
  | nil => exact fun _ hk => nomatch hk
  | cons s ss ih =>
    cases h with
    | cons hs hss => exact List.forall_mem_cons.mpr ⟨hs.lowered, ih hss⟩

theorem Block.OptLowersTo.lowered {site : Site} {names later : Names} {b b' : Option Block}
    (h : Block.OptLowersTo ctx site names b b' later) :
    ∀ k ∈ b.toList.map Node.block, k.Lowered ctx := by
  cases h with
  | none => exact fun _ hk => nomatch hk
  | some hb => exact List.forall_mem_singleton.mpr hb.lowered

/-- What is inside a lowered tree is lowered, unless it is the body of a nested function. -/
theorem Node.Lowered.inner {n : Node} (h : n.Lowered ctx) (hn : n.nested? = none) :
    ∀ k ∈ n.inner, k.Lowered ctx := by
  cases n with
  | expr e =>
    obtain ⟨site, aliases, e', h⟩ := h
    cases h with
    | literal | ref | self | functionRef | newEnv | zero => exact fun _ hk => nomatch hk
    | assign hx hy | binary hx hy =>
      exact List.forall_mem_cons.mpr ⟨hx.lowered, List.forall_mem_singleton.mpr hy.lowered⟩
    | lambda => exact nomatch hn
    | localCall _ _ _ hargs => exact hargs.lowered
    | call hr hargs =>
      rw [Node.inner_expr rfl, Expr.operands, List.map_append]
      exact List.forall_mem_append.mpr ⟨hr.lowered, hargs.lowered⟩
    | invoke hc hargs => exact List.forall_mem_cons.mpr ⟨hc.lowered, hargs.lowered⟩
    | field hr => exact List.forall_mem_singleton.mpr hr.lowered
    | delegate hr => exact hr.lowered
  | stmt s =>
    obtain ⟨site, names, s', later, h⟩ := h
    cases h with
    | block hb =>
      cases hb with
      | mk _ hs => exact hs.lowered
    | declare hi | declareNothing hi | ret hi => exact hi.lowered
    | expr hx => exact List.forall_mem_singleton.mpr hx.lowered
    | cond ht hb hx =>
      exact List.forall_mem_cons.mpr ⟨ht.lowered,
        List.forall_mem_cons.mpr ⟨hb.lowered, hx.lowered⟩⟩
    | loop ht hb =>
      exact List.forall_mem_cons.mpr ⟨ht.lowered, List.forall_mem_singleton.mpr hb.lowered⟩
    | localFunction => exact nomatch hn
  | block b =>
    obtain ⟨site, names, b', later, h⟩ := h
    cases h with
    | mk _ hs => exact hs.lowered

theorem Node.mention_eq_reference {n : Node} {v : Variable} :
    n.mention? = some (.reference v) ↔ ∃ loc, n = .expr (.ref loc (some v)) := by
  cases n with
  | expr e => cases e <;> simp [mention?]
  | stmt s => cases s <;> simp [mention?]
  | block b => simp [mention?]

/-- A reference in a lowered tree leads to its variable. -/
theorem Node.Lowered.variableRef {n : Node} {v : Variable} (h : n.Lowered ctx)
    (hv : .reference v ∈ n.mentions) :
    ∃ site aliases x, ctx.variableRef site aliases v = .ok x := by
  induction n using Node.induction with
  | step n ih =>
    rw [mentions_eq, List.mem_append] at hv
    rcases hv with hv | hv
    · split at hv
      · exact absurd hv List.not_mem_nil
      · rename_i hnested
        obtain ⟨k, hk, hv⟩ := List.mem_flatMap.mp hv
        exact ih k hk (h.inner (by simpa using hnested) k hk) hv
    · obtain ⟨loc, rfl⟩ := mention_eq_reference.mp (Option.mem_toList.mp hv)
      obtain ⟨site, aliases, e', h⟩ := h
      cases h with
      | ref h => exact ⟨_, _, _, h⟩

end Lowered

/-! ## Places in functions -/

namespace Graph.Holds

variable {g : Graph} {m : MethodBody} (h : g.Holds m) {p : Path} {n : Node} {a : Mention}

include h

/-- What is mentioned at a place is mentioned in the body of the innermost function around it. -/
theorem frame_of_mention (hn : (p, n) ∈ m.numbered.sites) (ha : n.mention? = some a) :
    ∃ fr ∈ g.frames, ∃ b, (g.scope (g.entry fr)).block = some b ∧ a ∈ (Node.block b).mentions ∧
      (fr = none ↔ p.functions = []) := by
  -- downwards from the outermost nodes; a nested function begins the body of another frame
  have hdown (k : Node) : ∀ q fr b, (q, k) ∈ m.numbered.sites → fr ∈ g.frames →
      (g.scope (g.entry fr)).block = some b → k.mentions ⊆ (Node.block b).mentions →
      (fr = none ↔ q.functions = []) → ∀ s ∈ k.sites q, s.2.mention? = some a →
      ∃ fr ∈ g.frames, ∃ b, (g.scope (g.entry fr)).block = some b ∧ a ∈ (Node.block b).mentions ∧
        (fr = none ↔ s.1.functions = []) := by
    induction k using Node.induction with
    | step k ih =>
      intro q fr b hq hfr hb hsub hfun s hs hsa
      obtain rfl | ⟨k', hk', hs⟩ := Node.mem_sites.mp hs
      · refine ⟨fr, hfr, b, hb, hsub ?_, hfun⟩
        rw [Node.mentions_eq, hsa]
        exact List.mem_append_right _ List.mem_cons_self
      have hflat : k'.mentions ⊆ k.inner.flatMap Node.mentions :=
        fun t ht => List.mem_flatMap.mpr ⟨k', hk', ht⟩
      have hq' := MethodBody.mem_sites_of_inner hq hk'
      cases hnested : k.nested? with
      | none =>
        refine ih k' hk' (q.into k) fr b hq' hfr hb (fun t ht => hsub ?_) ?_ s hs hsa
        · rw [Node.mentions_of_inner hnested]
          exact List.mem_append_left _ (hflat ht)
        · simpa [Path.functions_into, Node.function?, hnested] using hfun
      | some fb =>
        obtain ⟨fn, b'⟩ := fb
        obtain ⟨f, c, rfl, hlays⟩ := (h.lays q k hq).function fn b' hnested
        have hopen := Node.opened_of_nested hnested
        refine ih k' hk' (q.into k) (some c) b' hq' ?_ ?_ (fun t ht => ?_) ?_ s hs hsa
        · simpa [mem_frames] using hlays.lt
        · rw [entry, hlays.body]
          exact ((h.lays q k hq).scope b' hopen).block
        · rw [Node.mentions_block, ← Node.inner_of_opened hopen]
          exact hflat ht
        · simp [Path.functions_into, Node.function?, hnested]
  rw [m.sites_numbered] at hn
  obtain ⟨k, hk, hn⟩ := List.mem_flatMap.mp hn
  obtain ⟨method, b, -, hb, hblock, -⟩ := h.complete
  have htop : m.topNodes = b.stmts.map Node.stmt := by simp [MethodBody.topNodes, hb]
  refine hdown k .outermost none b (MethodBody.mem_sites_of_topNodes hk) ?_ hblock ?_ ?_ _ hn ha
  · exact mem_frames.mpr fun _ hc => by cases hc
  · intro t ht
    rw [Node.mentions_block, ← htop]
    exact List.mem_flatMap.mpr ⟨k, hk, ht⟩
  · exact ⟨fun _ => rfl, fun _ => rfl⟩

/-- What is mentioned in the body of a nested function is mentioned at a place inside it. -/
theorem exists_site_of_mention {c : ClosureId} (hc : c < g.closures.size) {b : Block}
    (hb : (g.scope (g.entry (some c))).block = some b) (ha : a ∈ (Node.block b).mentions) :
    ∃ q k, (q, k) ∈ m.numbered.sites ∧ k.mention? = some a ∧ q.functions ≠ [] := by
  obtain ⟨p, n, b', hn, hnested, hlays⟩ := h.site_of_closure hc
  have hopen := Node.opened_of_nested hnested
  obtain rfl : b' = b := by
    have hblock := ((h.lays p n hn).scope b' hopen).block
    rw [← hlays.body] at hblock
    exact Option.some.inj (hblock.symm.trans hb)
  rw [Node.mentions_block, ← Node.inner_of_opened hopen] at ha
  obtain ⟨k, hk, ha⟩ := List.mem_flatMap.mp ha
  obtain ⟨⟨q, j⟩, hj, hja⟩ := Node.exists_site_of_mem_mentions ha (p.into n)
  refine ⟨q, j, MethodBody.sites_subset (MethodBody.mem_sites_of_inner hn hk) hj, hja, ?_⟩
  intro hnil
  have hsuffix := (Node.suffix_of_mem_sites hj).2
  rw [show q.functions = [] from hnil, List.suffix_nil] at hsuffix
  simp [Path.functions_into, Node.function?, hnested] at hsuffix

end Graph.Holds

end Unnest
