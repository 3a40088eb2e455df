import Mathlib.Data.List.Nodup
import Mathlib.Data.List.Perm.Lattice
import Unnest.Proofs.Captures.Closed
import Unnest.Proofs.Hoisting
import Unnest.Proofs.Lowered.Settled

/-!
# What lowered trees declare

A lowered block declares what stands for the variables of the block that are not hoisted, and the
holder of its environment. Over a whole frame this comes to `Node.kept`, in which nothing comes
twice: no two variables share a stand-in, and every environment is held once.

## Main definitions

* `Node.kept` : what is declared in place of a node.

## Main statements

* `Block.LowersIn.declared` : the variables that a lowered block declares itself.
* `Block.LowersIn.allDeclared` : the variables declared in a lowered block and in the blocks inside.
-/

namespace Unnest

variable {ctx : LoweringContext} {m : MethodBody} {names : Names} {site site' : Site} {e : EnvId}
  {v x : Variable} {b b' : Block}

/-! ## Single blocks -/

theorem Block.mem_declared : v ∈ b.declared ↔ ∃ s ∈ b.stmts, (Node.stmt s).declared? = some v := by
  simp [declared, List.mem_filterMap]

/-- After the holder of an environment is declared, its fields are given values. -/
theorem LoweringContext.createEnv_cases {aliases : List (Variable × Variable)} {t : EnvType}
    {holder : Variable} {created : List Stmt}
    (h : ctx.createEnv site aliases e t holder = .ok (created, site')) : ∃ init rest,
      created = .declare {} (some holder) (some init) :: rest ∧
      (init = .zero {} holder.type ∨ init = .newEnv {} holder.type) ∧
      ∀ s ∈ rest, ∃ f y, s = store holder f y ∧ ((∃ p, ctx.envRef site p = .ok y) ∨
        ctx.receiverRef site = .ok y ∨ ∃ v ∈ (ctx.graph.env e).vars, v.role = .parameter ∧
          y = .ref {} (some ((aliases.lookup v).getD v))) := by
  obtain ⟨-, init, parent, stores, rfl, hinit, hparent, hstores⟩ := createEnv_inv h
  refine ⟨init, parent ++ stores.flatten, rfl, ?_, ?_⟩
  · rw [hinit]
    split
    · exact .inl rfl
    · exact .inr rfl
  · intro s hs
    rcases List.mem_append.mp hs with hs | hs
    · rcases storeParent_inv hparent with ⟨-, rfl⟩ | ⟨link, y, -, rfl, hy⟩
      · exact absurd hs List.not_mem_nil
      · refine ⟨link, y, List.mem_singleton.mp hs, ?_⟩
        rcases hy with ⟨p, -, hy⟩ | ⟨-, hy⟩
        · exact .inl ⟨p, hy⟩
        · exact .inr (.inl hy)
    · obtain ⟨ss, hss, hs⟩ := List.mem_flatten.mp hs
      obtain ⟨v, hv, hstore⟩ := (exists_mem_of_forall₂ (forall₂_of_mapM_ok hstores)).2 ss hss
      rcases storeVariable_inv hstore with ⟨rfl, -⟩ | ⟨f, y, -, rfl, hy⟩
      · exact absurd hs List.not_mem_nil
      · refine ⟨f, y, List.mem_singleton.mp hs, ?_⟩
        rcases hy with ⟨-, hy⟩ | ⟨hr, hy⟩
        · exact .inr (.inl hy)
        · exact .inr (.inr ⟨v, hv, hr, hy⟩)

/-- Creating an environment declares its holder. -/
theorem LoweringContext.declared_createEnv {aliases : List (Variable × Variable)} {t : EnvType}
    {holder : Variable} {created : List Stmt}
    (h : ctx.createEnv site aliases e t holder = .ok (created, site')) :
    (∃ s ∈ created, (Node.stmt s).declared? = some x) ↔ x = holder := by
  obtain ⟨init, rest, rfl, -, hrest⟩ := createEnv_cases h
  constructor
  · rintro ⟨s, hs, hx⟩
    rcases List.mem_cons.mp hs with rfl | hs
    · exact (Option.some.inj hx).symm
    · obtain ⟨f, y, rfl, -⟩ := hrest s hs
      exact nomatch hx
  · rintro rfl
    exact ⟨_, List.mem_cons_self, rfl⟩

/-- Statements declare what stands for the variables that are not hoisted. -/
theorem Stmt.LowersIn.declared {s : Stmt} {s' : Option Stmt} (hl : s.LowersIn ctx names site s') :
    (∃ t ∈ s'.toList, (Node.stmt t).declared? = some x) ↔
      ∃ v, (Node.stmt s).declared? = some v ∧ ctx.graph.envOf? v = none ∧ x = names.standIn v := by
  cases hl with
  | declare _ hd =>
    cases hd with
    | hoisted he => simp [Node.declared?, he]
    | hoistedInit he => simp [Node.declared?, he]
    | plain he => simp [Node.declared?, he, eq_comm]
  | _ => simp [Node.declared?]

theorem Stmt.AllLowerIn.declared {ss ss' : List Stmt} (hl : AllLowerIn ctx names site ss ss') :
    (∃ t ∈ ss', (Node.stmt t).declared? = some x) ↔ ∃ s ∈ ss, ∃ v,
      (Node.stmt s).declared? = some v ∧ ctx.graph.envOf? v = none ∧ x = names.standIn v := by
  induction ss generalizing ss' with
  | nil =>
    cases hl
    simp
  | cons s ss ih =>
    cases hl with
    | cons h hs =>
      simp only [List.mem_append, List.mem_cons, or_and_right, exists_or, exists_eq_left, ih hs,
        h.declared]

theorem Block.LowersIn.declared (hl : b.LowersIn ctx names site b') :
    x ∈ b'.declared ↔ (∃ e, (ctx.graph.scope b.id).env = some e ∧ names.holders.lookup e = some x) ∨
      ∃ v ∈ b.declared, ctx.graph.envOf? v = none ∧ x = names.standIn v := by
  cases hl with
  | @mk _ id loc stmts created site' stmts' ho hs =>
    have hcreated : (∃ s ∈ created, (Node.stmt s).declared? = some x) ↔
        ∃ e, (ctx.graph.scope id).env = some e ∧ names.holders.lookup e = some x := by
      cases ho with
      | bare hnone => simp [hnone]
      | env henv _ hholder hcreate =>
        rw [LoweringContext.declared_createEnv hcreate]
        simp [henv, hholder, eq_comm]
    rw [mem_declared]
    change (∃ s ∈ created ++ stmts', _) ↔ _
    simp only [List.mem_append, or_and_right, exists_or, hcreated, hs.declared]
    refine or_congr_right ⟨?_, ?_⟩
    · rintro ⟨s, hs, v, hv, hplain⟩
      exact ⟨v, mem_declared.mpr ⟨s, hs, hv⟩, hplain⟩
    · rintro ⟨v, hv, hplain⟩
      obtain ⟨s, hs, hv⟩ := mem_declared.mp hv
      exact ⟨s, hs, v, hv, hplain⟩

/-! ## Whole trees -/

/-- What is declared in place of a mention: the stand-in of a variable that is not hoisted. -/
def Mention.kept? (g : Graph) (names : Names) : Mention → Option Variable
  | .reference _ => none
  | .declaration v => if g.envOf? v = none then some (names.standIn v) else none

theorem Mention.kept_eq_some {g : Graph} {a : Mention} (h : a.kept? g names = some x) :
    ∃ v, a = .declaration v ∧ x = names.standIn v := by
  cases a with
  | reference v => exact nomatch h
  | declaration v =>
    rw [kept?] at h
    split at h
    · exact ⟨v, rfl, (Option.some.inj h).symm⟩
    · exact nomatch h

/-- The variable that holds the environment of a scope. -/
def Graph.holder? (g : Graph) (names : Names) (s : ScopeId) : Option Variable :=
  (g.scope s).env.bind fun e => names.holders.lookup e

namespace Node

/-- What is declared in place of a node, without what its nested functions declare. -/
def kept (g : Graph) (names : Names) (n : Node) : List Variable :=
  n.mentions.filterMap (Mention.kept? g names) ++ n.ownBlocks.filterMap (g.holder? names)

variable {g : Graph} {n : Node} {bound : Bool} {V : List Variable}

theorem kept_of_nested (hn : n.nested?.isSome) : n.kept g names = [] := by
  rw [kept, mentions_of_nested hn, ownBlocks_of_nested hn]
  rfl

/-- What is declared in place of a node comes from the node itself and from the nodes inside. -/
theorem kept_of_inner (hn : n.nested? = none) : (n.kept g names).Perm
    ((n.mention?.bind (Mention.kept? g names)).toList ++
      (n.opened?.bind fun b => g.holder? names b.id).toList ++ n.inner.flatMap (kept g names)) := by
  have hown : n.mention?.toList.filterMap (Mention.kept? g names) =
      (n.mention?.bind (Mention.kept? g names)).toList := by
    cases n.mention? with
    | none => rfl
    | some a => cases h : a.kept? g names <;> simp [h]
  have hopened : (n.opened?.map (·.id)).toList.filterMap (g.holder? names) =
      (n.opened?.bind fun b => g.holder? names b.id).toList := by
    cases n.opened? with
    | none => rfl
    | some b => cases h : g.holder? names b.id <;> simp [h]
  have hinner := List.flatMap_append_perm n.inner
    (fun k => k.mentions.filterMap (Mention.kept? g names))
    fun k => k.ownBlocks.filterMap (g.holder? names)
  rw [kept, mentions_of_inner hn, ownBlocks_of_inner hn, List.filterMap_append,
    List.filterMap_append, hown, hopened, List.filterMap_flatMap, List.filterMap_flatMap]
  refine List.Perm.trans ?_ (List.Perm.append_left _ hinner)
  apply List.perm_iff_count.mpr
  intro v
  simp only [List.count_append]
  omega

theorem kept_block (b : Block) : ((Node.block b).kept g names).Perm
    ((g.holder? names b.id).toList ++ (b.stmts.map Node.stmt).flatMap (kept g names)) :=
  kept_of_inner rfl

/-- Of a block that is a statement the same is kept as of the block. -/
theorem kept_stmt_block (b : Block) :
    (Node.stmt (.block b)).kept g names = (Node.block b).kept g names := by
  rw [kept, kept, mentions_of_inner rfl, mentions_of_inner rfl, ownBlocks_of_inner rfl,
    ownBlocks_of_inner rfl]
  rfl

theorem kept_expr (e : Expr) : (Node.expr e).kept g names = [] := by
  generalize hn : Node.expr e = n
  induction n using Node.induction generalizing e with
  | step n ih =>
    subst hn
    cases hnested : (Node.expr e).nested? with
    | some f => exact kept_of_nested (by rw [hnested]; rfl)
    | none =>
      have hnone : (Node.expr e).opened? = none := by
        cases e <;> first | rfl | exact nomatch hnested
      have hmention : (Node.expr e).mention?.bind (Mention.kept? g names) = none := by
        cases e with
        | ref loc target => cases target <;> rfl
        | _ => rfl
      apply List.perm_nil.mp
      refine (kept_of_inner hnested).trans (.of_eq ?_)
      rw [hmention, hnone, inner_expr hnone]
      refine List.flatMap_eq_nil_iff.mpr fun k hk => ?_
      obtain ⟨x, -, rfl⟩ := List.mem_map.mp hk
      exact ih _ (inner_expr hnone ▸ hk) x rfl

theorem allDeclared_eq (n : Node) :
    n.allDeclared = n.declared?.toList ++ n.inner.flatMap allDeclared :=
  gather_eq _ n

theorem allDeclared_stmt_block (b : Block) :
    (Node.stmt (.block b)).allDeclared = (Node.block b).allDeclared := by
  rw [allDeclared_eq, allDeclared_eq (.block b)]
  rfl

/-- Without nested functions an expression declares nothing. -/
theorem Closed.allDeclared_expr {e : Expr} (h : (Node.expr e).Closed bound V) :
    (Node.expr e).allDeclared = [] := by
  generalize hn : Node.expr e = n at h
  induction h generalizing e with
  | mk own _ ih =>
    subst hn
    have hnone : (Node.expr e).opened? = none := by
      cases e <;> first | rfl | exact absurd own id
    rw [allDeclared_eq, inner_expr hnone]
    refine List.flatMap_eq_nil_iff.mpr fun k hk => ?_
    obtain ⟨x, -, rfl⟩ := List.mem_map.mp hk
    exact ih _ (inner_expr hnone ▸ hk) rfl

end Node

section LowersIn

variable {bound : Bool}

theorem allDeclared_exprs {l : List Expr} {V : List Variable}
    (hc : ∀ k ∈ l.map Node.expr, k.Closed bound V) :
    (l.map Node.expr).flatMap Node.allDeclared = [] := by
  apply List.flatMap_eq_nil_iff.mpr
  intro k hk
  obtain ⟨x, -, rfl⟩ := List.mem_map.mp hk
  exact (hc _ hk).allDeclared_expr

/-- Creating an environment declares its holder and nothing else. -/
theorem LoweringContext.OpensIn.allDeclared {s : ScopeId} {created : List Stmt} {V : List Variable}
    (ho : ctx.OpensIn names site s created site')
    (hc : ∀ t ∈ created, (Node.stmt t).Closed bound V) :
    (created.map Node.stmt).flatMap Node.allDeclared = (ctx.graph.holder? names s).toList := by
  cases ho with
  | bare hs => simp [Graph.holder?, hs]
  | env hs ht hh hcreate =>
    obtain ⟨init, rest, rfl, -, hrest⟩ := createEnv_cases hcreate
    have hnone : (rest.map Node.stmt).flatMap Node.allDeclared = [] := by
      apply List.flatMap_eq_nil_iff.mpr
      intro k hk
      obtain ⟨s, hs, rfl⟩ := List.mem_map.mp hk
      obtain ⟨-, hinner⟩ := hc s (List.mem_cons_of_mem _ hs)
      obtain ⟨f, y, rfl, -⟩ := hrest s hs
      rw [Node.allDeclared_eq]
      exact allDeclared_exprs (l := [_]) hinner
    obtain ⟨-, hinner⟩ := hc _ List.mem_cons_self
    have hinit := (hinner (.expr init) (by simp [Node.inner])).allDeclared_expr
    rw [List.map_cons, List.flatMap_cons, hnone, Node.allDeclared_eq]
    simp [Graph.holder?, hs, hh, Node.declared?, Node.inner, hinit]

/-- What stands for a declaration declares what stands for its variable. -/
theorem LoweringContext.DeclaresIn.allDeclared {loc : Loc} {init : Option Expr} {s' : Option Stmt}
    {V : List Variable} (hd : ctx.DeclaresIn names site loc v init s')
    (hc : ∀ t ∈ s', (Node.stmt t).Closed bound V) :
    (s'.toList.map Node.stmt).flatMap Node.allDeclared =
      (Mention.kept? ctx.graph names (.declaration v)).toList := by
  cases hd with
  | hoisted he => simp [Mention.kept?, he]
  | hoistedInit he =>
    obtain ⟨-, hinner⟩ := hc _ rfl
    have hvalue := (hinner _ List.mem_cons_self).allDeclared_expr
    simp [Mention.kept?, he, Node.allDeclared_eq (.stmt _), Node.declared?, Node.inner, hvalue]
  | @plain init he =>
    obtain ⟨-, hinner⟩ := hc _ rfl
    have hinit : (init.toList.map Node.expr).flatMap Node.allDeclared = [] :=
      allDeclared_exprs hinner
    simp [Mention.kept?, he, Node.allDeclared_eq (.stmt _), Node.declared?, Node.inner, hinit]

mutual

/-- A lowered statement declares what is kept of it. -/
theorem Stmt.LowersIn.allDeclared {site : Site} {s : Stmt} {s' : Option Stmt} {V : List Variable}
    (hl : s.LowersIn ctx names site s') (hc : ∀ t ∈ s', (Node.stmt t).Closed bound V) :
    ((s'.toList.map Node.stmt).flatMap Node.allDeclared).Perm
      ((Node.stmt s).kept ctx.graph names) := by
  cases hl with
  | @block _ b b' h =>
    obtain ⟨-, hinner⟩ := hc _ rfl
    have h := h.allDeclared (.mk trivial hinner)
    simpa [Node.kept_stmt_block, Node.allDeclared_stmt_block] using h
  | @declare _ loc v init _ _ hi hd =>
    refine List.Perm.trans ?_ (Node.kept_of_inner rfl).symm
    have hinit : (init.toList.map Node.expr).flatMap (Node.kept ctx.graph names) = [] := by
      simp [Node.kept_expr]
    rw [hd.allDeclared hc]
    simp [Node.mention?, Node.opened?, Node.inner, hinit]
  | declareNothing =>
    obtain ⟨hnone, -⟩ := hc _ rfl
    exact absurd rfl hnone
  | @expr _ loc value value' h =>
    obtain ⟨-, hinner⟩ := hc _ rfl
    have hvalue := (hinner _ List.mem_cons_self).allDeclared_expr
    refine List.Perm.trans ?_ (Node.kept_of_inner rfl).symm
    simp [Node.allDeclared_eq (.stmt _), Node.mention?, Node.opened?, Node.inner, Node.declared?,
      hvalue, Node.kept_expr]
  | @ret _ loc value value' h =>
    obtain ⟨-, hinner⟩ := hc _ rfl
    have hvalue : (value'.toList.map Node.expr).flatMap Node.allDeclared = [] :=
      allDeclared_exprs hinner
    refine List.Perm.trans ?_ (Node.kept_of_inner rfl).symm
    simp [Node.allDeclared_eq (.stmt _), Node.mention?, Node.opened?, Node.inner, Node.declared?,
      hvalue, Node.kept_expr]
  | @cond _ loc test test' thenBlock thenBlock' elseBlock elseBlock' ht hb he =>
    obtain ⟨-, hinner⟩ := hc _ rfl
    have htest := (hinner (.expr test') (by simp [Node.inner])).allDeclared_expr
    have hb := hb.allDeclared (hinner _ (by simp [Node.inner]))
    refine List.Perm.trans ?_ (Node.kept_of_inner rfl).symm
    cases he with
    | none =>
      simpa [Node.allDeclared_eq (.stmt _), Node.mention?, Node.opened?, Node.inner, Node.declared?,
        htest, Node.kept_expr] using hb
    | some h =>
      have h := h.allDeclared (hinner _ (by simp [Node.inner]))
      simpa [Node.allDeclared_eq (.stmt _), Node.mention?, Node.opened?, Node.inner, Node.declared?,
        htest, Node.kept_expr] using hb.append h
  | @loop _ loc test test' body body' ht hb =>
    obtain ⟨-, hinner⟩ := hc _ rfl
    have htest := (hinner (.expr test') (by simp [Node.inner])).allDeclared_expr
    have hb := hb.allDeclared (hinner _ (by simp [Node.inner]))
    refine List.Perm.trans ?_ (Node.kept_of_inner rfl).symm
    simpa [Node.allDeclared_eq (.stmt _), Node.mention?, Node.opened?, Node.inner, Node.declared?,
      htest, Node.kept_expr] using hb
  | localFunction =>
    rw [Node.kept_of_nested rfl]
    exact .refl _
termination_by sizeOf s

theorem Stmt.AllLowerIn.allDeclared {site : Site} {ss ss' : List Stmt} {V : List Variable}
    (hl : Stmt.AllLowerIn ctx names site ss ss') (hc : ∀ t ∈ ss', (Node.stmt t).Closed bound V) :
    ((ss'.map Node.stmt).flatMap Node.allDeclared).Perm
      ((ss.map Node.stmt).flatMap (Node.kept ctx.graph names)) := by
  cases hl with
  | nil => exact .refl _
  | cons h hs =>
    have h := h.allDeclared fun t ht => hc t (List.mem_append_left _ (Option.mem_toList.mpr ht))
    have hs := hs.allDeclared fun t ht => hc t (List.mem_append_right _ ht)
    simp only [List.map_append, List.flatMap_append, List.map_cons, List.flatMap_cons]
    exact h.append hs
termination_by sizeOf ss

/-- A lowered block declares what is kept of it. -/
theorem Block.LowersIn.allDeclared {site : Site} {b b' : Block} {V : List Variable}
    (hl : b.LowersIn ctx names site b') (hc : (Node.block b').Closed bound V) :
    (Node.block b').allDeclared.Perm ((Node.block b).kept ctx.graph names) := by
  cases hl with
  | @mk _ id loc stmts created site' stmts' ho hs =>
    obtain ⟨-, hinner⟩ := hc
    have ho := ho.allDeclared fun t ht =>
      hinner (.stmt t) (List.mem_map_of_mem (List.mem_append_left _ ht))
    have hs := hs.allDeclared fun t ht =>
      hinner (.stmt t) (List.mem_map_of_mem (List.mem_append_right _ ht))
    refine List.Perm.trans ?_ (Node.kept_block _).symm
    rw [Node.allDeclared_eq]
    change (List.flatMap Node.allDeclared ((created ++ stmts').map Node.stmt)).Perm _
    rw [List.map_append, List.flatMap_append, ho]
    exact List.Perm.append_left _ hs
termination_by sizeOf b

end

end LowersIn

/-! ## Nothing is declared twice -/

/-- The name `w` comes to frame `fr` from outside its statements: it stands for the receiver or a
parameter, or it holds an environment of another frame. -/
def LoweringContext.Passed (ctx : LoweringContext) (m : MethodBody) (fr : Option ClosureId)
    (w : Variable) : Prop :=
  (∃ v ∈ m.declared, v.role ≠ .declared ∧ w.StandsFor v) ∨
    ∃ k e, w.id = .holder k e ∧ ctx.graph.frame? (ctx.graph.env e).scope ≠ fr

namespace LoweringContext.Binds

variable {fr : Option ClosureId} (h : ctx.Binds m) (hids : m.GivenVariables) (hmade : names.Made)
  (hfr : fr ∈ ctx.graph.frames) (hb : (ctx.graph.scope (ctx.graph.entry fr)).block = some b)

include h

theorem declared_of_mention {ns : List Node} (hns : ns ∈ m.bodies)
    (hv : .declaration v ∈ ns.flatMap Node.mentions) : v ∈ m.declared ∧ v.role = .declared := by
  obtain ⟨n, hn, hv⟩ := List.mem_flatMap.mp hv
  obtain ⟨p, hp⟩ := MethodBody.site_of_mem_bodies hns hn
  obtain ⟨s, hs, hsv⟩ := Node.exists_site_of_mem_mentions hv p
  have hdecl := Node.mention_eq_declaration.mp hsv
  have hsite := MethodBody.sites_subset hp hs
  exact ⟨MethodBody.mem_declared.mpr ⟨s.1, .statement hsite hdecl⟩,
    h.inRole.role_declared hsite hdecl⟩

include hmade

theorem env_of_holder {s : ScopeId} {w : Variable} (hw : ctx.graph.holder? names s = some w) :
    ∃ k e, w.id = .holder k e ∧ (ctx.graph.env e).scope = s := by
  obtain ⟨e, he, hw⟩ := Option.bind_eq_some_iff.mp hw
  obtain ⟨k, hk⟩ := hmade.holders _ (mem_of_lookup hw)
  exact ⟨k, e, hk, ((h.seated.placed.scope_env s e).mp he).2.1⟩

include hfr hb

/-- What is kept of a frame stands for a variable declared by a statement, or holds an environment
of the frame. -/
theorem mem_kept {w : Variable} (hw : w ∈ (Node.block b).kept ctx.graph names) :
    (∃ v ∈ m.declared, v.role = .declared ∧ w.StandsFor v) ∨
      ∃ k e, w.id = .holder k e ∧ ctx.graph.frame? (ctx.graph.env e).scope = fr := by
  have hholds := h.seated.exact.holds
  rcases List.mem_append.mp hw with hw | hw
  · obtain ⟨a, ha, hw⟩ := List.mem_filterMap.mp hw
    obtain ⟨v, rfl, rfl⟩ := Mention.kept_eq_some hw
    rw [Node.mentions_block] at ha
    obtain ⟨hv, hrole⟩ := h.declared_of_mention (hholds.stmts_mem_bodies hfr hb) ha
    exact .inl ⟨v, hv, hrole, hmade.standsFor v⟩
  · obtain ⟨s, hs, hw⟩ := List.mem_filterMap.mp hw
    obtain ⟨k, e, hk, rfl⟩ := h.env_of_holder hmade hw
    refine .inr ⟨k, e, hk, ?_⟩
    have hmem := hholds.mem_frameBlocks hfr (s := (ctx.graph.env e).scope)
    rw [Graph.frameBlocks, hb] at hmem
    exact (hmem.mp hs).2

include hids

/-- Nothing is kept twice of a frame. -/
theorem nodup_kept : ((Node.block b).kept ctx.graph names).Nodup := by
  have hholds := h.seated.exact.holds
  have hbodies := hholds.stmts_mem_bodies hfr hb
  obtain ⟨-, b', hb', -, -, -, hblocks⟩ := hholds.frame_block hfr
  obtain rfl : b' = b := Option.some.inj (hb'.symm.trans hb)
  refine List.nodup_append.mpr ⟨?_, ?_, ?_⟩
  · rw [Node.mentions_block]
    apply List.pairwise_filterMap.mpr
    refine (hholds.declared_once hbodies).1.imp_of_mem ?_
    intro a a' ha ha' honce w hw w' hw' heq
    obtain ⟨v, rfl, rfl⟩ := Mention.kept_eq_some hw
    obtain ⟨v', rfl, rfl⟩ := Mention.kept_eq_some hw'
    have hv := (h.declared_of_mention hbodies ha).1
    have hv' := (h.declared_of_mention hbodies ha').1
    obtain rfl := hids.eq_of_standsFor hv hv' (hmade.standsFor v) (heq ▸ hmade.standsFor v')
    exact honce v rfl rfl
  · apply List.pairwise_filterMap.mpr
    refine (hblocks.sublist (Node.ownBlocks_sublist _)).imp ?_
    intro s t hne w hw w' hw' heq
    obtain ⟨k, e, hk, rfl⟩ := h.env_of_holder hmade hw
    obtain ⟨k', e', hk', rfl⟩ := h.env_of_holder hmade hw'
    grind
  · intro w hw w' hw' heq
    obtain ⟨a, ha, hw⟩ := List.mem_filterMap.mp hw
    obtain ⟨v, rfl, rfl⟩ := Mention.kept_eq_some hw
    obtain ⟨s, -, hw'⟩ := List.mem_filterMap.mp hw'
    obtain ⟨k, e, hk, -⟩ := h.env_of_holder hmade hw'
    rw [Node.mentions_block] at ha
    have hv := (h.declared_of_mention hbodies ha).1
    exact hids.not_standsFor_holder hv hk (heq ▸ hmade.standsFor v)

/-- Nothing is kept of a frame that comes to it from outside. -/
theorem not_mem_kept {w : Variable} (hp : ctx.Passed m fr w) :
    w ∉ (Node.block b).kept ctx.graph names := by
  intro hw
  rcases h.mem_kept hmade hfr hb hw with ⟨v, hv, hrole, hstands⟩ | ⟨k, e, hk, hframe⟩
  · rcases hp with ⟨u, hu, hne, hstands'⟩ | ⟨k, e, hk, -⟩
    · obtain rfl := hids.eq_of_standsFor hu hv hstands' hstands
      exact hne hrole
    · exact hids.not_standsFor_holder hv hk hstands
  · rcases hp with ⟨u, hu, -, hstands⟩ | ⟨k', e', hk', hne⟩
    · exact hids.not_standsFor_holder hu hk hstands
    · grind

/-- What comes to a frame from outside and what it declares are all different. -/
theorem nodup_declared {bound : Bool} {V W : List Variable} (hV : V.Nodup)
    (hp : ∀ w ∈ V, ctx.Passed m fr w) (hl : b.LowersIn ctx names site b')
    (hc : (Node.block b').Closed bound W) : (V ++ (Node.block b').allDeclared).Nodup := by
  have hperm := hl.allDeclared hc
  refine List.nodup_append.mpr ⟨hV, hperm.nodup_iff.mpr (h.nodup_kept hids hmade hfr hb), ?_⟩
  rintro w hw _ hw' rfl
  exact h.not_mem_kept hids hmade hfr hb (hp w hw) (hperm.mem_iff.mp hw')

end LoweringContext.Binds

end Unnest
