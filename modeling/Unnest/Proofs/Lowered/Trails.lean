import Unnest.Proofs.Bypass
import Unnest.Proofs.Hoisting

/-!
# The trail of a variable

The trail of a variable in a tree are the places that refer to it or declare it, in the order in
which they are reached. Lowering a frame keeps the trail of a variable that is not hoisted: each
place stays what it is, and only the name there changes. Up to the declaration the variable keeps
its name. The declaration makes a copy if the type is spelled differently in the frame, and from
there on the copy stands for the variable.

## Main definitions

* `Variable.trail` : the mentions of a variable and of its copies.
* `Variable.Trails` : how the names in a trail change.
* `LoweringContext.Tracks` : the variable is not hoisted, and nothing else is written in its name.

## Main statements

* `LoweringContext.Tracks.block` : the trail of a variable in a lowered block.
-/

namespace Unnest

/-- The mention is of the variable or of a copy of it. -/
def Mention.concerns (v : Variable) : Mention → Bool
  | .reference w => decide (w.StandsFor v)
  | .declaration w => decide (w.StandsFor v)

namespace Variable

/-- The mentions of a variable and of its copies, without those in nested functions. -/
def trail (v : Variable) (ns : List Node) : List Mention :=
  (ns.flatMap Node.mentions).filter (Mention.concerns v)

variable {v : Variable} {n : Node}

@[simp] theorem trail_nil : v.trail [] = [] := rfl

theorem trail_append (ns ms : List Node) : v.trail (ns ++ ms) = v.trail ns ++ v.trail ms := by
  simp [trail]

theorem trail_of_nested (hn : n.nested?.isSome) : v.trail [n] = [] := by
  simp [trail, Node.mentions_of_nested hn]

theorem trail_of_inner (hn : n.nested? = none) :
    v.trail [n] = v.trail n.inner ++ n.mention?.toList.filter (Mention.concerns v) := by
  simp [trail, Node.mentions_of_inner hn]

theorem trail_of_leaf (hn : n.nested? = none) (hi : n.inner = []) (hm : n.mention? = none) :
    v.trail [n] = [] := by
  rw [trail_of_inner hn, hi, hm]
  rfl

/-- How the names in a trail of `v` change. Before it `a` is the copy that stands for `v`, if there
is one, and after it `b`. A declaration makes a copy unless `same` holds. -/
inductive Trails (v : Variable) (same : Prop) :
    Option Variable → List Mention → List Mention → Option Variable → Prop where
  | nil {a} : Trails v same a [] [] a
  | reference {a l l' b} (h : Trails v same a l l' b) :
      Trails v same a (.reference v :: l) (.reference (a.getD v) :: l') b
  | same {a l l' b} (hs : same) (h : Trails v same a l l' b) :
      Trails v same a (.declaration v :: l) (.declaration v :: l') b
  | copy {a l l' b} {w : Variable} (hs : ¬ same) (hid : ∃ k, w.id = .copy k v.id)
      (h : Trails v same (some w) l l' b) :
      Trails v same a (.declaration v :: l) (.declaration w :: l') b

theorem Trails.append {same : Prop} {a b c : Option Variable} {l l' k k' : List Mention}
    (h : v.Trails same a l l' b) (h' : v.Trails same b k k' c) :
    v.Trails same a (l ++ k) (l' ++ k') c := by
  induction h with
  | nil => exact h'
  | reference _ ih => exact .reference (ih h')
  | same hs _ ih => exact .same hs (ih h')
  | copy hs hid _ ih => exact .copy hs hid (ih h')

/-- The trail of `v` in `ns` has become that in `ns'`. -/
def Follows (v : Variable) (same : Prop) (a : Option Variable) (ns ns' : List Node)
    (b : Option Variable) : Prop := v.Trails same a (v.trail ns) (v.trail ns') b

namespace Follows

variable {same : Prop} {a b c : Option Variable} {ns ns' ms ms' : List Node} {n' : Node}

theorem append (h : v.Follows same a ns ns' b) (h' : v.Follows same b ms ms' c) :
    v.Follows same a (ns ++ ms) (ns' ++ ms') c := by
  rw [Follows, trail_append, trail_append]
  exact Trails.append h h'

/-- Nothing is left of a trail where there was none. -/
theorem silent (h : v.trail ns = []) (h' : v.trail ns' = []) : v.Follows same a ns ns' a := by
  rw [Follows, h, h']
  exact .nil

/-- A node that mentions no variable itself has the trail of what is inside. -/
theorem of_inner (h : v.Follows same a n.inner n'.inner b) (hn : n.nested? = none)
    (hn' : n'.nested? = none) (hm : n.mention? = none) (hm' : n'.mention? = none) :
    v.Follows same a [n] [n'] b := by
  simpa [Follows, trail_of_inner hn, trail_of_inner hn', hm, hm'] using h

end Follows

end Variable

/-! ## Mentions among the nodes -/

namespace Node

theorem filterMap_mention_nodes (n : Node) : n.nodes.filterMap mention? =
    n.mention?.toList ++ (n.inner.flatMap nodes).filterMap mention? := by
  rw [nodes_eq, List.filterMap_append]
  congr 1
  cases n with
  | expr e => cases e with
    | ref _ v => cases v <;> rfl
    | _ => rfl
  | stmt s => cases s with
    | declare _ v => cases v <;> rfl
    | _ => rfl
  | block => rfl

theorem mem_nodes_of_mem_mentions {n : Node} {a : Mention} (h : a ∈ n.mentions) :
    a ∈ n.nodes.filterMap mention? := by
  induction n using Node.induction with
  | step n ih =>
    rw [filterMap_mention_nodes, List.mem_append]
    rw [mentions_eq, List.mem_append] at h
    rcases h with h | h
    · right
      split at h
      · exact absurd h List.not_mem_nil
      · obtain ⟨k, hk, ha⟩ := List.mem_flatMap.mp h
        obtain ⟨j, hj, hja⟩ := List.mem_filterMap.mp (ih k hk ha)
        exact List.mem_filterMap.mpr ⟨j, List.mem_flatMap.mpr ⟨k, hk, hj⟩, hja⟩
    · exact .inl h

end Node

/-- Trees that do not mention a variable have no trail of it. -/
theorem Variable.trail_of_tally {v : Variable} {ns : List Node}
    (h : tally (Mention.concerns v) (ns.flatMap Node.nodes) = 0) : v.trail ns = [] := by
  refine List.filter_eq_nil_iff.mpr fun a ha => ?_
  obtain ⟨n, hn, ha⟩ := List.mem_flatMap.mp ha
  obtain ⟨k, hk, hka⟩ := List.mem_filterMap.mp (Node.mem_nodes_of_mem_mentions ha)
  rw [tally_eq_zero.mp h k (List.mem_flatMap.mpr ⟨n, hn, hk⟩) a hka]
  simp

theorem Expr.trail_of_tally {v : Variable} {es : List Expr}
    (h : ∀ x ∈ es, tally (Mention.concerns v) x.nodes = 0) : v.trail (es.map .expr) = [] := by
  apply Variable.trail_of_tally
  rw [Node.flatMap_nodes_expr]
  exact tally_nodesAll_eq_zero h

theorem Stmt.trail_of_tally {v : Variable} {ss : List Stmt}
    (h : tally (Mention.concerns v) (Stmt.nodesAll ss) = 0) : v.trail (ss.map .stmt) = [] := by
  apply Variable.trail_of_tally
  rw [Stmt.nodesAll_eq] at h
  simpa [List.flatMap_map, Node.nodes] using h

/-! ## Variables that are not hoisted -/

/-- The variable is declared in the body and not hoisted, and where lowering fills in something of
its own, that does not mention it. -/
structure LoweringContext.Tracks (ctx : LoweringContext) (m : MethodBody) (d : Declarations)
    (v : Variable) : Prop where
  given : m.GivenVariables
  declared : v ∈ m.declared
  plain : ctx.graph.envOf? v = none
  exact : ctx.graph.Exact m
  keeps : ctx.Keeps m d (.counting (Mention.concerns v) fun _ => 0)
  methods : ∀ c lm, ctx.declarations.methodOf? c = some lm →
    ∃ b, d.methodOf? c = some { lm with body := b }

namespace LoweringContext.Tracks

variable {ctx : LoweringContext} {m : MethodBody} {d : Declarations} {v u w : Variable}
  {same : Prop} {p : Path} {site : Site} {names later : Names} (h : ctx.Tracks m d v)

include h

theorem concerns_iff (hu : u ∈ m.declared) (hw : w.StandsFor u) : w.StandsFor v ↔ u = v := by
  refine ⟨h.given.eq_of_standsFor hu h.declared hw, ?_⟩
  rintro rfl
  exact hw

theorem trail_ref (loc : Loc) (hu : u ∈ m.declared) (hw : w.StandsFor u) :
    v.trail [.expr (.ref loc (some w))] = if u = v then [.reference w] else [] := by
  rw [Variable.trail_of_inner rfl]
  simp [Node.inner, Expr.operands, Node.mention?, List.filter_cons, Mention.concerns,
    h.concerns_iff hu hw]

theorem trail_declare (loc : Loc) (init : Option Expr) (hu : u ∈ m.declared)
    (hw : w.StandsFor u) : v.trail [.stmt (.declare loc (some w) init)] =
      v.trail (init.toList.map .expr) ++ if u = v then [.declaration w] else [] := by
  rw [Variable.trail_of_inner rfl]
  simp [Node.inner, Node.mention?, List.filter_cons, Mention.concerns, h.concerns_iff hu hw]

/-! ## Expressions -/

omit h in
theorem exprs {es es' : List Expr} {a : List (Variable × Variable)}
    (ih : ∀ x ∈ es, ∀ x', x.LowersTo ctx site a x' →
      v.Follows same (a.lookup v) [.expr x] [.expr x'] (a.lookup v))
    (hl : Expr.AllLowerTo ctx site a es es') :
    v.Follows same (a.lookup v) (es.map .expr) (es'.map .expr) (a.lookup v) := by
  induction es generalizing es' with
  | nil =>
    cases hl
    exact .silent rfl rfl
  | cons e es ihs =>
    cases hl with
    | cons hx hs =>
      exact (ih e List.mem_cons_self _ hx).append
        (ihs (fun x hx => ih x (List.mem_cons_of_mem e hx)) hs)

omit h in
theorem optExpr {e e' : Option Expr} {a : List (Variable × Variable)}
    (ih : ∀ x ∈ e, ∀ x', x.LowersTo ctx site a x' →
      v.Follows same (a.lookup v) [.expr x] [.expr x'] (a.lookup v))
    (hl : Expr.OptLowersTo ctx site a e e') :
    v.Follows same (a.lookup v) (e.toList.map .expr) (e'.toList.map .expr) (a.lookup v) := by
  cases hl with
  | none => exact .silent rfl rfl
  | some hx => exact ih _ rfl _ hx

/-- An expression keeps the trail. -/
theorem expr {e e' : Expr} (hn : (p, .expr e) ∈ m.numbered.sites) (hview : site.view.Held)
    (hm : names.Made) (hl : e.LowersTo ctx site names.aliases e') :
    v.Follows same (names.aliases.lookup v) [.expr e] [.expr e'] (names.aliases.lookup v) := by
  generalize hk : Node.expr e = n at hn
  induction n using Node.induction generalizing e e' site with
  | step n ih =>
    subst hk
    have hheld (loc : Loc) : (site.locate loc).view.Held := by rwa [Site.view_locate]
    have sub (hnone : (Node.expr e).opened? = none) (loc : Loc) (x : Expr) (hx : x ∈ e.operands)
        (x' : Expr) (hl : x.LowersTo ctx (site.locate loc) names.aliases x') :
        v.Follows same (names.aliases.lookup v) [.expr x] [.expr x'] (names.aliases.lookup v) := by
      obtain ⟨hmem, hsite⟩ := MethodBody.mem_sites_of_operand hn hnone hx
      exact ih _ hmem (hheld loc) hl rfl hsite
    -- what is filled in does not mention the variable
    have hfilled {x : Expr} (hx : tally (Mention.concerns v) x.nodes = 0) (loc : Loc) :
        v.trail ([x.withLoc loc].map .expr) = [] :=
      Expr.trail_of_tally (by simpa [tally_withLoc] using hx)
    have hdelegate {lm : LoweredMethod} {r : Option Expr} (loc : Loc)
        (hr : ∀ x ∈ r, tally (Mention.concerns v) x.nodes = 0) :
        v.trail [.expr (.delegate loc r lm.symbol)] = [] := by
      rw [Variable.trail_of_inner rfl]
      simpa [Node.mention?, Node.inner, Expr.operands] using
        Expr.trail_of_tally fun x hx => hr x (Option.mem_toList.mp hx)
    cases hl with
    | literal | newEnv | zero =>
      exact .silent (Variable.trail_of_leaf rfl rfl rfl) (Variable.trail_of_leaf rfl rfl rfl)
    | @ref _ _ loc u x hx =>
      have hu := h.exact.mem_declared ⟨p, hn⟩
      have hsource := h.trail_ref loc hu (.inl rfl)
      cases he : ctx.graph.envOf? u with
      | none =>
        simp only [LoweringContext.variableRef, he] at hx
        obtain rfl := Except.ok.inj hx
        have htarget := h.trail_ref loc hu (hm.standsFor u)
        by_cases heq : u = v
        · subst heq
          rw [if_pos rfl] at hsource htarget
          rw [Variable.Follows, hsource, Expr.withLoc]
          exact htarget ▸ .reference .nil
        · rw [if_neg heq] at hsource htarget
          exact .silent hsource htarget
      | some env =>
        have hne : u ≠ v := by
          rintro rfl
          cases he.symm.trans h.plain
        rw [if_neg hne] at hsource
        exact .silent hsource (hfilled (h.keeps.hoisted (hheld loc) he hx) loc)
    | @self _ _ loc type x hx =>
      exact .silent (Variable.trail_of_leaf rfl rfl rfl)
        (hfilled (h.keeps.receiver (hheld loc) hx) loc)
    | @assign _ _ loc target target' value value' ht hv =>
      refine .of_inner ?_ rfl rfl rfl rfl
      exact (sub rfl loc target (by simp [Expr.operands]) _ ht).append
        (sub rfl loc value (by simp [Expr.operands]) _ hv)
    | @binary _ _ loc op x x' y y' hx hy =>
      refine .of_inner ?_ rfl rfl rfl rfl
      exact (sub rfl loc x (by simp [Expr.operands]) _ hx).append
        (sub rfl loc y (by simp [Expr.operands]) _ hy)
    | @lambda _ _ loc f body c lm r hc hlm hr =>
      obtain ⟨b, hd⟩ := h.methods c lm hlm
      exact .silent (Variable.trail_of_nested rfl)
        (hdelegate loc (h.keeps.lambda (hheld loc) hn hc hd hr))
    | @functionRef _ _ loc f c lm r hc hlm hr =>
      obtain ⟨b, hd⟩ := h.methods c lm hlm
      exact .silent (Variable.trail_of_leaf rfl rfl rfl)
        (hdelegate loc (h.keeps.functionRef (hheld loc) hn hc hd hr))
    | @localCall _ _ loc f args args' c lm r es hc hlm hr ha he =>
      obtain ⟨b, hd⟩ := h.methods c lm hlm
      obtain ⟨hreceiver, hrest⟩ := h.keeps.call (hheld loc) hd hr he ha.length_eq
      have hr := Expr.trail_of_tally fun x hx => hreceiver x (Option.mem_toList.mp hx)
      have hes := Expr.trail_of_tally hrest
      have hargs := exprs (fun x hx => sub rfl loc x hx) ha
      refine .of_inner ?_ rfl rfl rfl rfl
      have := ((Variable.Follows.silent Variable.trail_nil hr).append hargs).append
        (.silent Variable.trail_nil hes)
      simpa [Node.inner, Expr.operands] using this
    | @call _ _ loc method receiver receiver' args args' hr ha =>
      have hr := optExpr (fun x hx =>
        sub rfl loc x (List.mem_append_left _ (Option.mem_toList.mpr hx))) hr
      have ha := exprs (fun x hx => sub rfl loc x (List.mem_append_right _ hx)) ha
      refine .of_inner ?_ rfl rfl rfl rfl
      simpa [Node.inner, Expr.operands] using hr.append ha
    | @invoke _ _ loc callee callee' args args' hc ha =>
      refine .of_inner ?_ rfl rfl rfl rfl
      exact (sub rfl loc callee List.mem_cons_self _ hc).append
        (exprs (fun x hx => sub rfl loc x (List.mem_cons_of_mem callee hx)) ha)
    | @field _ _ loc receiver receiver' f hr =>
      exact .of_inner (sub rfl loc receiver List.mem_cons_self _ hr) rfl rfl rfl rfl
    | @delegate _ _ loc receiver receiver' method hr =>
      refine .of_inner ?_ rfl rfl rfl rfl
      exact optExpr (fun x hx => sub rfl loc x (Option.mem_toList.mpr hx)) hr

/-! ## Statements -/

theorem optExpr_of_has {e e' : Option Expr} (hn : ∀ x ∈ e.toList, m.Has (.expr x))
    (hview : site.view.Held) (hm : names.Made)
    (hl : Expr.OptLowersTo ctx site names.aliases e e') :
    v.Follows same (names.aliases.lookup v) (e.toList.map .expr) (e'.toList.map .expr)
      (names.aliases.lookup v) := by
  refine optExpr (fun x hx x' hl => ?_) hl
  obtain ⟨p, hp⟩ := hn x (Option.mem_toList.mpr hx)
  exact h.expr hp hview hm hl

/-- What a scope begins with does not mention the variable. -/
theorem opens {s : ScopeId} {created : List Stmt} {site' : Site} (hview : site.view.Held)
    (hm : names.Made) (ho : ctx.Opens site names s created site' later) :
    v.trail (created.map .stmt) = [] ∧ later.aliases = names.aliases ∧
      site'.frame = site.frame ∧ site'.view.Held ∧ later.Made := by
  obtain ⟨-, hview', hm'⟩ := ho.opensBy h.keeps hview hm
  cases ho with
  | bare => exact ⟨rfl, rfl, rfl, hview', hm'⟩
  | env hs ht hid hcreate =>
    refine ⟨Stmt.trail_of_tally (h.keeps.create hview hm hs ht hid hcreate), rfl, ?_, hview', hm'⟩
    exact congrArg View.frame (ctx.createEnv_inv hcreate).1

/-- Before a declaration the name is that of the initial value, after it that of the copy. -/
theorem declaration {loc : Loc} {init init' : Option Expr} {s' : Option Stmt}
    (hu : u ∈ m.declared) (hview : site.view.Held)
    (hi : v.Follows (ctx.spell site.frame v.type = v.type) (names.aliases.lookup v)
      (init.toList.map .expr) (init'.toList.map .expr) (names.aliases.lookup v))
    (hl : ctx.LowersDeclaration site names loc u init' s' later) :
    v.Follows (ctx.spell site.frame v.type = v.type) (names.aliases.lookup v)
      [.stmt (.declare loc (some u) init)] (s'.toList.map .stmt) (later.aliases.lookup v) := by
  have hplain {e : EnvId} (he : ctx.graph.envOf? u = some e) : u ≠ v := by
    rintro rfl
    exact nomatch he.symm.trans h.plain
  have hsource := h.trail_declare loc init hu (.inl rfl)
  cases hl with
  | hoisted he =>
    rw [if_neg (hplain he), List.append_nil] at hsource
    rwa [Variable.Follows, hsource]
  | @hoistedInit e x target he ht =>
    have htarget : v.trail ([target].map .expr) = [] := by
      apply Expr.trail_of_tally
      rintro y hy
      obtain rfl := List.mem_singleton.mp hy
      exact h.keeps.hoisted hview he ht
    have hassign : v.trail [.stmt (.expr loc (.assign {} target x))] = v.trail [.expr x] := by
      rw [Variable.trail_of_inner rfl]
      change v.trail [.expr (.assign {} target x)] ++ [] = _
      rw [List.append_nil, Variable.trail_of_inner rfl]
      change v.trail ([target].map .expr ++ [.expr x]) ++ [] = _
      rw [List.append_nil, Variable.trail_append, htarget, List.nil_append]
    rw [if_neg (hplain he), List.append_nil] at hsource
    rw [Variable.Follows, hsource]
    exact hassign ▸ hi
  | same he hs =>
    rw [Variable.Follows, hsource]
    have htarget := h.trail_declare loc init' hu (.inl rfl)
    refine htarget ▸ Variable.Trails.append hi ?_
    split
    · subst u
      exact .same hs .nil
    · exact .nil
  | @copy _ w he hs hid =>
    rw [Variable.Follows, hsource]
    have htarget := h.trail_declare loc init' hu (.inr hid)
    refine htarget ▸ Variable.Trails.append hi ?_
    split
    · subst u
      rw [List.lookup_cons_self]
      exact .copy hs hid .nil
    · rename_i hne
      rw [List.lookup_cons, beq_false_of_ne (Ne.symm hne)]
      exact .nil

omit h

mutual

/-- A statement keeps the trail. -/
theorem stmt (h : ctx.Tracks m d v) {site : Site} {names later : Names} {frame : Frame} {s : Stmt}
    {s' : Option Stmt} (hl : s.LowersTo ctx site names s' later) (hs : m.Has (.stmt s))
    (hview : site.view.Held) (hm : names.Made) (hframe : site.frame = frame) :
    v.Follows (ctx.spell frame v.type = v.type) (names.aliases.lookup v) [.stmt s]
      (s'.toList.map .stmt) (later.aliases.lookup v) ∧ later.Made := by
  have hheld (loc : Loc) : (site.locate loc).view.Held := by rwa [Site.view_locate]
  have hlocate (loc : Loc) : (site.locate loc).frame = frame :=
    hframe ▸ congrArg View.frame (Site.view_locate site loc)
  cases hl with
  | @block _ _ b b' _ hb =>
    have hstmts : ∀ s ∈ b.stmts, m.Has (.stmt s) := fun s hs' => hs.inner (List.mem_map_of_mem hs')
    obtain ⟨hf, hm'⟩ := h.block hb hstmts (hheld _) hm (hlocate _)
    rw [Variable.Follows, Variable.trail_of_inner rfl, Variable.trail_of_inner rfl] at hf
    refine ⟨.of_inner ?_ rfl rfl rfl rfl, hm'⟩
    simpa [Node.mention?, Node.inner, Variable.Follows] using hf
  | @declare _ _ loc u init init' _ _ hi hd =>
    obtain ⟨p, hp⟩ := id hs
    have hu := MethodBody.mem_declared.mpr ⟨p, .statement hp rfl⟩
    obtain ⟨-, hm'⟩ := hd.declaresBy h.keeps (hheld loc) hm
    refine ⟨hlocate loc ▸ h.declaration hu (hheld loc) ?_ hd, hm'⟩
    exact h.optExpr_of_has (fun x hx => hs.inner (List.mem_map_of_mem hx)) (hheld loc) hm hi
  | declareNothing hi =>
    refine ⟨.of_inner ?_ rfl rfl rfl rfl, hm⟩
    exact h.optExpr_of_has (fun x hx => hs.inner (List.mem_map_of_mem hx)) (hheld _) hm hi
  | expr hx =>
    obtain ⟨p, hp⟩ : m.Has (.expr _) := hs.inner List.mem_cons_self
    exact ⟨.of_inner (h.expr hp (hheld _) hm hx) rfl rfl rfl rfl, hm⟩
  | ret hx =>
    refine ⟨.of_inner ?_ rfl rfl rfl rfl, hm⟩
    exact h.optExpr_of_has (fun x hx => hs.inner (List.mem_map_of_mem hx)) (hheld _) hm hx
  | @cond _ _ loc test test' b b' k k' _ _ ht hb hk =>
    obtain ⟨p, hp⟩ : m.Has (.expr test) := hs.inner List.mem_cons_self
    have hin {x : Block} (hx : .block x ∈ (Node.stmt (.cond loc test b k)).inner) (s : Stmt)
        (hs' : s ∈ x.stmts) : m.Has (.stmt s) := (hs.inner hx).inner (List.mem_map_of_mem hs')
    obtain ⟨hthen, hm₁⟩ := h.block hb (hin (by simp [Node.inner])) (hheld _) hm (hlocate _)
    have hboth := (h.expr hp (hheld _) hm ht).append hthen
    cases hk with
    | none => exact ⟨.of_inner hboth rfl rfl rfl rfl, hm₁⟩
    | some hk =>
      obtain ⟨helse, hm₂⟩ := h.block hk (hin (by simp [Node.inner])) (hheld _) hm₁ (hlocate _)
      exact ⟨.of_inner (hboth.append helse) rfl rfl rfl rfl, hm₂⟩
  | @loop _ _ loc test test' b b' _ ht hb =>
    obtain ⟨p, hp⟩ : m.Has (.expr test) := hs.inner List.mem_cons_self
    have hbody : m.Has (.block b) := hs.inner (by simp [Node.inner])
    obtain ⟨hf, hm'⟩ := h.block hb (fun s hs' => hbody.inner (List.mem_map_of_mem hs')) (hheld _) hm
      (hlocate _)
    exact ⟨.of_inner ((h.expr hp (hheld _) hm ht).append hf) rfl rfl rfl rfl, hm'⟩
  | localFunction =>
    exact ⟨.silent (Variable.trail_of_nested rfl) rfl, hm⟩
termination_by structural s

theorem stmts (h : ctx.Tracks m d v) {site : Site} {names later : Names} {frame : Frame}
    {ss ss' : List Stmt} (hl : Stmt.AllLowerTo ctx site names ss ss' later)
    (hs : ∀ s ∈ ss, m.Has (.stmt s))
    (hview : site.view.Held) (hm : names.Made) (hframe : site.frame = frame) :
    v.Follows (ctx.spell frame v.type = v.type) (names.aliases.lookup v) (ss.map .stmt)
      (ss'.map .stmt) (later.aliases.lookup v) ∧ later.Made := by
  cases hl with
  | nil => exact ⟨.silent rfl rfl, hm⟩
  | cons hl hls =>
    obtain ⟨hf, hm₁⟩ := h.stmt hl (hs _ List.mem_cons_self) hview hm hframe
    obtain ⟨hfs, hm₂⟩ := h.stmts hls (fun s hs' => hs s (List.mem_cons_of_mem _ hs')) hview hm₁
      hframe
    rw [List.map_append]
    exact ⟨hf.append hfs, hm₂⟩
termination_by structural ss

/-- A block keeps the trail. -/
theorem block (h : ctx.Tracks m d v) {site : Site} {names later : Names} {frame : Frame}
    {b b' : Block} (hl : b.LowersTo ctx site names b' later)
    (hb : ∀ s ∈ b.stmts, m.Has (.stmt s)) (hview : site.view.Held) (hm : names.Made)
    (hframe : site.frame = frame) :
    v.Follows (ctx.spell frame v.type = v.type) (names.aliases.lookup v) [.block b] [.block b']
      (later.aliases.lookup v) ∧ later.Made := by
  cases hl with
  | @mk _ _ id loc ss created site' names₁ ss' _ ho hss =>
    obtain ⟨hcreated, haliases, hframe', hview', hm₁⟩ := h.opens hview hm ho
    obtain ⟨hf, hm₂⟩ := h.stmts hss hb hview' hm₁ (hframe'.trans hframe)
    refine ⟨.of_inner ?_ rfl rfl rfl rfl, hm₂⟩
    have := (Variable.Follows.silent Variable.trail_nil hcreated).append (haliases ▸ hf)
    simpa [Node.inner, Block.stmts] using this
termination_by structural b

end

end LoweringContext.Tracks

end Unnest
