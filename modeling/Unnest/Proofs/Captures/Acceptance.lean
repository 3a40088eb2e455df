import Unnest.Proofs.Captures.Exact

/-!
# Bodies that are accepted

What a body has to be like so that its scopes are built and its references are resolved: every
symbol is there and is declared once, and whatever is referred to is declared around the reference.

The walk that builds the scopes refuses a variable or a function that the graph already has.
`Graph.Admits` says that a graph has none of the symbols to come, and `Graph.Grows` that a part of
the walk adds no other symbols than those it passes; so what is admitted stays admitted.

## Main definitions

* `MethodBody.WellFormed` : a body whose symbols are declared once and around their uses.

## Main statements

* `Node.admitted` : entering a node whose symbols are admitted is no failure.
* `MethodBody.WellFormed.isOk_built`, `MethodBody.WellFormed.isOk_collect` : the scopes of a
  well-formed body are built, and its references are resolved.
* `MethodBody.WellFormed.accepted` : a well-formed body without nested functions is accepted.
-/

namespace Unnest

/-! ## Symbols -/

namespace Node

section Gather

variable {α : Type} (f : Node → List α)

/-- What `f` finds at the nodes below a node, in reading order. -/
def gather (n : Node) : List α := (n.sites ⟨[], []⟩).flatMap fun s => f s.2

theorem gather_sites (p : Path) (n : Node) :
    (n.sites p).flatMap (fun s => f s.2) = n.gather f := by
  have h := congrArg (List.flatMap f) (map_snd_sites p ⟨[], []⟩ n)
  rwa [List.flatMap_map, List.flatMap_map] at h

theorem gather_eq (n : Node) : n.gather f = f n ++ n.inner.flatMap (gather f) := by
  rw [gather, sites_eq, List.flatMap_cons, List.flatMap_assoc]
  congr 1
  exact List.flatMap_congr fun k _ => gather_sites f _ k

end Gather

/-- The variables that a node declares by itself: the parameters of a nested function, or the
variable of a declaration. One that is missing is `none`. -/
def targets : Node → List (Option Variable)
  | .expr (.lambda _ fn _) | .stmt (.localFunction _ fn _) => fn.elim [] (·.params)
  | .stmt (.declare _ target _) => [target]
  | _ => []

/-- The symbol of a nested function, which may be missing. -/
def heading (n : Node) : List (Option NestedFunction) := (n.nested?.map (·.1)).toList

theorem targets_of_nested {n : Node} {fn : Option NestedFunction} {b : Block}
    (h : n.nested? = some (fn, b)) : n.targets = fn.elim [] (·.params) := by
  cases n with
  | expr e => cases e <;> simp_all [nested?, targets]
  | stmt s => cases s <;> simp_all [nested?, targets]
  | block b => simp [nested?] at h

theorem targets_of_opened {n : Node} {b : Block} (hb : n.opened? = some b)
    (hn : n.nested? = none) : n.targets = [] := by
  cases n with
  | expr e => cases e <;> simp_all [nested?, targets]
  | stmt s => cases s <;> simp_all [nested?, targets, opened?]
  | block b => rfl

theorem targets_of_isPlain {n : Node} (h : n.IsPlain) : n.targets = [] := by
  cases n with
  | expr e => cases e <;> first | rfl | exact nomatch h.1
  | stmt s =>
    cases s with
    | declare loc target init => exact absurd rfl (h.2 loc target init)
    | localFunction => exact nomatch h.1
    | _ => rfl
  | block b => rfl

theorem heading_of_isNone {n : Node} (hn : n.nested? = none) : n.heading = [] := by
  rw [heading, hn]
  rfl

theorem functions_of_heading {n : Node} (h : n.gather heading = []) : n.functions = [] := by
  rw [functions, List.filterMap_eq_nil_iff]
  intro s hs
  have hnone := List.flatMap_eq_nil_iff.mp h s hs
  rw [function?]
  cases hn : s.2.nested? with
  | none => rfl
  | some f => simp [heading, hn] at hnone

end Node

/-! ## What a graph admits -/

namespace Graph

/-- The variables and functions are all there, none comes twice and the graph has none of them. -/
structure Admits (g : Graph) (vs : List (Option Variable)) (fs : List (Option NestedFunction)) :
    Prop where
  vars : none ∉ vs ∧ vs.Nodup
  newVars : ∀ v, some v ∈ vs → ∀ s, v ∉ (g.scope s).vars
  functions : none ∉ fs ∧ fs.Nodup
  newFunctions : ∀ f, some f ∈ fs → f ∉ g.functions

/-- The graph `g'` has no other variables and functions than `g` and those listed. -/
structure Grows (vs : List (Option Variable)) (fs : List (Option NestedFunction)) (g g' : Graph) :
    Prop where
  size : g.scopes.size ≤ g'.scopes.size
  vars : ∀ s v, v ∈ (g'.scope s).vars → some v ∈ vs ∨ ∃ t, v ∈ (g.scope t).vars
  functions : ∀ f ∈ g'.functions, some f ∈ fs ∨ f ∈ g.functions

variable {g g' g'' : Graph} {V W : List (Option Variable)}
  {F H : List (Option NestedFunction)} {s : ScopeId}

theorem Grows.refl (g : Graph) : Grows [] [] g g :=
  ⟨Nat.le_refl _, fun s _ hv => .inr ⟨s, hv⟩, fun _ hf => .inr hf⟩

theorem Grows.trans (h : Grows V F g g') (h' : Grows W H g' g'') :
    Grows (V ++ W) (F ++ H) g g'' where
  size := Nat.le_trans h.size h'.size
  vars s v hv := by
    rcases h'.vars s v hv with hv | ⟨t, hv⟩
    · exact .inl (List.mem_append_right _ hv)
    · exact (h.vars t v hv).imp_left (List.mem_append_left _)
  functions f hf := by
    rcases h'.functions f hf with hf | hf
    · exact .inl (List.mem_append_right _ hf)
    · exact (h.functions f hf).imp_left (List.mem_append_left _)

theorem Grows.of_subset (h : Grows V F g g') (hvs : V ⊆ W) (hfs : F ⊆ H) :
    Grows W H g g' where
  size := h.size
  vars s v hv := (h.vars s v hv).imp_left fun hv => hvs hv
  functions f hf := (h.functions f hf).imp_left fun hf => hfs hf

theorem Admits.perm (h : g.Admits V F) (hvs : V.Perm W) : g.Admits W F where
  vars := ⟨fun hnone => h.vars.1 (hvs.mem_iff.mpr hnone), hvs.nodup_iff.mp h.vars.2⟩
  newVars v hv := h.newVars v (hvs.mem_iff.mpr hv)
  functions := h.functions
  newFunctions := h.newFunctions

theorem Admits.left (h : g.Admits (V ++ W) (F ++ H)) : g.Admits V F where
  vars := ⟨fun hn => h.vars.1 (List.mem_append_left _ hn), h.vars.2.of_append_left⟩
  newVars v hv := h.newVars v (List.mem_append_left _ hv)
  functions := ⟨fun hn => h.functions.1 (List.mem_append_left _ hn), h.functions.2.of_append_left⟩
  newFunctions f hf := h.newFunctions f (List.mem_append_left _ hf)

/-- What comes later is still admitted after what comes first. -/
theorem Admits.after (h : g.Admits (V ++ W) (F ++ H)) (hg : Grows V F g g') :
    g'.Admits W H where
  vars := ⟨fun hn => h.vars.1 (List.mem_append_right _ hn), h.vars.2.of_append_right⟩
  newVars v hv s hs := by
    rcases hg.vars s v hs with hv' | ⟨t, ht⟩
    · exact (List.nodup_append.mp h.vars.2).2.2 _ hv' _ hv rfl
    · exact h.newVars v (List.mem_append_right _ hv) t ht
  functions :=
    ⟨fun hn => h.functions.1 (List.mem_append_right _ hn), h.functions.2.of_append_right⟩
  newFunctions f hf hmem := by
    rcases hg.functions f hmem with hf' | hf'
    · exact (List.nodup_append.mp h.functions.2).2.2 _ hf' _ hf rfl
    · exact h.newFunctions f (List.mem_append_right _ hf) hf'

theorem closureOf_of_not_mem {f : NestedFunction} (h : f ∉ g.functions) :
    g.closureOf? f = none := by
  refine closureOf_eq_none.mpr fun c hc heq => h ?_
  rw [← length_functions] at hc
  rw [← heq, ← functions_getElem g hc]
  exact List.getElem_mem hc

theorem Declared.grows {ws : List Variable} (h : Declared s ws g g') :
    Grows (ws.map some) [] g g' where
  size := Nat.le_of_eq h.size.symm
  vars t v hv := by
    by_cases ht : t = s
    · subst ht
      obtain ⟨vars, heq, hvars⟩ := h.scope_eq
      rw [heq, OrderedSet.mem_def, hvars, List.mem_append] at hv
      rcases hv with hv | hv
      · exact .inr ⟨t, hv⟩
      · exact .inl (List.mem_map_of_mem hv)
    · rw [h.scope_ne t ht] at hv
      exact .inr ⟨t, hv⟩
  functions f hf := by
    rw [Graph.functions, h.closures] at hf
    exact .inr hf

theorem Grows.pushScope (hs : s < g.scopes.size) (kind : ScopeKind) (b : Option Block) :
    Grows [] [] g (g.pushScope kind (some s) b) where
  size := by
    rw [size_scopes_pushScope]
    exact Nat.le_succ _
  vars t v hv := by
    rw [scope_pushScope _ _ _ hs] at hv
    split at hv
    · exact absurd hv (OrderedSet.not_mem_empty v)
    · split at hv
      · exact .inr ⟨s, hv⟩
      · exact .inr ⟨t, hv⟩
  functions f hf := by
    rw [functions_pushScope] at hf
    exact .inr hf

theorem Grows.openBody (hs : s < g.scopes.size) (f : NestedFunction) (kind : ScopeKind)
    (b : Block) : Grows [] [some f] g (g.openBody f s kind b) where
  size := by
    rw [size_scopes_openBody]
    exact Nat.le_succ _
  vars t v hv := by
    rw [scope_openBody hs] at hv
    split at hv
    · exact absurd hv (OrderedSet.not_mem_empty v)
    · split at hv
      · exact .inr ⟨s, hv⟩
      · exact .inr ⟨t, hv⟩
  functions f' hf := by
    rw [functions_openBody, List.mem_append] at hf
    rcases hf with hf | hf
    · exact .inr hf
    · exact .inl (by simpa using hf)

end Graph

/-! ## Entering what is admitted -/

namespace Draft

open Unnest.Graph

variable {d : Draft} {loc : Loc} {s : ScopeId}

theorem isOk_declare {v : Variable} (hd : d.isOk) (hv : ∀ t, v ∉ (d.graph.scope t).vars) :
    (d.declare loc s (some v)).isOk := by
  rw [declare, declare?, declaringScope_eq_none.mpr hv]
  exact hd

theorem openFunction_eq {f : NestedFunction} (hd : d.isOk) (hf : d.graph.closureOf? f = none)
    (kind : ScopeKind) (b : Block) : d.openFunction s kind loc (some f) b =
      (f.params.foldl (fun d' p => d'.declare loc d.graph.scopes.size p)
        (d.modify (·.openBody f s kind b)), some d.graph.scopes.size) := by
  rw [openFunction, if_pos hd, hf]
  rfl

theorem params_of_openFunction {d' : Draft} {inner : ScopeId} {kind : ScopeKind}
    {fn : Option NestedFunction} {b : Block}
    (h : d.openFunction s kind loc fn b = (d', some inner)) (hok : d'.isOk) :
    ∃ f, fn = some f ∧ none ∉ f.params := by
  have hd : d.isOk := isOk_of_openFunction (by rw [h]; exact hok)
  cases fn with
  | none => simp [openFunction, hd] at h
  | some f =>
    refine ⟨f, rfl, ?_⟩
    cases hf : d.graph.closureOf? f with
    | some c => simp [openFunction, hd, hf] at h
    | none =>
      rw [openFunction_eq hd hf] at h
      obtain ⟨rfl, -⟩ := Prod.mk.inj h
      have hlt : d.graph.scopes.size < (d.graph.openBody f s kind b).scopes.size := by
        rw [size_scopes_openBody]
        exact Nat.lt_succ_self _
      rw [(declared_params (d := d.modify (·.openBody f s kind b)) hlt hok).2.1]
      simp

theorem isOk_params {ps : List (Option Variable)} (hs : s < d.graph.scopes.size) (hd : d.isOk)
    (ha : d.graph.Admits ps []) : (ps.foldl (fun d p => d.declare loc s p) d).isOk := by
  induction ps generalizing d with
  | nil => exact hd
  | cons p ps ih =>
    cases p with
    | none => exact absurd List.mem_cons_self ha.vars.1
    | some v =>
      have hok : (d.declare loc s (some v)).isOk :=
        isOk_declare hd (ha.newVars v List.mem_cons_self)
      obtain ⟨w, hw, hdecl⟩ := declared_of_isOk hs hok
      obtain rfl := Option.some.inj hw
      refine ih (by rw [hdecl.size]; exact hs) hok ?_
      exact Admits.after (V := [some v]) (F := []) ha hdecl.grows

end Draft

namespace Node

open Unnest.Graph

/-- Statements that could be entered one after the other are entered. -/
theorem isOk_enterAll {s : ScopeId} {ss : List Stmt} {d : Draft}
    (h : (enterEach s (ss.map .stmt) d).isOk) :
    Stmt.enterAll s ss d = enterEach s (ss.map .stmt) d := by
  induction ss generalizing d with
  | nil => rfl
  | cons st ss ih =>
    have hd : d.isOk := isOk_of_enterEach (fun _ _ _ hn => isOk_of_enter hn) h
    rw [Stmt.enterAll, if_pos hd]
    exact ih h

/-- Entering nodes one after the other. -/
theorem admitted_each {s : ScopeId} {ns : List Node}
    (ih : ∀ n ∈ ns, ∀ d : Draft, s < d.graph.scopes.size → d.isOk →
      d.graph.Admits (n.gather targets) (n.gather heading) → (n.enter s d).isOk ∧
        Grows (n.gather targets) (n.gather heading) d.graph (n.enter s d).graph)
    {d : Draft} (hs : s < d.graph.scopes.size) (hd : d.isOk)
    (ha : d.graph.Admits (ns.flatMap (gather targets)) (ns.flatMap (gather heading))) :
    (enterEach s ns d).isOk ∧
      Grows (ns.flatMap (gather targets)) (ns.flatMap (gather heading)) d.graph
        (enterEach s ns d).graph := by
  induction ns generalizing d with
  | nil => exact ⟨hd, .refl _⟩
  | cons n ns ihs =>
    rw [List.flatMap_cons, List.flatMap_cons] at ha ⊢
    obtain ⟨hok, hgrows⟩ := ih n List.mem_cons_self d hs hd ha.left
    obtain ⟨hok', hgrows'⟩ := ihs (fun k hk => ih k (List.mem_cons_of_mem n hk))
      (Nat.lt_of_lt_of_le hs hgrows.size) hok (ha.after hgrows)
    exact ⟨hok', hgrows.trans hgrows'⟩

/-- Entering a node whose symbols are admitted is no failure, and adds no other symbols. -/
theorem admitted {n : Node} {s : ScopeId} {d : Draft} (hs : s < d.graph.scopes.size) (hd : d.isOk)
    (ha : d.graph.Admits (n.gather targets) (n.gather heading)) : (n.enter s d).isOk ∧
      Grows (n.gather targets) (n.gather heading) d.graph (n.enter s d).graph := by
  induction n using Node.induction generalizing s d with
  | step n ih =>
    have hinner {s : ScopeId} {d : Draft} (hs : s < d.graph.scopes.size) (hd : d.isOk)
        (ha : d.graph.Admits (n.inner.flatMap (gather targets))
          (n.inner.flatMap (gather heading))) :=
      admitted_each (fun k hk d hs hd ha => ih k hk hs hd ha) hs hd ha
    rw [gather_eq, gather_eq] at ha ⊢
    obtain hplain | ⟨loc, target, init, rfl⟩ | ⟨b, hb, hn⟩ | ⟨fn, b, hn⟩ := n.isPlain_or
    · have hheading : n.heading = [] := by
        refine heading_of_isNone (Option.eq_none_iff_forall_ne_some.mpr fun f hf => ?_)
        exact nomatch hplain.1.symm.trans (opened_of_nested hf)
      rw [targets_of_isPlain hplain, hheading] at ha ⊢
      rw [enter_of_isPlain hplain]
      exact hinner hs hd ha
    · cases target with
      | none => exact absurd (List.mem_append_left _ List.mem_cons_self) ha.vars.1
      | some v =>
        -- the initial value is entered before the variable
        have ha' := ha.perm List.perm_append_comm
        rw [show heading _ = [] from rfl, List.nil_append,
          ← List.append_nil (List.flatMap (gather heading) _)] at ha'
        obtain ⟨hok, hgrows⟩ := hinner hs hd ha'.left
        have hv := (ha'.after hgrows).newVars v List.mem_cons_self
        rw [enter_declare]
        have hok' : (Draft.declare _ loc s (some v)).isOk := Draft.isOk_declare hok hv
        obtain ⟨w, hw, hdecl⟩ := Draft.declared_of_isOk (Nat.lt_of_lt_of_le hs hgrows.size) hok'
        obtain rfl := Option.some.inj hw
        refine ⟨hok', (hgrows.trans hdecl.grows).of_subset ?_ ?_⟩
        · exact List.perm_append_comm.subset
        · rw [List.append_nil]
          exact List.subset_append_right _ _
    · rw [targets_of_opened hb hn, heading_of_isNone hn] at ha ⊢
      have hpush := Grows.pushScope hs .block (some b)
      have hlt :
          d.graph.scopes.size < (d.graph.pushScope .block (some s) (some b)).scopes.size := by
        rw [size_scopes_pushScope]
        exact Nat.lt_succ_self _
      obtain ⟨hok, hgrows⟩ := hinner (d := d.modify (·.pushScope .block (some s) (some b))) hlt hd
        (ha.after (V := []) (F := []) hpush)
      rw [enter_block hb hn]
      rw [inner_of_opened hb] at hok hgrows ⊢
      rw [isOk_enterAll hok]
      exact ⟨hok, hpush.trans hgrows⟩
    · obtain ⟨kind, loc, he⟩ := enter_nested hn s d
      have hheading : n.heading = [fn] := by rw [heading, hn]; rfl
      rw [targets_of_nested hn, hheading] at ha ⊢
      cases fn with
      | none => exact absurd (List.mem_append_left _ List.mem_cons_self) ha.functions.1
      | some f =>
        have hf := closureOf_of_not_mem
          (ha.newFunctions f (List.mem_append_left _ List.mem_cons_self))
        obtain ⟨d', hd'⟩ : ∃ d', d' = d.modify (·.openBody f s kind b) := ⟨_, rfl⟩
        have hopen : Grows [] [some f] d.graph d'.graph := hd' ▸ Grows.openBody hs f kind b
        have hlt : d.graph.scopes.size < d'.graph.scopes.size := by
          rw [hd', Draft.graph_modify, size_scopes_openBody]
          exact Nat.lt_succ_self _
        have ha' : d'.graph.Admits _ ([] ++ _) := ha.after (V := []) (F := [some f]) hopen
        have hok : (f.params.foldl (fun d' p => d'.declare loc d.graph.scopes.size p) d').isOk :=
          Draft.isOk_params hlt (by rw [hd']; exact hd) ha'.left
        obtain ⟨-, hparams, hdecl⟩ := Draft.declared_params hlt hok
        have hgrows := hdecl.grows
        rw [← hparams] at hgrows
        obtain ⟨hok', hgrows'⟩ := hinner (by rw [hdecl.size]; exact hlt) hok (ha'.after hgrows)
        rw [inner_of_opened (opened_of_nested hn)] at hok' hgrows' ⊢
        rw [he, Draft.openFunction_eq hd hf, ← hd']
        simp only
        rw [isOk_enterAll hok']
        exact ⟨hok', hopen.trans (hgrows.trans hgrows')⟩

theorem exists_isOk_of_each {s : ScopeId} {ns : List Node} {d : Draft}
    (h : (enterEach s ns d).isOk) {n : Node} (hn : n ∈ ns) : ∃ d', (n.enter s d').isOk := by
  induction ns generalizing d with
  | nil => exact absurd hn List.not_mem_nil
  | cons k ns ih =>
    rcases List.mem_cons.mp hn with rfl | hn
    · exact ⟨d, isOk_of_enterEach (fun _ _ _ hk => isOk_of_enter hk) h⟩
    · exact ih h hn

/-- A node that is entered without a failure names all variables that it declares. -/
theorem targets_of_isOk {n : Node} {s : ScopeId} {d : Draft} (h : (n.enter s d).isOk) :
    none ∉ n.gather targets := by
  induction n using Node.induction generalizing s d with
  | step n ih =>
    have hinner {s : ScopeId} {d : Draft} (hok : (enterEach s n.inner d).isOk) :
        none ∉ n.inner.flatMap (gather targets) := by
      intro hmem
      obtain ⟨k, hk, hmem⟩ := List.mem_flatMap.mp hmem
      obtain ⟨d', hok'⟩ := exists_isOk_of_each hok hk
      exact ih k hk hok' hmem
    rw [gather_eq, List.mem_append, not_or]
    obtain hplain | ⟨loc, target, init, rfl⟩ | ⟨b, hb, hn⟩ | ⟨fn, b, hn⟩ := n.isPlain_or
    · rw [enter_of_isPlain hplain] at h
      rw [targets_of_isPlain hplain]
      exact ⟨List.not_mem_nil, hinner h⟩
    · cases target with
      | none => simp [enter, Stmt.enter] at h
      | some v =>
        rw [enter_declare] at h
        exact ⟨by simp [targets], hinner (Draft.isOk_of_declare h)⟩
    · rw [enter_block hb hn] at h
      rw [enterAll_of_isOk h, ← inner_of_opened hb] at h
      rw [targets_of_opened hb hn]
      exact ⟨List.not_mem_nil, hinner h⟩
    · obtain ⟨kind, loc, he⟩ := enter_nested hn s d
      rw [he] at h
      split at h
      · rename_i d' inner heq
        obtain ⟨f, rfl, hparams⟩ := Draft.params_of_openFunction heq (isOk_of_enterAll h)
        rw [enterAll_of_isOk h, ← inner_of_opened (opened_of_nested hn)] at h
        rw [targets_of_nested hn]
        exact ⟨hparams, hinner h⟩
      · rename_i d' heq
        exact absurd h (Draft.not_isOk_of_openFunction heq)

end Node

/-! ## Resolving references -/

namespace Draft

open Unnest.Graph

variable {d : Draft} {p : Path} {n : Node}

theorem isOk_refer {loc : Loc} {v : Variable} {a : ScopeId} (hd : d.isOk)
    (hv : d.graph.declaringScope? v = some a) (ha : d.graph.encloses a p.scope = true) :
    (d.refer (d.graph.place p) loc (some v)).isOk := by
  simp only [refer, hv, show (d.graph.place p).scope = p.scope from rfl, ha, if_true]
  split
  · split
    · exact hd
    · exact hd
  · exact hd

/-- What is resolved is noted without a failure. -/
theorem isOk_note (hd : d.isOk) (hr : d.graph.Resolved (p, n)) :
    (d.note (d.graph.place p) n).isOk := by
  unfold note
  split
  · obtain ⟨v, a, rfl, hv, ha⟩ := hr.reference _ rfl
    exact isOk_refer hd hv ha
  · obtain ⟨v, a, hrec, hv, ha⟩ := hr.reference _ rfl
    rw [hrec]
    exact isOk_refer hd hv ha
  · obtain ⟨f, c, rfl, hc⟩ := hr.use _ rfl
    rw [callee?, Option.bind_some, hc]
    simpa using hd
  · obtain ⟨f, c, hf, hc⟩ := hr.use _ rfl
    obtain rfl := Option.some.inj hf
    rw [callee?, Option.bind_some, hc]
    simpa using hd
  · exact hd

end Draft

namespace Node

open Unnest.Graph

variable {m : MethodBody} {n : Node} {p : Path} {q : Place} {d : Draft} {depth : Nat}

theorem isOk_collectAll {ss : List Stmt}
    (h : (collectEach (Draft.collectClosure depth) q (ss.map .stmt) d).isOk) :
    Stmt.collectAll (Draft.collectClosure depth) q ss d =
      collectEach (Draft.collectClosure depth) q (ss.map .stmt) d := by
  induction ss generalizing d with
  | nil => rfl
  | cons st ss ih =>
    rw [Stmt.collectAll, if_pos (isOk_of_collectEach_collectClosure h)]
    exact ih h

theorem resolved_each {ns : List Node}
    (ih : ∀ n ∈ ns, ∀ d : Draft, d.graph.Holds m → d.graph.place p = q → d.isOk →
      (∀ s ∈ n.sites p, d.graph.Resolved s) →
      (n.collect (Draft.collectClosure depth) q d).isOk ∧
        (n.collect (Draft.collectClosure depth) q d).graph.shape = d.graph.shape)
    (h : d.graph.Holds m) (hq : d.graph.place p = q) (hd : d.isOk)
    (hr : ∀ n ∈ ns, ∀ s ∈ n.sites p, d.graph.Resolved s) :
    (collectEach (Draft.collectClosure depth) q ns d).isOk := by
  induction ns generalizing d with
  | nil => exact hd
  | cons n ns ihs =>
    obtain ⟨hok, hshape⟩ := ih n List.mem_cons_self d h hq hd (hr n List.mem_cons_self)
    refine ihs (fun k hk => ih k (List.mem_cons_of_mem n hk)) (h.of_shape hshape)
      ((place_of_shape hshape p).trans hq) hok fun k hk s hs => ?_
    exact (hr k (List.mem_cons_of_mem n hk) s hs).of_shape hshape

/-- Collecting a node whose references are resolved is no failure. -/
theorem resolved (h : d.graph.Holds m) (hq : d.graph.place p = q)
    (hsites : ∀ s ∈ n.sites p, s ∈ m.numbered.sites) (hdepth : n.functions.length ≤ depth)
    (hd : d.isOk) (hr : ∀ s ∈ n.sites p, d.graph.Resolved s) :
    (n.collect (Draft.collectClosure depth) q d).isOk := by
  induction n using Node.induction generalizing p q d depth with
  | step n ih =>
    have hlays := h.lays p n (hsites _ (self_mem_sites p n))
    rw [functions_eq, List.length_append] at hdepth
    have hinner {l : Nat} {q : Place} {d : Draft} (h : d.graph.Holds m)
        (hq : d.graph.place (p.into n) = q) (hdepth : (n.inner.flatMap functions).length ≤ l)
        (hd : d.isOk) (hr : ∀ k ∈ n.inner, ∀ s ∈ k.sites (p.into n), d.graph.Resolved s) :
        (collectEach (Draft.collectClosure l) q n.inner d).isOk := by
      refine resolved_each (fun k hk d hd hq hok hr => ?_) h hq hd hr
      have hsites' := fun s hs => hsites s (mem_sites_of_inner hk hs)
      have hdepth' := Nat.le_trans (length_functions_le hk) hdepth
      have hok' := ih k hk hd hq hsites' hdepth' hok hr
      exact ⟨hok', (collected hd hq hsites' hdepth' hok').shape⟩
    have hbelow {g : Graph} (hshape : g.shape = d.graph.shape) (k : Node) (hk : k ∈ n.inner)
        (s : Path × Node) (hs : s ∈ k.sites (p.into n)) : g.Resolved s :=
      (hr s (mem_sites_of_inner hk hs)).of_shape hshape
    subst hq
    cases hb : n.opened? with
    | none =>
      have hself := hr _ (self_mem_sites p n)
      have hok := Draft.isOk_note hd hself
      have hshape := (Draft.collected_note h hb hok).shape
      rw [collect_of_callee hb]
      · refine hinner (h.of_shape hshape) ?_ (by omega) hok (hbelow hshape)
        rw [place_of_shape hshape, into_of_isNone hb]
      · rintro loc fn args rfl
        obtain ⟨f, c, hf, hc⟩ := hself.use _ rfl
        obtain rfl := Option.some.inj hf
        rw [Draft.callee?, Option.bind_some, hc]
        exact Option.some_ne_none c
    | some b =>
      have hlt := (hlays.scope b hb).lt
      have hstmts := inner_of_opened hb
      cases hn : n.nested? with
      | none =>
        have hf : n.function? = none := by simp [function?, hn]
        have hok := hinner (l := depth) (q := { d.graph.place p with scope := b.id }) h
          (by simp [place, Path.scope_into hb, Path.functions_into, hf]) (by omega) hd (hbelow rfl)
        rw [hstmts] at hok
        rw [collect_block hb hn, h.scopeOf_eq hlt]
        simp only
        rwa [isOk_collectAll hok]
      | some fb =>
        obtain ⟨f, c, hf, hc⟩ := hlays.function fb.1 fb.2 hn
        obtain rfl : fb.2 = b := Option.some.inj ((opened_of_nested hn).symm.trans hb)
        have hfun : n.function? = some f := by simp [function?, hn, hf]
        have hcl := h.closureOf_eq_some.mpr ⟨hc.lt, hc.function⟩
        have hone : n.function?.toList.length = 1 := by simp [hfun]
        obtain ⟨k, rfl⟩ : ∃ k, depth = k + 1 := ⟨depth - 1, by omega⟩
        obtain ⟨loc, heq⟩ := collect_nested (Draft.collectClosure (k + 1)) (d.graph.place p) hn d
        have hcallee : d.callee? fb.1 = some c := by simp [Draft.callee?, hf, hcl]
        have hshape := Draft.shape_depend d (d.graph.place p) c
        have hok := hinner (l := k) (q := ⟨fb.2.id, some c⟩) (d := d.depend (d.graph.place p) c)
          (h.of_shape hshape)
          (by
            rw [place_of_shape hshape]
            simp [place, Path.scope_into hb, Path.functions_into, hfun, hcl])
          (by omega) (by simpa using hd) (hbelow hshape)
        rw [hstmts] at hok
        have hbody := (bodyScope_of_shape hshape c).trans hc.body
        have hblock := (block_of_shape hshape _).trans (hlays.scope _ hb).block
        rw [heq, Draft.enterClosure, hcallee]
        simp only [Draft.collectClosure, hbody, hblock]
        rwa [isOk_collectAll hok]

end Node

/-! ## Whole bodies -/

/-- Without closures there is nothing to propagate. -/
theorem Graph.propagate_of_isEmpty {g : Graph} (h : g.closures.size = 0) (bound : Nat) :
    g.propagate bound = (g, none) := by
  have hnext : g.capturing = ∅ := by
    rw [capturing, h]
    rfl
  have hrun : g.propagation bound = { graph := g, next := ∅ } := by
    rw [propagation, hnext]
    exact if_pos rfl
  rw [propagate, hrun]
  rfl

namespace MethodBody

/-- The variables that a body declares, one that is missing as `none`. -/
def targets (m : MethodBody) : List (Option Variable) :=
  m.receiver.toList.map some ++ m.method.toList.flatMap (·.params) ++
    m.topNodes.flatMap (Node.gather Node.targets)

/-- The nested functions of a body, one that is missing as `none`. -/
def headings (m : MethodBody) : List (Option NestedFunction) :=
  m.topNodes.flatMap (Node.gather Node.heading)

/-- All symbols of a body are there and declared once, and what is referred to is declared around
the reference. -/
structure WellFormed (m : MethodBody) : Prop where
  method : m.method ≠ none
  block : m.block ≠ none
  vars : none ∉ m.targets ∧ m.targets.Nodup
  functions : none ∉ m.headings ∧ m.headings.Nodup
  reference : ∀ p n t, (p, n) ∈ m.numbered.sites → n.reference? m.receiver = some t →
    ∃ v q, t = some v ∧ m.Declares q v ∧ q.scope ∈ p.blocks
  use : ∀ p n t, (p, n) ∈ m.numbered.sites → n.use? = some t →
    ∃ f q k, t = some f ∧ (q, k) ∈ m.numbered.sites ∧ k.function? = some f

variable {m : MethodBody}

namespace WellFormed

variable (h : m.WellFormed)

include h

/-- The scopes of a well-formed body are built. -/
theorem isOk_built : m.built.isOk := by
  obtain ⟨method, hm⟩ := Option.ne_none_iff_exists'.mp h.method
  obtain ⟨b₀, hb₀⟩ := Option.ne_none_iff_exists'.mp h.block
  obtain ⟨b, hb⟩ : ∃ b, m.numbered.block = some b := ⟨b₀.number 0, by rw [numbered, hb₀]; rfl⟩
  have htop : m.topNodes = b.stmts.map .stmt := by rw [topNodes, hb]
  let d : Draft := { graph := (Graph.ofBody m).pushScope .methodBody none (some b) }
  have hbuild : m.built = Stmt.enterAll Graph.root b.stmts (d.declareHead b.loc method.params) := by
    have hm' : (Graph.ofBody m).body.method = some method := hm
    have hb' : (Graph.ofBody m).body.block = some b := hb
    rw [built, Draft.build, if_pos (show (Graph.ofBody m).scopes.isEmpty = true from rfl)]
    simp only [hm', hb']
    rfl
  have ha : d.graph.Admits m.targets ([] ++ m.headings) := by
    refine ⟨h.vars, fun v _ s hv => ?_, h.functions, fun f _ hf => absurd hf List.not_mem_nil⟩
    rw [Draft.vars_pushRoot rfl] at hv
    exact OrderedSet.not_mem_empty v hv
  have hhead : d.declareHead b.loc method.params =
      (m.receiver.toList.map some ++ m.method.toList.flatMap (·.params)).foldl
        (fun d' p => d'.declare b.loc Graph.root p) d := by
    rw [Draft.declareHead_eq, show d.graph.receiver = m.receiver from rfl, hm]
    simp
  have hok : (d.declareHead b.loc method.params).isOk := by
    rw [hhead]
    exact Draft.isOk_params Nat.one_pos rfl ha.left
  obtain ⟨hparams, hdecl⟩ :=
    Draft.declared_head (show Graph.root < d.graph.scopes.size from Nat.one_pos) hok
  have hgrows : Graph.Grows (m.receiver.toList.map some ++ m.method.toList.flatMap (·.params)) []
      d.graph (d.declareHead b.loc method.params).graph := by
    have hgrows := hdecl.grows
    rw [List.map_append, ← hparams, show d.graph.receiver = m.receiver from rfl] at hgrows
    simpa [hm] using hgrows
  have heach := (Node.admitted_each (s := Graph.root) (fun _ _ _ hs hd ha => Node.admitted hs hd ha)
    (by rw [hdecl.size]; exact Nat.one_pos) hok (ha.after hgrows)).1
  rw [htop] at heach
  rwa [hbuild, Node.isOk_enterAll heach]

/-- The references of a well-formed body are resolved. -/
theorem isOk_collect : (Draft.collect { graph := m.built.graph }).isOk := by
  have hholds : m.built.graph.Holds m := Draft.holds_of_build h.isOk_built
  obtain ⟨method, block, -, hb, -⟩ := hholds.complete
  have hbody : m.built.graph.body.block = some block := by rw [hholds.body, hb]
  have htop : m.topNodes = block.stmts.map .stmt := by rw [topNodes, hb]
  have hresolved (s : Path × Node) (hs : s ∈ m.numbered.sites) : m.built.graph.Resolved s := by
    refine ⟨fun t ht => ?_, fun t ht => ?_⟩
    · rw [hholds.receiver_eq] at ht
      obtain ⟨v, q, rfl, hq, hmem⟩ := h.reference s.1 s.2 t hs ht
      refine ⟨v, q.scope, rfl, ?_, ?_⟩
      · exact hholds.declaringScope_eq_some.mpr (hholds.mem_vars_of_declares hq)
      · have hlead := leads_of_mem_sites hs
        rwa [hholds.ranked.encloses_iff_mem, ← hholds.blocks_eq hlead]
    · obtain ⟨f, q, k, rfl, hk, hf⟩ := h.use s.1 s.2 t hs ht
      obtain ⟨⟨fn, b⟩, hn, rfl⟩ := Option.bind_eq_some_iff.mp hf
      obtain ⟨f', c, hf', hlays⟩ := (hholds.lays q k hk).function _ b hn
      obtain rfl := Option.some.inj hf'
      exact ⟨f, c, rfl, hholds.closureOf_eq_some.mpr ⟨hlays.lt, hlays.function⟩⟩
  have hsub (n : Node) (hn : n ∈ m.topNodes) (s : Path × Node) (hs : s ∈ n.sites .outermost) :
      s ∈ m.numbered.sites := by
    rw [m.sites_numbered]
    exact List.mem_flatMap.mpr ⟨n, hn, hs⟩
  have hdepth (n : Node) (hn : n ∈ m.topNodes) :
      n.functions.length ≤ m.built.graph.closures.size := by
    rw [← Graph.length_functions, hholds.functions]
    exact Node.length_functions_le hn
  have heach : (Node.collectEach (Draft.collectClosure m.built.graph.closures.size)
      ⟨Graph.root, none⟩ m.topNodes { graph := m.built.graph }).isOk := by
    refine Node.resolved_each (p := .outermost) (fun n hn d hd hq hok hr => ?_) hholds rfl rfl
      fun n hn s hs => hresolved s (hsub n hn s hs)
    have hok' := Node.resolved hd hq (hsub n hn) (hdepth n hn) hok hr
    exact ⟨hok', (Node.collected hd hq (hsub n hn) (hdepth n hn) hok').shape⟩
  rw [htop] at heach
  rw [Draft.collect, hbody]
  simp only
  rwa [Node.isOk_collectAll heach]

/-- A well-formed body without nested functions is accepted, and has no closures. -/
theorem accepted (hnone : m.headings = []) : m.Accepted ∧ m.captured.graph.closures = #[] := by
  have hholds : m.built.graph.Holds m := Draft.holds_of_build h.isOk_built
  obtain ⟨d, hd⟩ : ∃ d, d = Draft.collect { graph := m.built.graph } := ⟨_, rfl⟩
  have hok : d.isOk := hd ▸ h.isOk_collect
  have hsize : d.graph.closures.size = 0 := by
    have hshape := (Draft.collected_of_isOk (d := { graph := m.built.graph }) hholds
      h.isOk_collect).shape
    rw [hd, Graph.size_closures_of_shape hshape, ← Graph.length_functions, hholds.functions,
      List.length_eq_zero_iff, List.flatMap_eq_nil_iff]
    exact fun n hn => Node.functions_of_heading (List.flatMap_eq_nil_iff.mp hnone n hn)
  have hcaptured : m.captured = { d with graph := d.graph.markReceiverCaptures } := by
    rw [captured, Draft.findCaptures, ← hd]
    simp only [hok, if_true, Graph.propagate_of_isEmpty hsize]
  refine ⟨⟨h.isOk_built, by rw [hcaptured]; exact hok⟩, ?_⟩
  rw [hcaptured, Graph.markReceiverCaptures, Array.eq_empty_of_size_eq_zero hsize]
  exact Array.map_empty

end WellFormed

/-- A body whose scopes are built names all variables that it declares. -/
theorem targets_of_isOk_built (h : m.built.isOk) {p : Path} {n : Node}
    (hn : (p, n) ∈ m.numbered.sites) : none ∉ n.targets := by
  obtain ⟨method, b, -, hb, heq, -⟩ := Draft.isOk_build h
  have htop : m.topNodes = b.stmts.map .stmt := by
    rw [topNodes, show m.numbered.block = some b from hb]
  rw [built, heq] at h
  have hok := h
  rw [Draft.enterMethod, Node.enterAll_of_isOk h, ← htop] at hok
  rw [m.sites_numbered] at hn
  obtain ⟨k, hk, hn⟩ := List.mem_flatMap.mp hn
  obtain ⟨d, hd⟩ := Node.exists_isOk_of_each hok hk
  intro hmem
  refine Node.targets_of_isOk hd ?_
  rw [← Node.gather_sites _ .outermost]
  exact List.mem_flatMap.mpr ⟨_, hn, hmem⟩

end MethodBody

end Unnest
