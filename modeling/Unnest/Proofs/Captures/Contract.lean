import Unnest.Proofs.Captures.Acceptance
import Unnest.Proofs.Captures.Rounds

/-!
# Exactly the well-formed bodies are accepted

The two walks over a body look at every position of it. The first one enters every scope and every
symbol that is declared, the second one resolves every reference. So a body whose scopes are built
and whose captures are found is well-formed, as a well-formed body is accepted; and any other is
refused as malformed.

`Graph.Takes` is the converse of what `Graph.Admits` and `Graph.Grows` are for: a part of the walk
that does not fail passes only symbols that were new, and the graph has them afterwards.

## Main statements

* `Node.takes` : a node that is entered without a failure declares nothing twice.
* `Node.malformed_enter`, `Node.malformed_collect` : whatever fails is a fault of the body.
* `MethodBody.accepted_iff_wellFormed` : exactly the well-formed bodies are accepted.
-/

namespace Unnest

/-! ## Symbols that were new -/

namespace Graph

/-- The graph `g` admits the variables and functions, and `g'` has them besides its own. -/
structure Takes (vs : List (Option Variable)) (fs : List (Option NestedFunction)) (g g' : Graph) :
    Prop where
  admits : g.Admits vs fs
  vars : ∀ v, some v ∈ vs ∨ (∃ t, v ∈ (g.scope t).vars) → ∃ t, v ∈ (g'.scope t).vars
  functions : ∀ f, some f ∈ fs ∨ f ∈ g.functions → f ∈ g'.functions

variable {g g' g'' : Graph} {V W : List (Option Variable)} {F H : List (Option NestedFunction)}
  {s : ScopeId} {v : Variable} {f : NestedFunction}

theorem Admits.nil (g : Graph) : g.Admits [] [] :=
  ⟨⟨List.not_mem_nil, List.nodup_nil⟩, fun _ h => absurd h List.not_mem_nil,
    ⟨List.not_mem_nil, List.nodup_nil⟩, fun _ h => absurd h List.not_mem_nil⟩

/-- What comes first leaves its symbols in the graph, so what comes later has others. -/
theorem Takes.append (h : Takes V F g g') (h' : Takes W H g' g'') :
    Takes (V ++ W) (F ++ H) g g'' where
  admits := by
    obtain ⟨⟨hnone, hnodup⟩, hnew, ⟨hnoneF, hnodupF⟩, hnewF⟩ := h.admits
    obtain ⟨⟨hnone', hnodup'⟩, hnew', ⟨hnoneF', hnodupF'⟩, hnewF'⟩ := h'.admits
    have hvars (v : Variable) (hv : some v ∈ W) : ¬ (some v ∈ V ∨ ∃ t, v ∈ (g.scope t).vars) := by
      intro hold
      obtain ⟨t, ht⟩ := h.vars v hold
      exact hnew' v hv t ht
    have hfuns (f : NestedFunction) (hf : some f ∈ H) : ¬ (some f ∈ F ∨ f ∈ g.functions) :=
      fun hold => hnewF' f hf (h.functions f hold)
    refine ⟨⟨?_, List.nodup_append.mpr ⟨hnodup, hnodup', ?_⟩⟩, fun v hv s hs => ?_,
      ⟨?_, List.nodup_append.mpr ⟨hnodupF, hnodupF', ?_⟩⟩, fun f hf hold => ?_⟩
    · exact fun hmem => (List.mem_append.mp hmem).elim hnone hnone'
    · rintro (_ | v) ha b hb rfl
      · exact hnone ha
      · exact hvars v hb (.inl ha)
    · rcases List.mem_append.mp hv with hv | hv
      · exact hnew v hv s hs
      · exact hvars v hv (.inr ⟨s, hs⟩)
    · exact fun hmem => (List.mem_append.mp hmem).elim hnoneF hnoneF'
    · rintro (_ | f) ha b hb rfl
      · exact hnoneF ha
      · exact hfuns f hb (.inl ha)
    · rcases List.mem_append.mp hf with hf | hf
      · exact hnewF f hf hold
      · exact hfuns f hf (.inr hold)
  vars v hv := by
    apply h'.vars
    rw [List.mem_append] at hv
    rcases hv with (hv | hv) | hv
    · exact .inr (h.vars v (.inl hv))
    · exact .inl hv
    · exact .inr (h.vars v (.inr hv))
  functions f hf := by
    apply h'.functions
    rw [List.mem_append] at hf
    rcases hf with (hf | hf) | hf
    · exact .inr (h.functions f (.inl hf))
    · exact .inl hf
    · exact .inr (h.functions f (.inr hf))

theorem Takes.perm (h : Takes V F g g') (hvs : V.Perm W) : Takes W F g g' where
  admits := h.admits.perm hvs
  vars v hv := h.vars v (hv.imp_left hvs.mem_iff.mpr)
  functions := h.functions

theorem Takes.refl (g : Graph) : Takes [] [] g g :=
  ⟨.nil g, fun _ hv => hv.resolve_left List.not_mem_nil,
    fun _ hf => hf.resolve_left List.not_mem_nil⟩

/-- A variable that is declared nowhere is taken by the scope that declares it. -/
theorem Declared.takes (h : Declared s [v] g g') (hv : ∀ t, v ∉ (g.scope t).vars) :
    Takes [some v] [] g g' where
  admits := by
    refine ⟨by simp, fun w hw t => ?_, ⟨List.not_mem_nil, List.nodup_nil⟩, by simp⟩
    obtain rfl : w = v := by simpa using hw
    exact hv t
  vars w hw := by
    obtain ⟨vars, heq, hvars⟩ := h.scope_eq
    have hs : w = v ∨ w ∈ (g.scope s).vars → w ∈ (g'.scope s).vars := by
      rw [heq, OrderedSet.mem_def, OrderedSet.mem_def, hvars]
      grind
    rcases hw with hw | ⟨t, ht⟩
    · exact ⟨s, hs (.inl (by simpa using hw))⟩
    · by_cases hts : t = s
      · exact ⟨s, hs (.inr (hts ▸ ht))⟩
      · exact ⟨t, by rwa [h.scope_ne t hts]⟩
  functions f hf := by
    rw [Graph.functions, h.closures]
    exact hf.resolve_left List.not_mem_nil

theorem Takes.pushScope (hs : s < g.scopes.size) (kind : ScopeKind) (b : Option Block) :
    Takes [] [] g (g.pushScope kind (some s) b) where
  admits := .nil g
  vars v hv := by
    obtain ⟨t, ht⟩ := hv.resolve_left List.not_mem_nil
    have hlt := lt_of_mem_vars ht
    refine ⟨t, ?_⟩
    rw [scope_pushScope _ _ _ hs, if_neg (Nat.ne_of_lt hlt)]
    split
    · rename_i hts
      exact hts ▸ ht
    · exact ht
  functions f hf := by
    rw [functions_pushScope]
    exact hf.resolve_left List.not_mem_nil

theorem Takes.openBody (hs : s < g.scopes.size) (hf : g.closureOf? f = none) (kind : ScopeKind)
    (b : Block) : Takes [] [some f] g (g.openBody f s kind b) where
  admits := by
    refine ⟨⟨List.not_mem_nil, List.nodup_nil⟩, by simp, by simp, fun f' hf' hmem => ?_⟩
    obtain rfl : f' = f := by simpa using hf'
    obtain ⟨c, hc, hfc⟩ := List.mem_iff_getElem.mp hmem
    rw [functions_getElem] at hfc
    exact closureOf_eq_none.mp hf c (by rwa [length_functions] at hc) hfc
  vars v hv := by
    obtain ⟨t, ht⟩ := hv.resolve_left List.not_mem_nil
    have hlt := lt_of_mem_vars ht
    refine ⟨t, ?_⟩
    rw [scope_openBody hs, if_neg (Nat.ne_of_lt hlt)]
    split
    · rename_i hts
      exact hts ▸ ht
    · exact ht
  functions f' hf' := by
    rw [functions_openBody, List.mem_append]
    exact hf'.symm.imp_right fun h => by simpa using h

end Graph

/-! ## Entering without a failure -/

namespace Draft

open Unnest.Graph

variable {d : Draft} {loc : Loc} {s : ScopeId}

theorem takes_of_declare {v : Option Variable} (hs : s < d.graph.scopes.size)
    (h : (d.declare loc s v).isOk) :
    Takes [v] [] d.graph (d.declare loc s v).graph ∧
      (d.declare loc s v).graph.scopes.size = d.graph.scopes.size := by
  obtain ⟨w, rfl, hdecl⟩ := declared_of_isOk hs h
  refine ⟨hdecl.takes ?_, hdecl.size⟩
  cases hw : d.graph.declaringScope? w with
  | none => exact declaringScope_eq_none.mp hw
  | some t => simp [declare, declare?, hw] at h

theorem isOk_of_params {ps : List (Option Variable)}
    (h : (ps.foldl (fun d p => d.declare loc s p) d).isOk) : d.isOk := by
  induction ps generalizing d with
  | nil => exact h
  | cons p ps ih => exact isOk_of_declare (ih h)

theorem takes_of_params {ps : List (Option Variable)} (hs : s < d.graph.scopes.size)
    (h : (ps.foldl (fun d p => d.declare loc s p) d).isOk) :
    Takes ps [] d.graph (ps.foldl (fun d p => d.declare loc s p) d).graph := by
  induction ps generalizing d with
  | nil => exact .refl _
  | cons p ps ih =>
    obtain ⟨htakes, hsize⟩ := takes_of_declare hs (isOk_of_params h)
    exact htakes.append (ih (hsize ▸ hs) h)

end Draft

namespace Node

open Unnest.Graph

theorem takes_each {s : ScopeId} {ns : List Node}
    (ih : ∀ n ∈ ns, ∀ d : Draft, s < d.graph.scopes.size → (n.enter s d).isOk →
      Takes (n.gather targets) (n.gather heading) d.graph (n.enter s d).graph ∧
        d.graph.scopes.size ≤ (n.enter s d).graph.scopes.size)
    {d : Draft} (hs : s < d.graph.scopes.size) (hok : (enterEach s ns d).isOk) :
    Takes (ns.flatMap (gather targets)) (ns.flatMap (gather heading)) d.graph
        (enterEach s ns d).graph ∧ d.graph.scopes.size ≤ (enterEach s ns d).graph.scopes.size := by
  induction ns generalizing d with
  | nil => exact ⟨.refl _, Nat.le_refl _⟩
  | cons n ns ihs =>
    have hok' : (n.enter s d).isOk := isOk_of_enterEach (fun _ _ _ h => isOk_of_enter h) hok
    obtain ⟨htakes, hsize⟩ := ih n List.mem_cons_self d hs hok'
    obtain ⟨htakes', hsize'⟩ := ihs (fun k hk => ih k (List.mem_cons_of_mem n hk))
      (Nat.lt_of_lt_of_le hs hsize) hok
    exact ⟨htakes.append htakes', Nat.le_trans hsize hsize'⟩

/-- A node that is entered without a failure declares each symbol once, and none that was declared
before. -/
theorem takes {n : Node} {s : ScopeId} {d : Draft} (hs : s < d.graph.scopes.size)
    (hok : (n.enter s d).isOk) :
    Takes (n.gather targets) (n.gather heading) d.graph (n.enter s d).graph ∧
      d.graph.scopes.size ≤ (n.enter s d).graph.scopes.size := by
  induction n using Node.induction generalizing s d with
  | step n ih =>
    have hinner {s : ScopeId} {d : Draft} (hs : s < d.graph.scopes.size)
        (hok : (enterEach s n.inner d).isOk) :=
      takes_each (fun k hk d hs hok => ih k hk hs hok) hs hok
    rw [gather_eq, gather_eq]
    obtain hplain | ⟨loc, target, init, rfl⟩ | ⟨b, hb, hn⟩ | ⟨fn, b, hn⟩ := n.isPlain_or
    · have hheading : n.heading = [] := by
        refine heading_of_isNone (Option.eq_none_iff_forall_ne_some.mpr fun f hf => ?_)
        exact nomatch hplain.1.symm.trans (opened_of_nested hf)
      rw [targets_of_isPlain hplain, hheading]
      rw [enter_of_isPlain hplain] at hok ⊢
      exact hinner hs hok
    · cases target with
      | none => simp [enter, Stmt.enter] at hok
      | some v =>
        -- the initial value is entered before the variable
        rw [enter_declare] at hok ⊢
        obtain ⟨htakes, hsize⟩ := hinner hs (Draft.isOk_of_declare hok)
        obtain ⟨htakes', hsize'⟩ := Draft.takes_of_declare (Nat.lt_of_lt_of_le hs hsize) hok
        have hboth := (htakes.append htakes').perm List.perm_append_comm
        rw [List.append_nil] at hboth
        exact ⟨hboth, hsize'.symm ▸ hsize⟩
    · rw [targets_of_opened hb hn, heading_of_isNone hn]
      rw [enter_block hb hn] at hok ⊢
      have heach := enterAll_of_isOk hok
      rw [← inner_of_opened hb] at heach
      rw [heach] at hok ⊢
      have hpush := Takes.pushScope hs .block (some b)
      have hlt :
          d.graph.scopes.size < (d.graph.pushScope .block (some s) (some b)).scopes.size := by
        rw [size_scopes_pushScope]
        exact Nat.lt_succ_self _
      obtain ⟨htakes, hsize⟩ :=
        hinner (d := d.modify (·.pushScope .block (some s) (some b))) hlt hok
      exact ⟨hpush.append htakes, Nat.le_trans (Nat.le_of_lt hlt) hsize⟩
    · obtain ⟨kind, loc, he⟩ := enter_nested hn s d
      have hheading : n.heading = [fn] := by rw [heading, hn]; rfl
      rw [targets_of_nested hn, hheading]
      rw [he] at hok ⊢
      split at hok
      · rename_i d' inner heq
        have hd' : d'.isOk := isOk_of_enterAll hok
        have hd : d.isOk := Draft.isOk_of_openFunction (by rw [heq]; exact hd')
        obtain ⟨f, rfl, -⟩ := Draft.params_of_openFunction heq hd'
        have hf : d.graph.closureOf? f = none := by
          cases hf : d.graph.closureOf? f with
          | none => rfl
          | some c => simp [Draft.openFunction, hd, hf] at heq
        rw [Draft.openFunction_eq hd hf] at heq
        obtain ⟨rfl, hin⟩ := Prod.mk.inj heq
        obtain rfl := Option.some.inj hin
        have heach := enterAll_of_isOk hok
        rw [← inner_of_opened (opened_of_nested hn)] at heach
        rw [heach] at hok ⊢
        have hopen := Takes.openBody hs hf kind b
        have hlt : d.graph.scopes.size < (d.graph.openBody f s kind b).scopes.size := by
          rw [size_scopes_openBody]
          exact Nat.lt_succ_self _
        have hparams :=
          Draft.takes_of_params (d := d.modify (·.openBody f s kind b)) hlt hd'
        have hsize :=
          (Draft.declared_params (d := d.modify (·.openBody f s kind b)) hlt hd').2.2.size
        obtain ⟨htakes, hle⟩ := hinner (by rw [hsize]; exact hlt) hok
        refine ⟨hopen.append (hparams.append htakes), ?_⟩
        exact Nat.le_trans (Nat.le_trans (Nat.le_of_lt hlt) (Nat.le_of_eq hsize.symm)) hle
      · rename_i d' heq
        exact absurd hok (Draft.not_isOk_of_openFunction heq)

end Node

/-! ## Failures are faults of the body -/

/-- What has failed so far, if anything, is that the body is malformed. -/
def Draft.Malformed (d : Draft) : Prop := ∀ f ∈ d.failure, f.kind = .malformedInput

namespace Draft

variable {d : Draft} {loc : Loc} {s : ScopeId}

theorem Malformed.fail (d : Draft) {cause : Cause} (hkind : cause.kind = .malformedInput)
    (loc : Loc) : (d.fail cause loc).Malformed := by
  intro f hf
  rw [← Option.some.inj hf]
  exact hkind

theorem Malformed.failFirst (h : d.Malformed) {cause : Cause}
    (hkind : cause.kind = .malformedInput) (loc : Loc) : (d.failFirst cause loc).Malformed := by
  unfold Draft.failFirst
  split
  · exact .fail d hkind loc
  · exact h

theorem malformed_declare {v : Option Variable} (h : d.Malformed) :
    (d.declare loc s v).Malformed := by
  unfold declare
  split
  · exact .fail d rfl loc
  · split
    · exact h
    · exact .fail d rfl loc

theorem malformed_params {ps : List (Option Variable)} (h : d.Malformed) :
    (ps.foldl (fun d p => d.declare loc s p) d).Malformed := by
  induction ps generalizing d with
  | nil => exact h
  | cons p ps ih => exact ih (malformed_declare h)

theorem malformed_openFunction {kind : ScopeKind} {fn : Option NestedFunction} {b : Block}
    (h : d.Malformed) : (d.openFunction s kind loc fn b).1.Malformed := by
  unfold openFunction
  split
  · split
    · exact .fail d rfl loc
    · split
      · exact .fail d rfl loc
      · exact malformed_params (d := d.modify _) h
  · exact h

theorem malformed_refer {p : Place} {v : Option Variable} (h : d.Malformed) :
    (d.refer p loc v).Malformed := by
  unfold refer
  split
  · exact h.failFirst rfl loc
  · split
    · exact h.failFirst rfl loc
    · split
      · split
        · split <;> exact h
        · exact h
      · exact h.failFirst rfl loc

theorem malformed_depend {p : Place} {c : ClosureId} (h : d.Malformed) :
    (d.depend p c).Malformed := by
  unfold depend
  split <;> exact h

theorem malformed_note {p : Place} {n : Node} (h : d.Malformed) : (d.note p n).Malformed := by
  unfold note
  split
  · exact malformed_refer h
  · split
    · exact malformed_refer h
    · exact h.failFirst rfl _
  · split
    · exact malformed_depend (d := d.modify _) h
    · exact h.failFirst rfl _
  · split
    · exact malformed_depend h
    · exact h.failFirst rfl _
  · exact h

end Draft

namespace Node

variable {n : Node} {d : Draft}

/-- Entering a node fails only if the body is malformed. -/
theorem malformed_enter {s : ScopeId} (h : d.Malformed) : (n.enter s d).Malformed :=
  keeps_enter (P := Draft.Malformed) (fun _ _ _ _ => Draft.malformed_declare)
    (fun d loc _ => .fail d rfl loc) (fun _ _ _ h => h)
    (fun _ _ _ _ _ _ => Draft.malformed_openFunction) h

/-- Collecting in a node fails only if the body is malformed. -/
theorem malformed_collect {enter : ClosureId → Draft → Draft} {p : Place}
    (henter : ∀ c d, d.Malformed → (enter c d).Malformed) (h : d.Malformed) :
    (n.collect enter p d).Malformed := by
  induction n using Node.induction generalizing p d with
  | step n ih =>
    have heach {ns : List Node} (hns : ∀ k ∈ ns, k ∈ n.inner) {p : Place} {d : Draft}
        (h : d.Malformed) : (collectEach enter p ns d).Malformed := by
      induction ns generalizing d with
      | nil => exact h
      | cons k ns ihs =>
        exact ihs (fun j hj => hns j (List.mem_cons_of_mem k hj))
          (ih k (hns k List.mem_cons_self) h)
    have hall {ss : List Stmt} (hss : ∀ st ∈ ss, .stmt st ∈ n.inner) {p : Place} {d : Draft}
        (h : d.Malformed) : (Stmt.collectAll enter p ss d).Malformed := by
      induction ss generalizing d with
      | nil => exact h
      | cons st ss ihs =>
        rw [Stmt.collectAll]
        split
        · exact ihs (fun j hj => hss j (List.mem_cons_of_mem st hj))
            (ih (.stmt st) (hss st List.mem_cons_self) h)
        · exact h
    cases hb : n.opened? with
    | none =>
      by_cases hcall : ∃ loc fn args, n = .expr (.localCall loc fn args) ∧
          d.callee? (some fn) = none
      · obtain ⟨loc, fn, args, rfl, hnone⟩ := hcall
        rw [collect_localCall, hnone]
        exact h.failFirst rfl loc
      · rw [collect_of_callee hb fun loc fn args hn hnone => hcall ⟨loc, fn, args, hn, hnone⟩]
        exact heach (fun _ hk => hk) (Draft.malformed_note h)
    | some b =>
      cases hn : n.nested? with
      | none =>
        rw [collect_block hb hn]
        split
        · refine hall (fun st hst => ?_) h
          rw [inner_of_opened hb]
          exact List.mem_map_of_mem hst
        · exact h.failFirst rfl _
      | some fb =>
        obtain ⟨loc, heq⟩ := collect_nested enter p hn d
        rw [heq, Draft.enterClosure]
        split
        · exact henter _ _ (Draft.malformed_depend h)
        · exact h.failFirst rfl loc

end Node

/-! ## Whole bodies -/

/-- Finding captures fails only where collecting them does: propagation never fails. -/
theorem Draft.failure_findCaptures (d : Draft) : d.findCaptures.failure = d.collect.failure := by
  have hend := d.collect.graph.propagate_zero_snd
  rw [Draft.findCaptures]
  cases hok : d.collect.isOk with
  | false => rfl
  | true =>
    cases hp : d.collect.graph.propagate 0 with
    | mk g f =>
      rw [hp] at hend
      cases hend
      rfl

namespace Stmt

theorem malformed_enterAll {s : ScopeId} {ss : List Stmt} {d : Draft} (h : d.Malformed) :
    (enterAll s ss d).Malformed := by
  induction ss generalizing d with
  | nil => exact h
  | cons st ss ih =>
    rw [enterAll]
    split
    · exact ih (Node.malformed_enter (n := .stmt st) h)
    · exact h

theorem malformed_collectAll {enter : ClosureId → Draft → Draft} {p : Place} {ss : List Stmt}
    {d : Draft} (henter : ∀ c d, d.Malformed → (enter c d).Malformed) (h : d.Malformed) :
    (collectAll enter p ss d).Malformed := by
  induction ss generalizing d with
  | nil => exact h
  | cons st ss ih =>
    rw [collectAll]
    split
    · exact ih (Node.malformed_collect (n := .stmt st) henter h)
    · exact h

end Stmt

namespace Draft

theorem malformed_collectClosure (depth : Nat) (c : ClosureId) (d : Draft) (h : d.Malformed) :
    (collectClosure depth c d).Malformed := by
  induction depth generalizing c d with
  | zero => exact h
  | succ depth ih =>
    rw [collectClosure]
    split
    · exact Stmt.malformed_collectAll ih h
    · exact h

theorem malformed_findCaptures {d : Draft} (h : d.Malformed) : d.findCaptures.Malformed := by
  intro f hf
  rw [failure_findCaptures, collect] at hf
  split at hf
  · exact Stmt.malformed_collectAll (malformed_collectClosure _) h f hf
  · exact h f hf

end Draft

namespace MethodBody

open Unnest.Graph

variable {m : MethodBody}

/-- A body whose scopes are built declares each symbol once. -/
theorem takes_of_isOk_built (h : m.built.isOk) :
    m.method ≠ none ∧ m.block ≠ none ∧
      Admits ((Graph.ofBody m).pushScope .methodBody none m.numbered.block) m.targets
        m.headings := by
  obtain ⟨method, b, hm, hb, heq, -⟩ := Draft.isOk_build h
  have hm : m.method = some method := hm
  have hb : m.numbered.block = some b := hb
  have htop : m.topNodes = b.stmts.map .stmt := by rw [topNodes, hb]
  let d : Draft := { graph := (Graph.ofBody m).pushScope .methodBody none (some b) }
  have hroot : root < d.graph.scopes.size := Nat.one_pos
  have hbuilt : m.built = Stmt.enterAll root b.stmts (d.declareHead b.loc method.params) := heq
  rw [hbuilt] at h
  have hhead := Node.isOk_of_enterAll h
  rw [Node.enterAll_of_isOk h, ← htop] at h
  have hsize := (Draft.declared_head hroot hhead).2.size
  have hnodes := (Node.takes_each (fun n _ d hs hok => Node.takes hs hok)
    (by rw [hsize]; exact hroot) h).1
  rw [Draft.declareHead_eq] at hhead hnodes
  have hall := (Draft.takes_of_params hroot hhead).append hnodes
  refine ⟨by simp [hm], fun hnone => ?_, ?_⟩
  · simp [numbered, hnone] at hb
  · have htargets : m.targets = m.receiver.toList.map some ++ method.params ++
        m.topNodes.flatMap (Node.gather Node.targets) := by simp [targets, hm]
    rw [hb, htargets]
    exact hall.admits

/-- A body that is accepted is well-formed. -/
theorem Accepted.wellFormed (h : m.Accepted) : m.WellFormed := by
  obtain ⟨hmethod, hblock, hadmits⟩ := takes_of_isOk_built h.built
  have hx := h.analysed
  have hholds := hx.holds
  refine ⟨hmethod, hblock, hadmits.vars, hadmits.functions, fun p n t hn ht => ?_,
    fun p n t hn ht => ?_⟩
  · rw [← hholds.receiver_eq] at ht
    obtain ⟨v, a, rfl, hv, henc⟩ := (hx.resolved _ hn).reference t ht
    obtain ⟨q, hq, rfl⟩ := hholds.declares_of_mem_vars (mem_of_declaringScope hv)
    have hlead := leads_of_mem_sites hn
    rw [hholds.ranked.encloses_iff_mem, ← hholds.blocks_eq hlead] at henc
    exact ⟨v, q, rfl, hq, henc⟩
  · obtain ⟨f, c, rfl, hc⟩ := (hx.resolved _ hn).use t ht
    obtain ⟨hlt, rfl⟩ := hholds.closureOf_eq_some.mp hc
    obtain ⟨q, k, b, hk, hnested, -⟩ := hholds.site_of_closure hlt
    exact ⟨_, q, k, rfl, hk, by rw [Node.function?, hnested]; rfl⟩

/-- A well-formed body is accepted: propagation, which comes after the two walks, never fails. -/
theorem WellFormed.isAccepted (h : m.WellFormed) : m.Accepted := by
  refine ⟨h.isOk_built, ?_⟩
  have hok := h.isOk_collect
  rwa [Draft.isOk, ← Draft.failure_findCaptures] at hok

theorem malformed_built (m : MethodBody) : m.built.Malformed := by
  have hnone : Draft.Malformed { graph := .ofBody m } := fun f hf => nomatch hf
  rw [built, Draft.build, if_pos (show (Graph.ofBody m).scopes.isEmpty = true from rfl)]
  split
  · refine Stmt.malformed_enterAll (Draft.malformed_params ?_)
    split
    · exact Draft.malformed_declare (d := Draft.modify _ _) hnone
    · exact hnone
  · exact .fail _ rfl _

theorem malformed_captured (m : MethodBody) : m.captured.Malformed :=
  Draft.malformed_findCaptures fun _ hf => nomatch hf

/-- Why a body is refused: the failure of the first of the two walks that fails. -/
def refusal? (m : MethodBody) : Option Failure := m.built.failure <|> m.captured.failure

/-- Exactly the well-formed bodies are accepted, and any other is refused as malformed. A body is
well-formed if it has a method and a block; if the receiver, the parameters of the method and of all
nested functions and the variables of all declarations are there and no two of them are the same; if
so are the symbols of all nested functions; if every reference is to one of these variables,
declared in a block around the reference, and the receiver is referred to only if there is one; and
if every function that is called or used as a value is declared somewhere in the body. -/
theorem accepted_iff_wellFormed (m : MethodBody) :
    (m.Accepted ↔ m.WellFormed) ∧
      (¬ m.Accepted → ∃ f, m.refusal? = some f ∧ f.kind = .malformedInput) := by
  refine ⟨⟨Accepted.wellFormed, WellFormed.isAccepted⟩, fun hnot => ?_⟩
  cases hbuilt : m.built.failure with
  | some f => exact ⟨f, by rw [refusal?, hbuilt]; rfl, m.malformed_built f hbuilt⟩
  | none =>
    have hok : m.built.isOk := by rw [Draft.isOk, hbuilt]; rfl
    cases hcaptured : m.captured.failure with
    | some f =>
      exact ⟨f, by rw [refusal?, hbuilt, hcaptured]; rfl, m.malformed_captured f hcaptured⟩
    | none => exact absurd ⟨hok, by rw [Draft.isOk, hcaptured]; rfl⟩ hnot

end MethodBody

namespace Counter

/-- A method that reads `step` outside the block that declares it. -/
def stray : MethodBody where
  method := count.method
  receiver := some widget
  block := some (.mk 0 {}
    [.block (.mk 0 {} [.declare {} (some step) none]), .expr {} (.ref {} (some step))])

theorem not_accepted_stray : ¬ stray.Accepted := by
  intro h
  have hfails : stray.captured.isOk = false := by decide +kernel
  exact nomatch hfails.symm.trans h.captured

end Counter

open Counter in
/-- `Count` is well-formed, and a method that reads a variable outside its block is malformed. -/
theorem MethodBody.refusal_stray : count.WellFormed ∧ ¬ stray.Accepted ∧ ¬ stray.WellFormed ∧
    ∃ f, stray.refusal? = some f ∧ f.kind = .malformedInput := by
  exact ⟨(accepted_iff_wellFormed count).1.mp accepted_count, not_accepted_stray,
    fun h => not_accepted_stray ((accepted_iff_wellFormed stray).1.mpr h),
    (accepted_iff_wellFormed stray).2 not_accepted_stray⟩

end Unnest
