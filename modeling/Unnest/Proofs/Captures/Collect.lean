import Unnest.Captures.Collect
import Unnest.Proofs.Captures.References

/-!
# What the walk over a body collects

`Draft.collect` notes at every node what the node itself refers to. `Graph.Collected` says what this
does to a graph, for any list of sites; it composes, and a walk without a failure collects the sites
it passes.

## Main statements

* `Node.collected` : collecting a node collects the sites below it.
* `Draft.collected_of_isOk` : a body whose captures are collected without a failure has all its
  sites collected.
-/

namespace Unnest

/-! ## The walk -/

/-- Collects in a node of any kind. -/
def Node.collect (enter : ClosureId → Draft → Draft) (p : Place) : Node → Draft → Draft
  | .expr e, d => e.collect enter p d
  | .stmt st, d => st.collect enter p d
  | .block b, d => b.collect enter p d

/-- Collects in nodes one after the other. -/
def Node.collectEach (enter : ClosureId → Draft → Draft) (p : Place) (ns : List Node)
    (d : Draft) : Draft :=
  ns.foldl (fun d n => n.collect enter p d) d

/-- What is noted at a node itself, before the nodes inside it. -/
def Draft.note (p : Place) (d : Draft) : Node → Draft
  | .expr (.ref loc target) => d.refer p loc target
  | .expr (.self loc _) =>
    match d.graph.receiver with
    | some r => d.refer p loc (some r)
    | none => d.failFirst .receiverInStaticMethod loc
  | .expr (.functionRef loc fn) =>
    match d.callee? fn with
    | some c => (d.modify (·.modifyClosure c fun cl => { cl with isDelegate := true })).depend p c
    | none => d.unknownFunction loc fn
  | .expr (.localCall loc fn _) =>
    match d.callee? (some fn) with
    | some c => d.depend p c
    | none => d.unknownFunction loc (some fn)
  | _ => d

namespace Draft

@[simp] theorem isOk_failFirst (d : Draft) (cause : Cause) (loc : Loc) :
    (d.failFirst cause loc).isOk = false := by
  unfold failFirst
  split
  · rfl
  · rename_i h
    simpa using h

@[simp] theorem isOk_depend (d : Draft) (p : Place) (c : ClosureId) :
    (d.depend p c).isOk = d.isOk := by
  unfold depend
  split <;> rfl

theorem isOk_of_refer {d : Draft} {p : Place} {loc : Loc} {v : Option Variable}
    (h : (d.refer p loc v).isOk) : d.isOk := by
  unfold refer at h
  split at h
  · simp at h
  · split at h
    · simp at h
    · split at h
      · split at h
        · split at h
          · exact h
          · simpa using h
        · exact h
      · simp at h

theorem isOk_of_note {d : Draft} {p : Place} {n : Node} (h : (d.note p n).isOk) : d.isOk := by
  unfold note at h
  split at h
  · exact isOk_of_refer h
  · split at h
    · exact isOk_of_refer h
    · simp at h
  · split at h
    · simpa using h
    · simp [unknownFunction] at h
  · split at h
    · simpa using h
    · simp [unknownFunction] at h
  · exact h

end Draft

namespace Node

variable {enter : ClosureId → Draft → Draft} {p : Place} {d : Draft} {n : Node}

private theorem collectAll_exprs (es : List Expr) (d : Draft) :
    Expr.collectAll enter p es d = collectEach enter p (es.map .expr) d := by
  induction es generalizing d with
  | nil => rfl
  | cons e es ih => exact ih _

theorem collect_localCall (loc : Loc) (fn : NestedFunction) (args : List Expr) :
    (Node.expr (.localCall loc fn args)).collect enter p d =
      match d.callee? (some fn) with
      | some c => Expr.collectAll enter p args (d.depend p c)
      | none => d.unknownFunction loc (some fn) := rfl

/-- A node that opens nothing is noted, and then the nodes inside it are collected, unless it calls
a function that is not in the graph. -/
theorem collect_of_callee (hb : n.opened? = none)
    (hcallee : ∀ loc fn args, n = .expr (.localCall loc fn args) → d.callee? (some fn) ≠ none) :
    n.collect enter p d = collectEach enter p n.inner (d.note p n) := by
  cases n with
  | expr e =>
    cases e with
    | lambda => simp [opened?] at hb
    | literal | ref | self | functionRef | newEnv | zero | assign | binary | field => rfl
    | localCall loc fn args =>
      rw [collect_localCall, Draft.note]
      cases hc : d.callee? (some fn) with
      | none => exact absurd hc (hcallee loc fn args rfl)
      | some c => exact collectAll_exprs args _
    | call loc method receiver args =>
      cases receiver with
      | none => exact collectAll_exprs args d
      | some e => exact collectAll_exprs args _
    | invoke loc callee args => exact collectAll_exprs args _
    | delegate loc receiver method => cases receiver <;> rfl
  | stmt st =>
    cases st with
    | block | localFunction => simp [opened?] at hb
    | declare loc target init => cases init <;> rfl
    | expr | loop => rfl
    | ret loc value => cases value <;> rfl
    | cond loc test thenBlock elseBlock => cases elseBlock <;> rfl
  | block b => simp [opened?] at hb

theorem collect_of_isNone (hb : n.opened? = none) (hok : (n.collect enter p d).isOk) :
    n.collect enter p d = collectEach enter p n.inner (d.note p n) := by
  refine collect_of_callee hb ?_
  rintro loc fn args rfl hc
  simp [collect_localCall, hc, Draft.unknownFunction] at hok

theorem collect_block {b : Block} (hb : n.opened? = some b) (hn : n.nested? = none) (d : Draft) :
    n.collect enter p d =
      match d.graph.scopeOf? b.id with
      | some s => Stmt.collectAll enter { p with scope := s } b.stmts d
      | none => d.failFirst .blockNotInGraph b.loc := by
  cases n with
  | expr e => cases e <;> simp_all [opened?, nested?]
  | stmt st =>
    cases st with
    | block b' =>
      obtain rfl := Option.some.inj hb
      cases b'
      rfl
    | _ => simp_all [opened?, nested?]
  | block b' =>
    obtain rfl := Option.some.inj hb
    cases b'
    rfl

theorem reference_of_opened {b : Block} (hb : n.opened? = some b) (r : Option Variable) :
    n.reference? r = none := by
  cases n with
  | expr e => cases e <;> simp_all [opened?, reference?]
  | _ => rfl

theorem use_of_opened {b : Block} (hb : n.opened? = some b) : n.use? = none := by
  cases n with
  | expr e => cases e <;> simp_all [opened?, use?]
  | _ => rfl

theorem named_of_opened {b : Block} (hb : n.opened? = some b) : n.named? = none := by
  cases n with
  | expr e => cases e <;> simp_all [opened?, named?]
  | _ => rfl

theorem collect_nested (enter : ClosureId → Draft → Draft) (p : Place) {fn : Option NestedFunction}
    {b : Block} (hn : n.nested? = some (fn, b)) (d : Draft) :
    ∃ loc, n.collect enter p d = d.enterClosure enter p loc fn := by
  cases n with
  | expr e =>
    cases e with
    | lambda loc fn' body =>
      obtain ⟨rfl, rfl⟩ := Prod.mk.inj (Option.some.inj hn)
      exact ⟨loc, rfl⟩
    | _ => simp [nested?] at hn
  | stmt st =>
    cases st with
    | localFunction loc fn' body =>
      obtain ⟨rfl, rfl⟩ := Prod.mk.inj (Option.some.inj hn)
      exact ⟨loc, rfl⟩
    | _ => simp [nested?] at hn
  | block b => simp [nested?] at hn

theorem collectAll_of_isOk {ss : List Stmt} (h : (Stmt.collectAll enter p ss d).isOk) :
    d.isOk ∧ Stmt.collectAll enter p ss d = collectEach enter p (ss.map .stmt) d := by
  induction ss generalizing d with
  | nil => exact ⟨h, rfl⟩
  | cons st ss ih =>
    rw [Stmt.collectAll] at h ⊢
    split at h
    · rename_i hd
      rw [if_pos hd]
      exact ⟨hd, (ih h).2⟩
    · rename_i hd
      exact absurd h hd

theorem isOk_of_collectEach {ns : List Node}
    (ih : ∀ n ∈ ns, ∀ d, (n.collect enter p d).isOk → d.isOk)
    (h : (collectEach enter p ns d).isOk) : d.isOk := by
  induction ns generalizing d with
  | nil => exact h
  | cons n ns ihs =>
    have hn : (n.collect enter p d).isOk := ihs (fun k hk => ih k (by simp [hk])) h
    exact ih n (by simp) d hn

/-- A failure is never mended. -/
theorem isOk_of_collect (henter : ∀ c d, (enter c d).isOk → d.isOk)
    (h : (n.collect enter p d).isOk) : d.isOk := by
  induction n using Node.induction generalizing p d with
  | step n ih =>
    cases hb : n.opened? with
    | none =>
      rw [collect_of_isNone hb h] at h
      exact Draft.isOk_of_note (isOk_of_collectEach (fun k hk d hok => ih k hk hok) h)
    | some b =>
      cases hn : n.nested? with
      | none =>
        rw [collect_block hb hn] at h
        split at h
        · exact (collectAll_of_isOk h).1
        · simp at h
      | some fb =>
        obtain ⟨loc, heq⟩ := collect_nested enter p hn d
        rw [heq, Draft.enterClosure] at h
        split at h
        · simpa using henter _ _ h
        · simp at h

end Node

/-! ## What is collected -/

namespace Graph

variable {g g' g'' : Graph} {m : MethodBody} {p : Path} {c : ClosureId}

/-- Where in the graph the nodes at a path stand. -/
def place (g : Graph) (p : Path) : Place := ⟨p.scope, p.functions.head?.bind g.closureOf?⟩

theorem place_of_shape (h : g'.shape = g.shape) (p : Path) : g'.place p = g.place p := by
  simp only [place, funext (closureOf_of_shape h)]

theorem Holds.place_closure (h : g.Holds m) (hc : c < g.closures.size) :
    (g.place p).closure = some c ↔ p.functions.head? = some (g.closure c).function := by
  rw [place, Option.bind_eq_some_iff]
  constructor
  · rintro ⟨f, hf, hf'⟩
    rw [hf, (h.closureOf_eq_some.mp hf').2]
  · intro hf
    exact ⟨_, hf, h.closureOf_eq_some.mpr ⟨hc, rfl⟩⟩

/-- What the node at a site refers to is in the graph, and the variable is declared around it. -/
structure Resolved (g : Graph) (s : Path × Node) : Prop where
  reference : ∀ t, s.2.reference? g.receiver = some t →
    ∃ v a, t = some v ∧ g.declaringScope? v = some a ∧ g.encloses a s.1.scope
  use : ∀ t, s.2.use? = some t → ∃ f c, t = some f ∧ g.closureOf? f = some c

theorem Resolved.of_shape {s : Path × Node} (hs : g.Resolved s) (h : g'.shape = g.shape) :
    g'.Resolved s := by
  obtain ⟨href, huse⟩ := hs
  rw [← receiver_of_shape h, ← funext (declaringScope_of_shape h),
    ← funext fun a => funext (encloses_of_shape h a)] at href
  rw [← funext (closureOf_of_shape h)] at huse
  exact ⟨href, huse⟩

/-- The graph `g'` comes from `g` by collecting the sites `ss`. -/
structure Collected (ss : List (Path × Node)) (g g' : Graph) : Prop where
  shape : g'.shape = g.shape
  scopes : g'.scopes = g.scopes
  envs : g'.envs = g.envs
  placement : ∀ c, (g'.closure c).envs = (g.closure c).envs ∧
    (g'.closure c).host = (g.closure c).host
  captured : ∀ c < g.closures.size, ∀ v, v ∈ (g'.closure c).captured ↔
    v ∈ (g.closure c).captured ∨ ∃ s ∈ ss, s.1.functions.head? = some (g.closure c).function ∧
      s.2.reference? g.receiver = some (some v) ∧ g.bodyDeclares c v = false
  dependencies : ∀ c < g.closures.size, ∀ d, d ∈ (g'.closure c).dependencies ↔
    d ∈ (g.closure c).dependencies ∨ ∃ s ∈ ss, s.1.functions.head? = some (g.closure c).function ∧
      ∃ f, (s.2.function? = some f ∨ s.2.use? = some (some f)) ∧ g.closureOf? f = some d
  isDelegate : ∀ c < g.closures.size, (g'.closure c).isDelegate = true ↔
    (g.closure c).isDelegate = true ∨ ∃ s ∈ ss, s.2.named? = some (g.closure c).function
  resolved : ∀ s ∈ ss, g.Resolved s

namespace Collected

variable {ss ts : List (Path × Node)}

/-- Sites without references leave the graph as it is. -/
theorem of_silent (hr : ∀ s ∈ ss, s.2.reference? g.receiver = none) (hu : ∀ s ∈ ss, s.2.use? = none)
    (hf : ∀ s ∈ ss, s.2.function? = none) : Collected ss g g where
  shape := rfl
  scopes := rfl
  envs := rfl
  placement _ := ⟨rfl, rfl⟩
  captured c _ v := by
    refine ⟨.inl, ?_⟩
    rintro (hv | ⟨s, hs, -, href, -⟩)
    · exact hv
    · simp [hr s hs] at href
  dependencies c _ d := by
    refine ⟨.inl, ?_⟩
    rintro (hd | ⟨s, hs, -, f, hf' | hu', -⟩)
    · exact hd
    · simp [hf s hs] at hf'
    · simp [hu s hs] at hu'
  isDelegate c _ := by
    refine ⟨.inl, ?_⟩
    rintro (hd | ⟨s, hs, hn⟩)
    · exact hd
    · obtain ⟨q, n⟩ := s
      have := hu _ hs
      cases n with
      | expr e => cases e <;> simp_all [Node.named?, Node.use?]
      | _ => simp [Node.named?] at hn
  resolved s hs := ⟨by simp [hr s hs], by simp [hu s hs]⟩

theorem append (h : Collected ss g g') (h' : Collected ts g' g'') :
    Collected (ss ++ ts) g g'' where
  shape := h'.shape.trans h.shape
  scopes := h'.scopes.trans h.scopes
  envs := h'.envs.trans h.envs
  placement c := ⟨(h'.placement c).1.trans (h.placement c).1,
    (h'.placement c).2.trans (h.placement c).2⟩
  captured c hc v := by
    rw [h'.captured c (by rwa [size_closures_of_shape h.shape]), h.captured c hc,
      function_of_shape h.shape, receiver_of_shape h.shape, bodyDeclares_of_shape h.shape]
    simp only [List.mem_append, or_and_right, exists_or, or_assoc]
  dependencies c hc d := by
    rw [h'.dependencies c (by rwa [size_closures_of_shape h.shape]), h.dependencies c hc,
      function_of_shape h.shape, funext (closureOf_of_shape h.shape)]
    simp only [List.mem_append, or_and_right, exists_or, or_assoc]
  isDelegate c hc := by
    rw [h'.isDelegate c (by rwa [size_closures_of_shape h.shape]), h.isDelegate c hc,
      function_of_shape h.shape]
    simp only [List.mem_append, or_and_right, exists_or, or_assoc]
  resolved s hs := by
    rcases List.mem_append.mp hs with hs | hs
    · exact h.resolved s hs
    · exact (h'.resolved s hs).of_shape h.shape.symm

end Collected

end Graph

/-! ## Single sites -/

namespace Draft

open Unnest.Graph

variable {d : Draft} {m : MethodBody} {p : Path} {n : Node}

theorem shape_depend (d : Draft) (q : Place) (k : ClosureId) :
    (d.depend q k).graph.shape = d.graph.shape := by
  unfold depend
  split
  · exact shape_modifyClosure _ _ fun _ => rfl
  · rfl

/-- Dependencies change nothing but the dependencies. -/
theorem proj_depend {α : Type} (proj : Closure → α)
    (hproj : ∀ cl ds, proj { cl with dependencies := ds } = proj cl) (d : Draft) (q : Place)
    (k c : ClosureId) : proj ((d.depend q k).graph.closure c) = proj (d.graph.closure c) := by
  unfold depend
  split
  · exact proj_closure_modifyClosure proj (fun _ => hproj _ _) _ _ _
  · rfl

theorem mem_dependencies_depend (h : d.graph.Holds m) {c : ClosureId}
    (hc : c < d.graph.closures.size) (k e : ClosureId) :
    e ∈ ((d.depend (d.graph.place p) k).graph.closure c).dependencies ↔
      e ∈ (d.graph.closure c).dependencies ∨
        p.functions.head? = some (d.graph.closure c).function ∧ e = k := by
  rw [← h.place_closure hc]
  cases hq : (d.graph.place p).closure with
  | none => simp [depend, hq]
  | some o =>
    simp only [depend, hq, graph_modify, closure_modifyClosure, Option.some.injEq]
    split
    · rename_i ho
      simp [ho.1]
    · rename_i ho
      have : o ≠ c := fun heq => ho ⟨heq, hc⟩
      simp [this]

theorem scopes_depend (d : Draft) (q : Place) (k : ClosureId) :
    (d.depend q k).graph.scopes = d.graph.scopes ∧ (d.depend q k).graph.envs = d.graph.envs := by
  unfold depend
  split <;> exact ⟨rfl, rfl⟩

/-- A use of a function, or the function itself, makes a dependency. -/
theorem collected_depend (h : d.graph.Holds m) {f : NestedFunction} {k : ClosureId}
    (hk : d.graph.closureOf? f = some k)
    (hf : ∀ f', (n.function? = some f' ∨ n.use? = some (some f')) ↔ f' = f)
    (hu : ∀ t, n.use? = some t → t = some f) (hr : n.reference? d.graph.receiver = none)
    (hn : n.named? = none) :
    Collected [(p, n)] d.graph (d.depend (d.graph.place p) k).graph where
  shape := shape_depend _ _ _
  scopes := (scopes_depend _ _ _).1
  envs := (scopes_depend _ _ _).2
  placement c := ⟨proj_depend _ (fun _ _ => rfl) _ _ _ _, proj_depend _ (fun _ _ => rfl) _ _ _ _⟩
  captured c hc v := by
    rw [proj_depend Closure.captured fun _ _ => rfl]
    simp [hr]
  dependencies c hc e := by
    rw [mem_dependencies_depend h hc]
    simp only [List.mem_singleton, exists_eq_left, hf, hk, Option.some.injEq, @eq_comm _ e]
  isDelegate c hc := by
    rw [proj_depend Closure.isDelegate fun _ _ => rfl]
    simp [hn]
  resolved s hs := by
    obtain rfl := List.mem_singleton.mp hs
    exact ⟨by simp [hr], fun t ht => ⟨f, k, hu t ht, hk⟩⟩

/-- A reference without a failure is to a variable declared around it. The closure it stands in
captures the variable, unless there is none or its body declares the variable. -/
theorem refer_cases {q : Place} {loc : Loc} {t : Option Variable}
    (hok : (d.refer q loc t).isOk) : ∃ v a, t = some v ∧ d.graph.declaringScope? v = some a ∧
      d.graph.encloses a q.scope = true ∧
      ((∀ c, q.closure = some c → d.graph.bodyDeclares c v = true) ∧
          (d.refer q loc t).graph = d.graph ∨
        ∃ c, q.closure = some c ∧ d.graph.bodyDeclares c v = false ∧
          (d.refer q loc t).graph = d.graph.modifyClosure c fun cl =>
            { cl with direct := cl.direct.insert v, captured := cl.captured.insert v }) := by
  cases t with
  | none => simp [refer] at hok
  | some v =>
    cases hv : d.graph.declaringScope? v with
    | none => simp [refer, hv] at hok
    | some a =>
      by_cases ha : d.graph.encloses a q.scope = true
      · refine ⟨v, a, rfl, hv, ha, ?_⟩
        simp only [refer, hv, ha, if_true]
        cases hq : q.closure with
        | none => exact .inl ⟨by simp, rfl⟩
        | some c =>
          by_cases hc : d.graph.bodyDeclares c v = true
          · refine .inl ⟨fun k hk => ?_, by simp [hc]⟩
            rwa [← Option.some.inj hk]
          · exact .inr ⟨c, rfl, by simpa using hc, by simp [hc]⟩
      · simp [refer, hv, ha] at hok

section Reference

variable {v : Variable} (h : d.graph.Holds m)
  (hr : n.reference? d.graph.receiver = some (some v)) (hu : n.use? = none)
  (hf : n.function? = none) (hn : n.named? = none) (hresolved : d.graph.Resolved (p, n))

include h hr hu hf hn hresolved

/-- Nothing is captured if the node is not in a closure or the closure declares the variable. -/
theorem collected_of_bodyDeclares (hown : ∀ c, (d.graph.place p).closure = some c →
    d.graph.bodyDeclares c v = true) : Collected [(p, n)] d.graph d.graph where
  shape := rfl
  scopes := rfl
  envs := rfl
  placement _ := ⟨rfl, rfl⟩
  captured c hc w := by
    have := hown c
    rw [h.place_closure hc] at this
    simp only [List.mem_singleton, exists_eq_left, hr, Option.some.injEq]
    refine ⟨.inl, ?_⟩
    rintro (hw | ⟨hc', rfl, hw⟩)
    · exact hw
    · simp [this hc'] at hw
  dependencies c hc e := by simp [hu, hf]
  isDelegate c hc := by simp [hn]
  resolved := by simpa using hresolved

/-- A closure captures what its body does not declare. -/
theorem collected_capture {k : ClosureId} (hq : (d.graph.place p).closure = some k)
    (hk : d.graph.bodyDeclares k v = false) :
    Collected [(p, n)] d.graph (d.graph.modifyClosure k fun cl =>
      { cl with direct := cl.direct.insert v, captured := cl.captured.insert v }) := by
  have hproj {α : Type} (proj : Closure → α) (hproj : ∀ cl a b,
      proj { cl with direct := a, captured := b } = proj cl) (c : ClosureId) :=
    proj_closure_modifyClosure proj (f := fun cl =>
      { cl with direct := cl.direct.insert v, captured := cl.captured.insert v })
      (fun cl => hproj cl _ _) d.graph k c
  constructor
  case shape => exact shape_modifyClosure _ _ fun _ => rfl
  case scopes => rfl
  case envs => rfl
  case placement =>
    intro c
    exact ⟨hproj _ (fun _ _ _ => rfl) c, hproj _ (fun _ _ _ => rfl) c⟩
  case captured =>
    intro c hc w
    rw [closure_modifyClosure]
    have hplace := h.place_closure (p := p) hc
    rw [hq, Option.some.injEq] at hplace
    simp only [List.mem_singleton, exists_eq_left, hr, Option.some.injEq, ← hplace]
    split
    · rename_i hkc
      obtain rfl := hkc.1
      refine OrderedSet.mem_insert.trans (or_congr_right ⟨?_, ?_⟩)
      · rintro rfl
        exact ⟨rfl, rfl, hk⟩
      · rintro ⟨-, rfl, -⟩
        rfl
    · rename_i hkc
      have : k ≠ c := fun heq => hkc ⟨heq, hc⟩
      simp [this]
  case dependencies =>
    intro c hc e
    rw [hproj Closure.dependencies (fun _ _ _ => rfl)]
    simp [hu, hf]
  case isDelegate =>
    intro c hc
    rw [hproj Closure.isDelegate (fun _ _ _ => rfl)]
    simp [hn]
  case resolved => simpa using hresolved

end Reference

theorem collected_refer (h : d.graph.Holds m) {loc : Loc} {t : Option Variable}
    (hr : n.reference? d.graph.receiver = some t) (hu : n.use? = none) (hf : n.function? = none)
    (hn : n.named? = none) (hok : (d.refer (d.graph.place p) loc t).isOk) :
    Collected [(p, n)] d.graph (d.refer (d.graph.place p) loc t).graph := by
  obtain ⟨v, a, rfl, hv, ha, hcases⟩ := refer_cases hok
  have hresolved : d.graph.Resolved (p, n) :=
    ⟨fun t ht => ⟨v, a, Option.some.inj (ht.symm.trans hr), hv, ha⟩, by simp [hu]⟩
  obtain ⟨hown, hgraph⟩ | ⟨c, hq, hc, hgraph⟩ := hcases
  · rw [hgraph]
    exact collected_of_bodyDeclares h hr hu hf hn hresolved hown
  · rw [hgraph]
    exact collected_capture h hr hu hf hn hresolved hq hc

/-- A function used as a value is marked, and is a dependency as well. -/
theorem collected_name (h : d.graph.Holds m) {f : NestedFunction} {k : ClosureId}
    (hk : d.graph.closureOf? f = some k) (loc : Loc) :
    Collected [(p, .expr (.functionRef loc (some f)))] d.graph
      ((d.modify (·.modifyClosure k fun cl => { cl with isDelegate := true })).depend
        (d.graph.place p) k).graph := by
  obtain ⟨hlt, hfk⟩ := h.closureOf_eq_some.mp hk
  set d' := d.modify (·.modifyClosure k fun cl => { cl with isDelegate := true }) with hd'
  have hshape : d'.graph.shape = d.graph.shape := shape_modifyClosure _ _ fun _ => rfl
  have hproj {α : Type} (proj : Closure → α) (hproj : ∀ cl a,
      proj { cl with isDelegate := a } = proj cl) (c : ClosureId) :
      proj (d'.graph.closure c) = proj (d.graph.closure c) :=
    proj_closure_modifyClosure proj (fun cl => hproj cl _) d.graph k c
  have hplace := place_of_shape hshape p
  simp only [← hplace]
  refine ⟨(shape_depend _ _ _).trans hshape, (scopes_depend _ _ _).1,
    (scopes_depend _ _ _).2, fun c => ⟨?_, ?_⟩, fun c hc v => ?_, fun c hc e => ?_,
    fun c hc => ?_, ?_⟩
  · rw [proj_depend Closure.envs fun _ _ => rfl, hproj Closure.envs fun _ _ => rfl]
  · rw [proj_depend Closure.host fun _ _ => rfl, hproj Closure.host fun _ _ => rfl]
  · rw [proj_depend Closure.captured fun _ _ => rfl, hproj Closure.captured fun _ _ => rfl]
    simp [Node.reference?]
  · rw [mem_dependencies_depend (h.of_shape hshape)
      (by rwa [size_closures_of_shape hshape]), hproj Closure.dependencies fun _ _ => rfl,
      function_of_shape hshape]
    simp [Node.function?, Node.nested?, Node.use?, hk, @eq_comm _ e]
  · rw [proj_depend Closure.isDelegate fun _ _ => rfl, hd', graph_modify,
      closure_modifyClosure]
    simp only [List.mem_singleton, exists_eq_left, Node.named?, Option.some.injEq]
    split
    · rename_i hkc
      simp [← hkc.1, hfk]
    · rename_i hkc
      have hne : f ≠ (d.graph.closure c).function := fun heq =>
        hkc ⟨h.closure_inj hlt hc (hfk.trans heq), hc⟩
      simp [hne]
  · intro s hs
    obtain rfl := List.mem_singleton.mp hs
    exact ⟨by simp [Node.reference?], fun t ht => ⟨f, k, (Option.some.inj ht).symm, hk⟩⟩

/-- What is noted at a node that opens nothing. -/
theorem collected_note (h : d.graph.Holds m) (hb : n.opened? = none)
    (hok : (d.note (d.graph.place p) n).isOk) :
    Collected [(p, n)] d.graph (d.note (d.graph.place p) n).graph := by
  have hf : n.function? = none := Node.function_of_isNone hb
  have hsilent (hr : n.reference? d.graph.receiver = none) (hu : n.use? = none)
      (hg : d.note (d.graph.place p) n = d) :
      Collected [(p, n)] d.graph (d.note (d.graph.place p) n).graph := by
    rw [hg]
    exact .of_silent (by simpa using hr) (by simpa using hu) (by simpa using hf)
  cases n with
  | expr e =>
    cases e with
    | ref loc target => exact collected_refer h rfl rfl rfl rfl hok
    | self loc type =>
      simp only [note] at hok ⊢
      cases hr : d.graph.receiver with
      | none => simp [hr] at hok
      | some r =>
        simp only [hr] at hok
        exact collected_refer h (by simp [Node.reference?, hr]) rfl rfl rfl hok
    | localCall loc fn args =>
      simp only [note] at hok ⊢
      cases hk : d.callee? (some fn) with
      | none => simp [hk, unknownFunction] at hok
      | some k =>
        exact collected_depend h (f := fn) hk (by simp [hf, Node.use?, eq_comm])
          (by simp [Node.use?, eq_comm]) rfl rfl
    | functionRef loc fn =>
      simp only [note] at hok ⊢
      cases hk : d.callee? fn with
      | none => simp [hk, unknownFunction] at hok
      | some k =>
        obtain ⟨f, rfl, hf'⟩ := Option.bind_eq_some_iff.mp hk
        exact collected_name h hf' loc
    | lambda => simp [Node.opened?] at hb
    | _ => exact hsilent rfl rfl rfl
  | stmt st => exact hsilent rfl rfl rfl
  | block b => exact hsilent rfl rfl rfl

end Draft

/-! ## Whole bodies -/

theorem Draft.isOk_of_collectClosure {depth : Nat} {c : ClosureId} {d : Draft}
    (h : (collectClosure depth c d).isOk) : d.isOk := by
  cases depth with
  | zero => exact h
  | succ depth =>
    rw [collectClosure] at h
    split at h
    · exact (Node.collectAll_of_isOk h).1
    · exact h

namespace Node

open Unnest.Graph

variable {m : MethodBody} {n : Node} {p : Path} {q : Place} {d : Draft} {depth : Nat}

theorem length_functions_le {ns : List Node} (hn : n ∈ ns) :
    n.functions.length ≤ (ns.flatMap functions).length := by
  obtain ⟨before, after, rfl⟩ := List.append_of_mem hn
  simp only [List.flatMap_append, List.flatMap_cons, List.length_append]
  omega

theorem isOk_of_collectEach_collectClosure {ns : List Node}
    (h : (collectEach (Draft.collectClosure depth) q ns d).isOk) : d.isOk :=
  isOk_of_collectEach (fun _ _ _ hk => isOk_of_collect
    (fun _ _ hc => Draft.isOk_of_collectClosure hc) hk) h

theorem collected_each {ns : List Node}
    (ih : ∀ n ∈ ns, ∀ d : Draft, d.graph.Holds m → d.graph.place p = q →
      (n.collect (Draft.collectClosure depth) q d).isOk →
      Collected (n.sites p) d.graph (n.collect (Draft.collectClosure depth) q d).graph)
    (h : d.graph.Holds m) (hq : d.graph.place p = q)
    (hok : (collectEach (Draft.collectClosure depth) q ns d).isOk) :
    Collected (ns.flatMap (sites p)) d.graph
      (collectEach (Draft.collectClosure depth) q ns d).graph := by
  induction ns generalizing d with
  | nil => exact .of_silent (by simp) (by simp) (by simp)
  | cons n ns ihs =>
    have hhead := ih n (by simp) d h hq (isOk_of_collectEach_collectClosure hok)
    have htail := ihs (fun k hk => ih k (by simp [hk])) (h.of_shape hhead.shape)
      ((place_of_shape hhead.shape p).trans hq) hok
    exact hhead.append htail

/-- Collecting a node without a failure collects the sites below it. The walk enters the functions
below a node one inside the other, so their number bounds its depth. -/
theorem collected (h : d.graph.Holds m) (hq : d.graph.place p = q)
    (hsites : ∀ s ∈ n.sites p, s ∈ m.numbered.sites) (hdepth : n.functions.length ≤ depth)
    (hok : (n.collect (Draft.collectClosure depth) q d).isOk) :
    Collected (n.sites p) d.graph (n.collect (Draft.collectClosure depth) q d).graph := by
  induction n using Node.induction generalizing p q d depth with
  | step n ih =>
    have hlays := h.lays p n (hsites _ (self_mem_sites p n))
    rw [functions_eq, List.length_append] at hdepth
    have hinner {depth : Nat} {q : Place} {d : Draft} (h : d.graph.Holds m)
        (hq : d.graph.place (p.into n) = q) (hdepth : (n.inner.flatMap functions).length ≤ depth)
        (hok : (collectEach (Draft.collectClosure depth) q n.inner d).isOk) :=
      collected_each (fun k hk d hd hq hok => ih k hk hd hq
        (fun s hs => hsites s (mem_sites_of_inner hk hs))
        (Nat.le_trans (length_functions_le hk) hdepth) hok) h hq hok
    rw [sites_eq]
    cases hb : n.opened? with
    | none =>
      have heq := collect_of_isNone hb hok
      rw [heq] at hok ⊢
      subst hq
      have hself := Draft.collected_note h hb (isOk_of_collectEach_collectClosure hok)
      refine hself.append (hinner (h.of_shape hself.shape) ?_ (by omega) hok)
      rw [place_of_shape hself.shape, into_of_isNone hb]
    | some b =>
      have hlt := (hlays.scope b hb).lt
      cases hn : n.nested? with
      | none =>
        have hf : n.function? = none := by simp [function?, hn]
        rw [collect_block hb hn, h.scopeOf_eq hlt] at hok ⊢
        obtain ⟨-, heq⟩ := collectAll_of_isOk hok
        rw [← inner_of_opened hb] at heq
        simp only at hok ⊢
        rw [heq] at hok ⊢
        have hself : Collected [(p, n)] d.graph d.graph := by
          refine .of_silent ?_ ?_ (by simpa using hf)
          · simpa using reference_of_opened hb _
          · simpa using use_of_opened hb
        refine hself.append (hinner h ?_ (by omega) hok)
        rw [← hq]
        simp [place, Path.scope_into hb, Path.functions_into, hf]
      | some fb =>
        obtain ⟨f, c, hf, hc⟩ := hlays.function fb.1 fb.2 hn
        obtain rfl : fb.2 = b := Option.some.inj ((opened_of_nested hn).symm.trans hb)
        have hfun : n.function? = some f := by simp [function?, hn, hf]
        have hcl := h.closureOf_eq_some.mpr ⟨hc.lt, hc.function⟩
        obtain ⟨loc, heq⟩ := collect_nested (Draft.collectClosure depth) q hn d
        have hcallee : d.callee? fb.1 = some c := by simp [Draft.callee?, hf, hcl]
        rw [heq, Draft.enterClosure, hcallee] at hok ⊢
        simp only at hok ⊢
        have hone : n.function?.toList.length = 1 := by simp [hfun]
        obtain ⟨k, rfl⟩ : ∃ k, depth = k + 1 := ⟨depth - 1, by omega⟩
        subst hq
        have hself : Collected [(p, n)] d.graph (d.depend (d.graph.place p) c).graph := by
          refine Draft.collected_depend h hcl ?_ ?_ (reference_of_opened hb _) (named_of_opened hb)
          · simp [hfun, use_of_opened hb, eq_comm]
          · simp [use_of_opened hb]
        have hbody : ((d.depend (d.graph.place p) c).graph.closure c).body = fb.2.id :=
          (bodyScope_of_shape hself.shape c).trans hc.body
        have hblock : ((d.depend (d.graph.place p) c).graph.scope fb.2.id).block = some fb.2 :=
          (block_of_shape hself.shape _).trans (hlays.scope _ hb).block
        rw [Draft.collectClosure, hbody] at hok ⊢
        simp only [hblock] at hok ⊢
        obtain ⟨-, heq⟩ := collectAll_of_isOk hok
        rw [← inner_of_opened hb] at heq
        rw [heq] at hok ⊢
        refine hself.append (hinner (h.of_shape hself.shape) ?_ (by omega) hok)
        rw [place_of_shape hself.shape]
        simp [place, Path.scope_into hb, Path.functions_into, hfun, hcl]

end Node

/-- A body whose captures are collected without a failure has all its sites collected. -/
theorem Draft.collected_of_isOk {d : Draft} {m : MethodBody} (h : d.graph.Holds m)
    (hok : d.collect.isOk) : Graph.Collected m.numbered.sites d.graph d.collect.graph := by
  obtain ⟨method, block, -, hb, -⟩ := h.complete
  have hbody : d.graph.body.block = some block := by rw [h.body, hb]
  have htop : m.topNodes = block.stmts.map .stmt := by simp [MethodBody.topNodes, hb]
  rw [collect, hbody] at hok ⊢
  simp only at hok ⊢
  obtain ⟨-, heq⟩ := Node.collectAll_of_isOk hok
  rw [← htop] at heq
  rw [heq] at hok ⊢
  rw [m.sites_numbered]
  refine Node.collected_each (fun n hn d' hd' hq hok => ?_) h rfl hok
  refine Node.collected hd' hq (fun s hs => ?_) ?_ hok
  · rw [m.sites_numbered]
    exact List.mem_flatMap.mpr ⟨n, hn, hs⟩
  · rw [← Graph.length_functions, h.functions]
    exact Node.length_functions_le hn

end Unnest
