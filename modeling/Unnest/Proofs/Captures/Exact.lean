import Unnest.Proofs.Captures.Collect
import Unnest.Proofs.Captures.Propagate

/-!
# Capture sets are exact

A body is accepted if its scopes are built and its captures are found without a failure. In an
accepted body a closure captures a variable exactly if the variable reaches it along functions that
contain, call or name one another, from one that refers to it, and is declared in none of them.

## Main statements

* `MethodBody.Accepted.analysed` : what is known about an accepted body.
* `MethodBody.mem_captured_iff_path` : capture sets, receiver captures and delegates are exact.
-/

namespace Unnest

namespace MethodBody

/-- The scopes of a body. -/
def built (m : MethodBody) : Draft := Draft.build { graph := .ofBody m }

/-- The scopes of a body with the captures of its closures. -/
def captured (m : MethodBody) : Draft := Draft.findCaptures { graph := m.built.graph }

/-- Neither the scopes nor the captures of the body are a failure. -/
structure Accepted (m : MethodBody) : Prop where
  built : m.built.isOk
  captured : m.captured.isOk

/-- Variable `v` reaches function `f` along functions each of which declares, calls or names the
next one in its own body; the last one refers to `v`, and none of them declares it. -/
def Captures (m : MethodBody) (f : NestedFunction) (v : Variable) : Prop :=
  ∃ fs : List NestedFunction, (f :: fs).IsChain m.DependsOn ∧
    m.Refers ((f :: fs).getLast (List.cons_ne_nil f fs)) v ∧
    ∀ h ∈ f :: fs, ¬ m.DeclaresWithin h v

variable {m : MethodBody} {f h : NestedFunction} {v : Variable}

theorem Captures.own (hr : m.Refers f v) (hv : ¬ m.DeclaresWithin f v) : m.Captures f v :=
  ⟨[], .singleton f, hr, by simpa using hv⟩

theorem Captures.through (hd : m.DependsOn f h) (hh : m.Captures h v)
    (hv : ¬ m.DeclaresWithin f v) : m.Captures f v := by
  obtain ⟨fs, hchain, hr, hout⟩ := hh
  refine ⟨h :: fs, hchain.cons_cons hd, by simpa using hr, ?_⟩
  simpa using ⟨hv, by simpa using hout⟩

/-- Paths are built from their ends. -/
theorem Captures.induction {P : NestedFunction → Prop}
    (own : ∀ f, m.Refers f v → ¬ m.DeclaresWithin f v → P f)
    (through : ∀ f h, m.DependsOn f h → P h → ¬ m.DeclaresWithin f v → P f)
    (hf : m.Captures f v) : P f := by
  obtain ⟨fs, hchain, hr, hout⟩ := hf
  induction fs generalizing f with
  | nil => exact own f (by simpa using hr) (by simpa using hout)
  | cons h fs ih =>
    rw [List.isChain_cons_cons] at hchain
    refine through f h hchain.1 (ih hchain.2 (by simpa using hr) fun k hk => ?_) (hout f (by simp))
    exact hout k (List.mem_cons_of_mem f hk)

end MethodBody

namespace Graph

/-- The graph holds the body, every reference is resolved, and the closures capture what reaches
them. -/
structure Exact (g : Graph) (m : MethodBody) : Prop where
  holds : g.Holds m
  captured : ∀ c < g.closures.size, ∀ v,
    v ∈ (g.closure c).captured ↔ m.Captures (g.closure c).function v
  capturesReceiver : ∀ c, (g.closure c).capturesReceiver = true ↔
    ∃ r, m.receiver = some r ∧ r ∈ (g.closure c).captured
  isDelegate : ∀ c < g.closures.size, (g.closure c).isDelegate = true ↔
    (g.closure c).function.isDelegate = true ∨
      ∃ p loc, (p, .expr (.functionRef loc (some (g.closure c).function))) ∈ m.numbered.sites
  resolved : ∀ s ∈ m.numbered.sites, g.Resolved s

/-- What is known about a body once its captures are found; there are no environments yet. -/
structure Analysed (g : Graph) (m : MethodBody) : Prop extends g.Exact m where
  scope_env : ∀ s, (g.scope s).env = none
  envs : g.envs = #[]
  closure_envs : ∀ c, (g.closure c).envs = ∅
  host : ∀ c, (g.closure c).host = none

variable {g g' : Graph} {m : MethodBody} {c d : ClosureId} {f : NestedFunction} {v : Variable}

theorem Holds.receiver_eq (h : g.Holds m) : g.receiver = m.receiver := by
  rw [receiver, h.body]
  rfl

/-- Exactness depends on the shape and on what the closures capture. -/
theorem Exact.of_closures (h : g.Exact m) (hshape : g'.shape = g.shape)
    (hcaptured : ∀ c, (g'.closure c).captured = (g.closure c).captured)
    (hreceiver : ∀ c, (g'.closure c).capturesReceiver = (g.closure c).capturesReceiver)
    (hdelegate : ∀ c, (g'.closure c).isDelegate = (g.closure c).isDelegate) : g'.Exact m where
  holds := h.holds.of_shape hshape
  captured c hc v := by
    rw [hcaptured, function_of_shape hshape]
    exact h.captured c (by rwa [size_closures_of_shape hshape] at hc) v
  capturesReceiver c := by
    rw [hreceiver, hcaptured]
    exact h.capturesReceiver c
  isDelegate c hc := by
    rw [hdelegate, function_of_shape hshape]
    exact h.isDelegate c (by rwa [size_closures_of_shape hshape] at hc)
  resolved s hs := (h.resolved s hs).of_shape hshape

/-- In the collected graph of a body, dependencies are those of the functions. -/
theorem Collected.mem_dependencies_iff (h : g.Holds m) (hblank : g.Blank)
    (hcol : Collected m.numbered.sites g g') (hc : c < g.closures.size) :
    d ∈ (g'.closure c).dependencies ↔
      d < g.closures.size ∧ m.DependsOn (g.closure c).function (g.closure d).function := by
  have hempty : d ∉ (g.closure c).dependencies := by
    rw [hblank.closure c hc]
    exact OrderedSet.not_mem_empty d
  rw [hcol.dependencies c hc]
  constructor
  · rintro (hd | ⟨⟨p, n⟩, hs, hp, f, hf, hd⟩)
    · exact absurd hd hempty
    · obtain ⟨hlt, rfl⟩ := h.closureOf_eq_some.mp hd
      exact ⟨hlt, p, n, hs, hp, hf⟩
  · rintro ⟨hd, p, n, hs, hp, hf⟩
    exact .inr ⟨(p, n), hs, hp, _, hf, h.closureOf_eq_some.mpr ⟨hd, rfl⟩⟩

/-- A function on which another depends has a closure. -/
theorem Holds.closure_of_dependsOn (h : g.Holds m)
    (hresolved : ∀ s ∈ m.numbered.sites, g.Resolved s) {k : NestedFunction}
    (hk : m.DependsOn f k) : ∃ d < g.closures.size, (g.closure d).function = k := by
  obtain ⟨p, n, hs, -, hf | hu⟩ := hk
  · obtain ⟨⟨fn, b⟩, hn, hf⟩ := Option.bind_eq_some_iff.mp hf
    obtain ⟨f', d, hf', hd⟩ := (h.lays p n hs).function fn b hn
    obtain rfl := Option.some.inj (hf'.symm.trans hf)
    exact ⟨d, hd.lt, hd.function⟩
  · obtain ⟨f', d, hf', hd⟩ := (hresolved _ hs).use _ hu
    obtain rfl := Option.some.inj hf'
    exact ⟨d, h.closureOf_eq_some.mp hd⟩

/-- In the collected graph of a body, a closure inherits what reaches its function. -/
theorem Collected.inherits_iff (h : g.Holds m) (hblank : g.Blank)
    (hcol : Collected m.numbered.sites g g') (hc : c < g.closures.size) :
    g'.Inherits c v ↔ m.Captures (g.closure c).function v := by
  have hbody {c : ClosureId} (hc : c < g.closures.size) {v : Variable} :
      g.bodyDeclares c v = false ↔ ¬ m.DeclaresWithin (g.closure c).function v := by
    rw [← Bool.not_eq_true]
    exact not_congr (h.bodyDeclares_iff hc)
  have hown {c : ClosureId} (hc : c < g.closures.size) {v : Variable} :
      v ∈ (g'.closure c).captured ↔
        m.Refers (g.closure c).function v ∧ ¬ m.DeclaresWithin (g.closure c).function v := by
    have hempty : v ∉ (g.closure c).captured := by
      rw [hblank.closure c hc]
      exact OrderedSet.not_mem_empty v
    rw [hcol.captured c hc, h.receiver_eq, hbody hc]
    constructor
    · rintro (hv | ⟨⟨p, n⟩, hs, hp, hr, hv⟩)
      · exact absurd hv hempty
      · exact ⟨⟨p, n, hs, hp, hr⟩, hv⟩
    · rintro ⟨⟨p, n, hs, hp, hr⟩, hv⟩
      exact .inr ⟨(p, n), hs, hp, hr, hv⟩
  constructor
  · intro hv
    induction hv with
    | own hv => exact .own ((hown hc).mp hv).1 ((hown hc).mp hv).2
    | @through c d v hd _ hv ih =>
      obtain ⟨hlt, hd⟩ := (hcol.mem_dependencies_iff h hblank hc).mp hd
      rw [bodyDeclares_of_shape hcol.shape] at hv
      exact .through hd (ih hlt) ((hbody hc).mp hv)
  · intro hv
    refine MethodBody.Captures.induction (P := fun f => ∀ c < g.closures.size,
      (g.closure c).function = f → g'.Inherits c v) ?_ ?_ hv c hc rfl
    · rintro f hr hv c hc rfl
      exact .own ((hown hc).mpr ⟨hr, hv⟩)
    · rintro f k hd ih hv c hc rfl
      obtain ⟨d, hlt, rfl⟩ := h.closure_of_dependsOn hcol.resolved hd
      refine .through ((hcol.mem_dependencies_iff h hblank hc).mpr ⟨hlt, hd⟩) (ih d hlt rfl) ?_
      rw [bodyDeclares_of_shape hcol.shape]
      exact (hbody hc).mpr hv

/-! ## Accepted bodies -/

@[simp] theorem closure_markReceiverCaptures (g : Graph) (c : ClosureId) :
    g.markReceiverCaptures.closure c = if c < g.closures.size then
      { g.closure c with capturesReceiver := g.receiver.any (· ∈ (g.closure c).captured) }
    else default := by
  by_cases hc : c < g.closures.size <;> simp [markReceiverCaptures, closure, hc]

theorem shape_markReceiverCaptures (g : Graph) : g.markReceiverCaptures.shape = g.shape := by
  simp only [shape, markReceiverCaptures, Array.map_map]
  rfl

end Graph

theorem Draft.isOk_findCaptures {d : Draft} (h : d.findCaptures.isOk) :
    d.collect.isOk ∧ (d.collect.graph.propagate 0).2 = none ∧
      d.findCaptures.graph = (d.collect.graph.propagate 0).1.markReceiverCaptures := by
  unfold findCaptures at h ⊢
  simp only at h ⊢
  split at h
  · rename_i hok
    rw [if_pos hok]
    split at h
    · rename_i g heq
      rw [heq]
      exact ⟨hok, rfl, rfl⟩
    · simp [isOk] at h
  · rename_i hok
    exact absurd h hok

open Unnest.Graph in
/-- What is known about an accepted body. -/
theorem MethodBody.Accepted.analysed {m : MethodBody} (h : m.Accepted) :
    m.captured.graph.Analysed m := by
  have hholds : m.built.graph.Holds m := Draft.holds_of_build h.built
  have hblank : m.built.graph.Blank := Draft.blank_build m
  obtain ⟨hok, hend, heq⟩ := Draft.isOk_findCaptures h.captured
  have hcol := Draft.collected_of_isOk (d := { graph := m.built.graph }) hholds hok
  rw [MethodBody.captured, heq]
  set g := m.built.graph with hg
  set g₁ := (Draft.collect { graph := g }).graph
  have hsound := g₁.sound_propagation 0
  set g₂ := (g₁.propagate 0).1 with hg₂
  have hshape₂ : g₂.shape = g.shape := hsound.shape.trans hcol.shape
  have hshape := (shape_markReceiverCaptures g₂).trans hshape₂
  have hsize : g₂.closures.size = g.closures.size := size_closures_of_shape hshape₂
  -- an entry of the result, and an index beyond its end
  have hclosure (c : ClosureId) (hc : c < g.closures.size) :
      g₂.markReceiverCaptures.closure c = { g₁.closure c with
        captured := (g₂.closure c).captured
        capturesReceiver := g₂.receiver.any (· ∈ (g₂.closure c).captured) } := by
    rw [closure_markReceiverCaptures, if_pos (by rwa [hsize])]
    conv_lhs => rw [show g₂.closure c = _ from hsound.closure c]
    rfl
  have hbeyond (c : ClosureId) (hc : ¬ c < g.closures.size) :
      g₂.markReceiverCaptures.closure c = default := by
    rw [closure_markReceiverCaptures, if_neg (by rwa [hsize])]
  have hfunction (c : ClosureId) : (g₂.markReceiverCaptures.closure c).function =
      (g.closure c).function := function_of_shape hshape c
  constructor
  case toExact =>
    constructor
    case holds => exact hholds.of_shape hshape
    case captured =>
      intro c hc v
      have hc : c < g.closures.size := by rwa [size_closures_of_shape hshape] at hc
      rw [hfunction, hclosure c hc, ← hcol.inherits_iff hholds hblank hc]
      exact mem_captured_propagate hend
    case capturesReceiver =>
      intro c
      by_cases hc : c < g.closures.size
      · rw [hclosure c hc, receiver_of_shape hshape₂, hholds.receiver_eq]
        cases m.receiver <;> simp
      · rw [hbeyond c hc]
        simp [show (default : Closure).captured = ∅ from rfl,
          show (default : Closure).capturesReceiver = false from rfl]
    case isDelegate =>
      intro c hc
      have hc : c < g.closures.size := by rwa [size_closures_of_shape hshape] at hc
      have hold : (g.closure c).isDelegate = (g.closure c).function.isDelegate := by
        rw [hblank.closure c hc]
        rfl
      rw [hfunction, hclosure c hc, ← hold]
      refine (hcol.isDelegate c hc).trans (or_congr_right ⟨?_, ?_⟩)
      · rintro ⟨⟨p, n⟩, hs, hn⟩
        obtain ⟨loc, rfl⟩ := Node.eq_of_named hn
        exact ⟨p, loc, hs⟩
      · rintro ⟨p, loc, hs⟩
        exact ⟨_, hs, rfl⟩
    case resolved =>
      intro s hs
      exact (hcol.resolved s hs).of_shape hshape
  case scope_env =>
    intro s
    have : g₂.scopes = g.scopes := hsound.scopes.trans hcol.scopes
    rw [scope, show g₂.markReceiverCaptures.scopes = g₂.scopes from rfl, this]
    exact hblank.scope s
  case envs => exact hsound.envs.trans (hcol.envs.trans hblank.envs)
  case closure_envs =>
    intro c
    by_cases hc : c < g.closures.size
    · rw [hclosure c hc]
      exact (hcol.placement c).1.trans (by rw [hblank.closure c hc]; rfl)
    · rw [hbeyond c hc]
      rfl
  case host =>
    intro c
    by_cases hc : c < g.closures.size
    · rw [hclosure c hc]
      exact (hcol.placement c).2.trans (by rw [hblank.closure c hc]; rfl)
    · rw [hbeyond c hc]
      rfl

/-- In an accepted body a closure captures a variable exactly if the variable reaches its function
along a path; it captures the receiver exactly if that is one of these variables; and it is used as
a value exactly if its function says so or is named somewhere in the body. -/
theorem MethodBody.mem_captured_iff_path {m : MethodBody} (h : m.Accepted) {c : ClosureId}
    (hc : c < m.captured.graph.closures.size) :
    (∀ v, v ∈ (m.captured.graph.closure c).captured ↔
        m.Captures (m.captured.graph.closure c).function v) ∧
      ((m.captured.graph.closure c).capturesReceiver = true ↔
        ∃ r, m.receiver = some r ∧ m.Captures (m.captured.graph.closure c).function r) ∧
      ((m.captured.graph.closure c).isDelegate = true ↔
        (m.captured.graph.closure c).function.isDelegate = true ∨
          ∃ p loc, (p, .expr (.functionRef loc (some (m.captured.graph.closure c).function))) ∈
            m.numbered.sites) := by
  have ha := h.analysed
  refine ⟨ha.captured c hc, ?_, ha.isDelegate c hc⟩
  rw [ha.capturesReceiver]
  exact exists_congr fun r => and_congr_right fun _ => ha.captured c hc r

/-! ## An example -/

namespace Counter

/-- The receiver of `Count`. -/
def widget : Variable := ⟨.given 0, .receiver, "this", "Widget", false⟩

def limit : Variable := ⟨.given 1, .parameter, "limit", "int", false⟩

def step : Variable := ⟨.given 2, .declared, "step", "int", false⟩

def offset : Variable := ⟨.given 3, .parameter, "offset", "int", false⟩

def next : NestedFunction :=
  { id := 0, form := .localFunction, name := "next", returnType := "int", params := [some offset] }

def read : NestedFunction := { id := 1, form := .lambda, name := "read", returnType := "int" }

/-- `Count` declares `step` and calls a local function, in which a lambda reads `step`, the
receiver and the parameter of the local function. -/
def count : MethodBody where
  method := some
    { id := .given 0, name := "Count", owner := "Widget", params := [some limit]
      returnType := "int" }
  receiver := some widget
  block := some (.mk 0 {}
    [.declare {} (some step) (some (.ref {} (some limit))),
      .localFunction {} (some next) (.mk 0 {}
        [.expr {} (.lambda {} (some read) (.mk 0 {}
          [.ret {} (some (.binary {} "+" (.self {} "Widget")
            (.binary {} "+" (.ref {} (some step)) (.ref {} (some offset)))))]))]),
      .expr {} (.localCall {} next [.literal {} "1" "int"])])

theorem accepted_count : count.Accepted := ⟨by decide +kernel, by decide +kernel⟩

end Counter

open Counter in
/-- The local function captures through the lambda inside it, but not its own parameter. -/
theorem MethodBody.captures_count : count.Accepted ∧ 0 < count.captured.graph.closures.size ∧
    count.Captures next step ∧ count.Captures next widget ∧ ¬ count.Captures next offset := by
  have hsize : 0 < count.captured.graph.closures.size := by decide +kernel
  have hnext : (count.captured.graph.closure 0).function = next := by decide +kernel
  obtain ⟨hcaptured, -⟩ := mem_captured_iff_path accepted_count hsize
  rw [hnext] at hcaptured
  refine ⟨accepted_count, hsize, (hcaptured step).mp ?_, (hcaptured widget).mp ?_,
    fun h => absurd ((hcaptured offset).mpr h) ?_⟩ <;> decide +kernel

end Unnest
