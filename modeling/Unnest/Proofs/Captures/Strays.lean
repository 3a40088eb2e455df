import Unnest.Proofs.Captures.Contract
import Unnest.Proofs.Captures.Nesting
import Unnest.Proofs.Captures.Order

/-!
# Functions used outside their block

A variable must be declared around each reference to it. Nothing of the kind is asked of nested
functions: it is enough that a function that is called or named is declared somewhere in the body.
So a body may be accepted in which a function is used outside the block that declares it, and the
variables that the function captures then reach closures that are not inside the scopes of these
variables.

## Main statements

* `Graph.Exact.captured_visible_iff` : closures capture only what is declared around them exactly if
  what a function captures is visible wherever the function is used.
* `MethodBody.accepts_strays` : which bodies are refused for a use outside its block.
-/

namespace Unnest

namespace MethodBody

variable (m : MethodBody)

/-- Where a function calls or names another one, what that one captures is declared around the place
or somewhere in the function itself. -/
def CapturesVisible : Prop :=
  ∀ p n f k v, (p, n) ∈ m.numbered.sites → p.functions.head? = some f →
    n.use? = some (some k) → m.Captures k v →
      m.DeclaresWithin f v ∨ ∃ q, m.Declares q v ∧ q.scope ∈ p.blocks

/-- Every variable is referred to only inside the block that declares it. -/
def ReferencesInScope : Prop :=
  ∀ p n v, (p, n) ∈ m.numbered.sites → n.reference? m.receiver = some (some v) →
    ∃ q, m.Declares q v ∧ q.scope ∈ p.blocks

end MethodBody

namespace Graph.Exact

variable {g : Graph} {m : MethodBody} (h : g.Exact m)

include h

/-- Every captured variable is declared in the home of the closure or around it, exactly if captured
variables are visible wherever functions are used. -/
theorem captured_visible_iff :
    (∀ c, ∀ v ∈ (g.closure c).captured,
        ∃ s ∈ g.ancestors (g.closure c).home, v ∈ (g.scope s).vars) ↔ m.CapturesVisible := by
  have hplace {p : Path} {n : Node} {v : Variable} (hn : (p, n) ∈ m.numbered.sites) :
      (∃ s ∈ g.ancestors p.scope, v ∈ (g.scope s).vars) ↔
        ∃ q, m.Declares q v ∧ q.scope ∈ p.blocks := by
    rw [h.holds.blocks_eq (MethodBody.leads_of_mem_sites hn)]
    constructor
    · rintro ⟨s, hs, hv⟩
      obtain ⟨q, hq, rfl⟩ := h.holds.declares_of_mem_vars hv
      exact ⟨q, hq, hs⟩
    · rintro ⟨q, hq, hmem⟩
      exact ⟨q.scope, hmem, h.holds.mem_vars_of_declares hq⟩
  constructor
  · intro hhome p n f k v hn hp hu hk
    by_cases hout : m.DeclaresWithin f v
    · exact .inl hout
    right
    -- the function captures what it uses, and its body is inside the scopes around its home
    have hdep : m.DependsOn f k := ⟨p, n, hn, hp, .inr hu⟩
    have hlead := MethodBody.leads_of_mem_sites hn
    have hf : m.Captures f v := .through hdep hk hout
    obtain ⟨c, hc, rfl⟩ := h.holds.closure_of_captures hf
    obtain ⟨s, hs, hvs⟩ := hhome c v ((h.captured c hc v).mpr hf)
    have hbody := (h.holds.mem_functions_iff hlead hc).mp (List.mem_of_mem_head? hp)
    have haround : s ∈ g.ancestors (g.closure c).body := by
      rw [h.holds.ancestors_body hc]
      exact List.mem_cons_of_mem _ hs
    exact (hplace hn).mp ⟨s, mem_ancestors_trans haround hbody, hvs⟩
  · intro hvisible c v hv
    apply h.mem_ancestors_of_visible _ hv
    intro p n c d hn _ hp _ hu hk hout _
    exact (hplace hn).mpr ((hvisible p n _ _ v hn hp hu hk).resolve_left hout)

end Graph.Exact

namespace MethodBody

variable {m : MethodBody}

theorem isOk_captured_iff (hb : m.built.isOk) : m.captured.isOk ↔ m.WellFormed := by
  constructor
  · intro hok
    exact Accepted.wellFormed ⟨hb, hok⟩
  · intro h
    exact h.isAccepted.captured

/-- Once the scopes of a body are built, finding its captures fails exactly if the body is not
well-formed, and then as malformed. -/
theorem malformed_iff_not_wellFormed (hb : m.built.isOk) :
    (∃ f, m.captured.failure = some f ∧ f.kind = .malformedInput) ↔ ¬ m.WellFormed := by
  rw [← isOk_captured_iff hb]
  cases hfailure : m.captured.failure with
  | none => simp [Draft.isOk, hfailure]
  | some f => simp [Draft.isOk, hfailure, m.malformed_captured f hfailure]

theorem WellFormed.referencesInScope (h : m.WellFormed) : m.ReferencesInScope := by
  intro p n v hn href
  obtain ⟨w, q, hw, hq, hmem⟩ := h.reference p n _ hn href
  obtain rfl := Option.some.inj hw
  exact ⟨q, hq, hmem⟩

/-- A reference outside the block of its variable makes a body malformed. A use of a function
outside its block does not: such a body is refused exactly if it is malformed for another reason. If
a body is accepted, every captured variable is declared in the home of the closure or around it
exactly if what a function captures is visible wherever the function is used, as it is if functions
are used inside their blocks. -/
theorem accepts_strays (m : MethodBody) :
    (m.built.isOk → ¬ m.ReferencesInScope →
      ∃ f, m.captured.failure = some f ∧ f.kind = .malformedInput) ∧
    ((m.built.isOk → ¬ m.CallsInScope →
        ∃ f, m.captured.failure = some f ∧ f.kind = .malformedInput) ↔
      (m.WellFormed → m.CallsInScope)) ∧
    (m.Accepted →
      ((∀ c, ∀ v ∈ (m.captured.graph.closure c).captured,
          ∃ s ∈ m.captured.graph.ancestors (m.captured.graph.closure c).home,
            v ∈ (m.captured.graph.scope s).vars) ↔ m.CapturesVisible) ∧
      (m.CallsInScope → m.CapturesVisible)) := by
  refine ⟨fun hb hrefs => ?_, ⟨fun h hwf => ?_, fun h hb hcalls => ?_⟩, fun h => ?_⟩
  · rw [malformed_iff_not_wellFormed hb]
    exact fun hwf => hrefs hwf.referencesInScope
  · by_contra hcalls
    exact (malformed_iff_not_wellFormed hwf.isOk_built).mp (h hwf.isOk_built hcalls) hwf
  · rw [malformed_iff_not_wellFormed hb]
    exact fun hwf => hcalls (h hwf)
  · have hx := h.analysed.toExact
    refine ⟨hx.captured_visible_iff, fun hcalls => hx.captured_visible_iff.mp fun c v hv => ?_⟩
    exact hx.mem_ancestors_home hcalls hv

end MethodBody

namespace Counter

def tally : NestedFunction :=
  { id := 2, form := .localFunction, name := "tally", returnType := "int" }

/-- A lambda calls `tally` outside the block that declares `tally` and the variable it reads. -/
def trespass : MethodBody where
  method := count.method
  receiver := some widget
  block := some (.mk 0 {}
    [.block (.mk 0 {}
      [.declare {} (some step) none,
        .localFunction {} (some tally) (.mk 0 {} [.ret {} (some (.ref {} (some step)))])]),
      .expr {} (.lambda {} (some read) (.mk 0 {} [.ret {} (some (.localCall {} tally []))]))])

theorem accepted_trespass : trespass.Accepted := ⟨by decide +kernel, by decide +kernel⟩

end Counter

open Counter in
/-- The captures of `Count`, where functions are used inside their blocks, are visible; those of a
body that calls a function outside its block are not. -/
theorem MethodBody.strays_count : count.Accepted ∧ count.CallsInScope ∧ count.CapturesVisible ∧
    trespass.Accepted ∧ ¬ trespass.CapturesVisible := by
  have hcalls : count.CallsInScope := by decide +kernel
  refine ⟨accepted_count, hcalls, ((accepts_strays count).2.2 accepted_count).2 hcalls,
    accepted_trespass, fun hvisible => ?_⟩
  have hstep : step ∈ (trespass.captured.graph.closure 1).captured := by decide +kernel
  have haround := ((accepts_strays trespass).2.2 accepted_trespass).1.mpr hvisible 1 step hstep
  revert haround
  decide +kernel

open Counter in
/-- A body with a call outside the block of the function is accepted, and its lambda captures a
variable that is declared in none of the scopes around it. -/
theorem MethodBody.trespass_passes : trespass.built.isOk ∧ ¬ trespass.CallsInScope ∧
    trespass.captured.failure = none ∧ step ∈ (trespass.captured.graph.closure 1).captured ∧
      ∀ s ∈ trespass.captured.graph.ancestors (trespass.captured.graph.closure 1).home,
        step ∉ (trespass.captured.graph.scope s).vars := by
  refine ⟨accepted_trespass.built, ?_, ?_, ?_, ?_⟩ <;> decide +kernel

end Unnest
