import Unnest.Proofs.Captures.Exact

/-!
# Captures and nesting

Where functions are called and named only inside the block that declares them, a closure captures
only variables of the scopes around its home. And whatever a closure captures from outside the
closures around it, those capture as well: capture sets are closed outwards.

## Main statements

* `Graph.Exact.mem_ancestors_home` : captured variables are declared around the closure.
* `Graph.Exact.captured_of_nested` : capture sets are closed outwards.
-/

namespace Unnest

namespace Graph

variable {g : Graph} {m : MethodBody} {p : Path} {n : Node} {a b s t : ScopeId} {c d : ClosureId}
  {f : NestedFunction} {v : Variable}

/-! ## Chains -/

/-- What follows a scope in a chain are the scopes around it. -/
theorem ancestors_of_append {before after : List ScopeId}
    (h : g.ancestors t = before ++ a :: after) : g.ancestors a = a :: after := by
  induction before generalizing t with
  | nil =>
    obtain ⟨rfl, -⟩ : t = a ∧ _ := by
      rw [ancestors, List.nil_append, List.cons.injEq] at h
      exact h
    exact h
  | cons x before ih =>
    rw [ancestors, List.cons_append, List.cons.injEq] at h
    obtain ⟨-, h⟩ := h
    split at h
    · split at h
      · exact ih h
      · simp at h
    · simp at h

namespace Holds

/-- The body of a closure is directly inside its home. -/
theorem ancestors_body (h : g.Holds m) (hc : c < g.closures.size) :
    g.ancestors (g.closure c).body = (g.closure c).body :: g.ancestors (g.closure c).home := by
  obtain ⟨p, n, b, hn, hn', hlays⟩ := h.site_of_closure hc
  have hhome : (g.closure c).home = p.scope :=
    Option.some.inj (hlays.home.trans (MethodBody.leads_of_mem_sites hn).head_blocks)
  rw [hlays.body, hhome]
  exact h.ancestors_opened hn (Node.opened_of_nested hn')

/-- A function stands in the home of its closure. -/
theorem home_eq (h : g.Holds m) (hn : (p, n) ∈ m.numbered.sites) (hc : c < g.closures.size)
    (hf : n.function? = some (g.closure c).function) : (g.closure c).home = p.scope := by
  obtain ⟨⟨fn, b⟩, hn', hfn⟩ := Option.bind_eq_some_iff.mp hf
  obtain ⟨f, d, hf', hlays⟩ := (h.lays p n hn).function fn b hn'
  have hfun : (g.closure d).function = (g.closure c).function := by
    rw [hlays.function]
    exact Option.some.inj (hf'.symm.trans hfn)
  obtain rfl := h.closure_inj hlays.lt hc hfun
  exact Option.some.inj (hlays.home.trans (MethodBody.leads_of_mem_sites hn).head_blocks)

/-- A scope around a place inside the body of a closure is inside the body or around the closure. -/
theorem mem_body_or_home (h : g.Holds m) (hc : c < g.closures.size)
    (hbody : (g.closure c).body ∈ g.ancestors t) (hs : s ∈ g.ancestors t) :
    (g.closure c).body ∈ g.ancestors s ∨ s ∈ g.ancestors (g.closure c).home := by
  rcases mem_ancestors_or hbody hs with hmem | hmem
  · exact .inl hmem
  · rw [h.ancestors_body hc, List.mem_cons] at hmem
    rcases hmem with rfl | hmem
    · exact .inl (g.self_mem_ancestors _)
    · exact .inr hmem

/-- A closure around another comes before it. -/
theorem lt_of_body_mem (h : g.Holds m) (hc : c < g.closures.size) (hd : d < g.closures.size)
    (hbody : (g.closure d).body ∈ g.ancestors (g.closure c).home) : d < c := by
  have hmem : (g.closure d).body ∈ g.ancestors (g.closure c).body := by
    rw [h.ancestors_body hc]
    exact List.mem_cons_of_mem _ hbody
  by_contra hlt
  have hle : c ≤ d := Nat.le_of_not_lt hlt
  rcases Nat.eq_or_lt_of_le hle with rfl | hlt
  · -- the body of a closure is not around the closure
    have hhome : (g.closure c).home ∈ g.ancestors (g.closure c).body := by
      rw [h.ancestors_body hc]
      exact List.mem_cons_of_mem _ (g.self_mem_ancestors _)
    have heq := ancestors_antisymm hbody hhome
    have hlen := congrArg List.length (h.ancestors_body hc)
    rw [← heq] at hlen
    simp at hlen
  · have := h.tidy.body_lt_body c d hlt hd
    exact absurd (le_of_mem_ancestors hmem) (by lia)

/-- The closure whose frame a scope belongs to, if any, is the innermost one around it. -/
theorem mem_body_of_frame (h : g.Holds m) (hframe : g.frame? t = some c)
    (hd : d < g.closures.size) (hbody : (g.closure d).body ∈ g.ancestors t) :
    (g.closure d).body ∈ g.ancestors (g.closure c).body := by
  obtain ⟨before, a, after, heq, howner, hnone⟩ := List.findSome?_eq_some_iff.mp hframe
  obtain ⟨-, rfl⟩ := h.owner_eq_some.mp howner
  rw [ancestors_of_append heq]
  rw [heq, List.mem_append] at hbody
  refine hbody.resolve_left fun hmem => ?_
  simpa [h.owner_eq_some.mpr ⟨hd, rfl⟩] using hnone _ hmem

end Holds

/-! ## Captures -/

namespace Exact

variable (h : g.Exact m)

include h

/-- A captured variable is declared in some scope. -/
theorem exists_scope_of_captured (hv : v ∈ (g.closure c).captured) : ∃ s, v ∈ (g.scope s).vars := by
  obtain ⟨fs, -, ⟨p, n, hn, -, href⟩, -⟩ := (h.captured c (lt_of_mem_captured hv) v).mp hv
  rw [← h.holds.receiver_eq] at href
  obtain ⟨w, a, hw, ha, -⟩ := (h.resolved _ hn).reference _ href
  obtain rfl := Option.some.inj hw
  exact ⟨a, mem_of_declaringScope ha⟩

/-- A closure captures what a closure captures that it contains, calls or names. -/
theorem captured_of_dependsOn (hc : c < g.closures.size) (hd : d < g.closures.size)
    (hdep : m.DependsOn (g.closure c).function (g.closure d).function)
    (hv : v ∈ (g.closure d).captured) (hout : g.bodyDeclares c v = false) :
    v ∈ (g.closure c).captured := by
  rw [h.captured c hc]
  refine .through hdep ((h.captured d hd v).mp hv) ?_
  rwa [← Bool.not_eq_true, h.holds.bodyDeclares_iff hc] at hout

/-- A variable is declared outside a closure if the body is not around its scope. -/
theorem bodyDeclares_eq_false (hs : v ∈ (g.scope s).vars)
    (hout : (g.closure c).body ∉ g.ancestors s) : g.bodyDeclares c v = false := by
  rw [bodyDeclares, h.holds.declaringScope_eq_some.mpr hs]
  exact Bool.eq_false_iff.mpr fun henc => hout (h.holds.ranked.encloses_iff_mem.mp henc)

/-- A closure captures nothing that its body declares. -/
theorem body_not_mem_of_captured (hv : v ∈ (g.closure c).captured) (hs : v ∈ (g.scope s).vars) :
    (g.closure c).body ∉ g.ancestors s := by
  intro hin
  have hc := lt_of_mem_captured hv
  obtain ⟨fs, -, -, hout⟩ := (h.captured c hc v).mp hv
  apply hout _ List.mem_cons_self
  refine (h.holds.bodyDeclares_iff hc).mp ?_
  rw [bodyDeclares, h.holds.declaringScope_eq_some.mpr hs]
  exact h.holds.ranked.encloses_iff_mem.mpr hin

/-- The home of a function is around every place that contains, calls or names it. -/
theorem home_mem_of_use (hcalls : m.CallsInScope) (hn : (p, n) ∈ m.numbered.sites)
    (hd : d < g.closures.size) (hf : n.function? = some (g.closure d).function ∨
      n.use? = some (some (g.closure d).function)) :
    (g.closure d).home ∈ g.ancestors p.scope := by
  have hp := MethodBody.leads_of_mem_sites hn
  rcases hf with hf | hu
  · rw [h.holds.home_eq hn hd hf]
    exact g.self_mem_ancestors _
  · obtain ⟨q, k, b, hk, hf, hb, hmem⟩ := hcalls p n _ hn hu
    have hq := (MethodBody.leads_of_mem_sites hk).head_blocks
    rw [h.holds.home_eq hk hd hf, Option.some.inj (hq.symm.trans hb), ← h.holds.blocks_eq hp]
    exact hmem

/-- A captured variable is declared around the closure, if it is visible wherever a function that
captures it is called or named in one that does not declare it. -/
theorem mem_ancestors_of_visible
    (hvisible : ∀ p n c d, (p, n) ∈ m.numbered.sites → c < g.closures.size →
      p.functions.head? = some (g.closure c).function → d < g.closures.size →
      n.use? = some (some (g.closure d).function) → m.Captures (g.closure d).function v →
      ¬ m.DeclaresWithin (g.closure c).function v →
      (∃ s ∈ g.ancestors (g.closure d).home, v ∈ (g.scope s).vars) →
      ∃ s ∈ g.ancestors p.scope, v ∈ (g.scope s).vars)
    (hv : v ∈ (g.closure c).captured) :
    ∃ s ∈ g.ancestors (g.closure c).home, v ∈ (g.scope s).vars := by
  have hc := lt_of_mem_captured hv
  -- in both cases the variable is visible at a place inside the closure and declared outside
  have hhome {p : Path} {n : Node} {c : ClosureId} (hn : (p, n) ∈ m.numbered.sites)
      (hc : c < g.closures.size) (hp : p.functions.head? = some (g.closure c).function)
      (hout : ¬ m.DeclaresWithin (g.closure c).function v)
      (hs : ∃ s ∈ g.ancestors p.scope, v ∈ (g.scope s).vars) :
      ∃ s ∈ g.ancestors (g.closure c).home, v ∈ (g.scope s).vars := by
    obtain ⟨s, hs, hvs⟩ := hs
    have hbody := (h.holds.mem_functions_iff (MethodBody.leads_of_mem_sites hn) hc).mp
      (List.mem_of_mem_head? hp)
    refine ⟨s, (h.holds.mem_body_or_home hc hbody hs).resolve_left fun hin => hout ?_, hvs⟩
    refine (h.holds.bodyDeclares_iff hc).mp ?_
    rw [bodyDeclares, h.holds.declaringScope_eq_some.mpr hvs]
    exact h.holds.ranked.encloses_iff_mem.mpr hin
  refine (MethodBody.Captures.induction (P := fun f => m.Captures f v ∧ ∀ c < g.closures.size,
    (g.closure c).function = f → ∃ s ∈ g.ancestors (g.closure c).home, v ∈ (g.scope s).vars)
    ?_ ?_ ((h.captured c hc v).mp hv)).2 c hc rfl
  · refine fun f hr hout => ⟨.own hr hout, ?_⟩
    rintro c hc rfl
    obtain ⟨p, n, hn, hp, hr⟩ := hr
    rw [← h.holds.receiver_eq] at hr
    obtain ⟨w, a, hw, ha, henc⟩ := (h.resolved _ hn).reference _ hr
    obtain rfl := Option.some.inj hw
    exact hhome hn hc hp hout ⟨a, h.holds.ranked.encloses_iff_mem.mp henc, mem_of_declaringScope ha⟩
  · refine fun f k hdep ih hout => ⟨.through hdep ih.1 hout, ?_⟩
    rintro c hc rfl
    obtain ⟨d, hd, rfl⟩ := h.holds.closure_of_dependsOn h.resolved hdep
    obtain ⟨p, n, hn, hp, hf | hu⟩ := hdep
    · exact hhome hn hc hp hout (h.holds.home_eq hn hd hf ▸ ih.2 d hd rfl)
    · exact hhome hn hc hp hout (hvisible p n c d hn hc hp hd hu ih.1 hout (ih.2 d hd rfl))

/-- A closure captures only variables of the scopes around it. -/
theorem mem_ancestors_home (hcalls : m.CallsInScope) (hv : v ∈ (g.closure c).captured) :
    ∃ s ∈ g.ancestors (g.closure c).home, v ∈ (g.scope s).vars := by
  apply h.mem_ancestors_of_visible _ hv
  rintro p n c d hn - - hd hu - - ⟨s, hs, hvs⟩
  exact ⟨s, mem_ancestors_trans hs (h.home_mem_of_use hcalls hn hd (.inr hu)), hvs⟩

/-- What a closure captures from outside a closure around it, that one captures as well. -/
theorem captured_of_nested (hv : v ∈ (g.closure c).captured) (hs : v ∈ (g.scope s).vars)
    (hd : d < g.closures.size) (hbody : (g.closure d).body ∈ g.ancestors (g.closure c).home)
    (hout : (g.closure d).body ∉ g.ancestors s) : v ∈ (g.closure d).captured := by
  induction c using Nat.strongRecOn with
  | ind c ih =>
    have hc := lt_of_mem_captured hv
    obtain ⟨q, k, b, hk, hk', hlays⟩ := h.holds.site_of_closure hc
    have hq := MethodBody.leads_of_mem_sites hk
    have hf : k.function? = some (g.closure c).function := by simp [Node.function?, hk']
    have hhome := h.holds.home_eq hk hc hf
    -- the innermost closure around `c` contains it
    obtain ⟨c₁, hframe⟩ : ∃ c₁, g.frame? q.scope = some c₁ := by
      refine Option.isSome_iff_exists.mp (List.findSome?_isSome_iff.mpr ⟨_, hhome ▸ hbody, ?_⟩)
      rw [h.holds.owner_eq_some.mpr ⟨hd, rfl⟩]
      rfl
    have hinner := h.holds.mem_body_of_frame hframe hd (hhome ▸ hbody)
    rw [h.holds.frame_eq hq] at hframe
    obtain ⟨f, hhead, hcl⟩ := Option.bind_eq_some_iff.mp hframe
    obtain ⟨hc₁, rfl⟩ := h.holds.closureOf_eq_some.mp hcl
    have hout₁ : (g.closure c₁).body ∉ g.ancestors s :=
      fun hmem => hout (mem_ancestors_trans hinner hmem)
    have hv₁ : v ∈ (g.closure c₁).captured :=
      h.captured_of_dependsOn hc₁ hc ⟨q, k, hk, hhead, .inl hf⟩ hv
        (h.bodyDeclares_eq_false hs hout₁)
    rw [h.holds.ancestors_body hc₁, List.mem_cons] at hinner
    rcases hinner with heq | hinner
    · have : d = c₁ := by
        have howner := h.holds.owner_eq_some.mpr ⟨hd, rfl⟩
        rw [heq, h.holds.owner_eq_some.mpr ⟨hc₁, rfl⟩] at howner
        exact (Option.some.inj howner).symm
      exact this ▸ hv₁
    · refine ih c₁ ?_ hv₁ hinner
      refine h.holds.lt_of_body_mem hc hc₁ ?_
      rw [hhome]
      exact (h.holds.mem_functions_iff hq hc₁).mp (List.mem_of_mem_head? hhead)

end Exact

end Graph

end Unnest
