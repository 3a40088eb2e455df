import Unnest.Proofs.Semantics.Ways

/-!
# Entering blocks

Both runs enter a block at the same time. What is around the new instance is what was around the one
it is entered from, or around the instance that a function closes over; the original run gives it
cells for the variables of its scope, the converted one cells for what stands for them and for what
holds the environment. Once a block is entered in both runs, the stores match up to the environment
of the new instance, which is still to be created: `Layout.Begun`.

## Main definitions

* `Layout.enter` : a layout with one more instance.
* `Lowering.Entry` : what two runs pass to and declare in a scope.

## Main statements

* `Layout.Nested.enter` : instances stay nested as their scopes are.
* `Layout.MatchesTo.enter` : entering a block in both runs.
-/

namespace Unnest

variable {L : Lowering} {m : MethodBody} {r : LoweredBody} {Γ Γ' : Layout} {σ τ : Store}
  {g : Graph} {i j o : Nat} {s t : ScopeId} {e : EnvId} {v x : Variable}
  {outer : ScopeId → Option Nat} {declared declared' : List Variable}
  {args args' : List (Variable × Argument)} {I I' : Instance}

/-- The scope next around a scope comes earlier. -/
theorem Graph.lt_of_ancestors_eq (hs : g.ancestors s = s :: g.ancestors t) : t < s := by
  rcases g.ancestors_cases s with hsingle | ⟨p, rest, hlt, hcons, hp⟩
  · rw [hsingle, Graph.ancestors.eq_def g t] at hs
    exact nomatch (List.cons.inj hs).2
  · rw [hcons, Graph.ancestors.eq_def g t] at hs
    obtain ⟨rfl, -⟩ := List.cons.inj (List.cons.inj hs).2
    exact hlt

namespace Layout

/-! ## New instances -/

/-- A new instance of scope `s`, where `outer` is around it and object `o` is its environment. -/
def enter (Γ : Layout) (s : ScopeId) (outer : ScopeId → Option Nat) (o : Nat) : Layout where
  size := Γ.size + 1
  scope := Function.update Γ.scope Γ.size s
  around := Function.update Γ.around Γ.size (Function.update outer s (some Γ.size))
  object := Function.update Γ.object Γ.size o

@[simp] theorem enter_scope_size (Γ : Layout) : (Γ.enter s outer o).scope Γ.size = s :=
  Function.update_self ..

@[simp] theorem enter_around_size (Γ : Layout) :
    (Γ.enter s outer o).around Γ.size = Function.update outer s (some Γ.size) :=
  Function.update_self ..

@[simp] theorem enter_object_size (Γ : Layout) : (Γ.enter s outer o).object Γ.size = o :=
  Function.update_self ..

theorem extends_enter (Γ : Layout) (s : ScopeId) (outer : ScopeId → Option Nat) (o : Nat) :
    Γ.Extends (Γ.enter s outer o) where
  size := Nat.le_succ Γ.size
  scope _ hi := Function.update_of_ne (Nat.ne_of_lt hi) ..
  around _ hi := Function.update_of_ne (Nat.ne_of_lt hi) ..
  object _ hi := Function.update_of_ne (Nat.ne_of_lt hi) ..

/-- What is around a new instance of scope `s`: instances of the scopes around it. -/
structure Around (Γ : Layout) (g : Graph) (s : ScopeId) (outer : ScopeId → Option Nat) : Prop where
  lt : ∀ t j, outer t = some j → j < Γ.size
  outer : ∀ t ∈ g.ancestors s, t ≠ s → ∃ j, outer t = some j ∧ Γ.scope j = t ∧
    ∀ u ∈ g.ancestors t, Γ.around j u = outer u

/-- Nothing is around the outermost scope. -/
theorem around_root (Γ : Layout) (hs : g.ancestors s = [s]) : Γ.Around g s fun _ => none where
  lt := by simp
  outer t ht hne := absurd (List.mem_singleton.mp (hs ▸ ht)) hne

/-- What is around an instance is around those entered from it. -/
theorem Nested.around (hn : Γ.Nested g) (hi : i < Γ.size)
    (hs : g.ancestors s = s :: g.ancestors (Γ.scope i)) : Γ.Around g s (Γ.around i) where
  lt t j hj := Nat.lt_of_le_of_lt (hn.le i hi t j hj) hi
  outer t ht hne := hn.outer i hi t ((List.mem_cons.mp (hs ▸ ht)).resolve_left hne)

theorem Nested.objectAt_enter (hn : Γ.Nested g) (hi : i < Γ.size) (ht : t ≠ s) :
    (Γ.enter s (Γ.around i) o).objectAt Γ.size t = Γ.objectAt i t := by
  rw [objectAt, objectAt, enter_around_size, Function.update_of_ne ht]
  cases hj : Γ.around i t with
  | none => rfl
  | some j =>
    have hlt := Nat.lt_of_le_of_lt (hn.le i hi t j hj) hi
    simp [(Γ.extends_enter s (Γ.around i) o).object j hlt]

theorem Nested.enter (hn : Γ.Nested g) (ha : Γ.Around g s outer) (o : Nat) :
    (Γ.enter s outer o).Nested g := by
  have hext := Γ.extends_enter s outer o
  constructor
  case self =>
    intro i hi
    rcases Nat.lt_succ_iff_lt_or_eq.mp hi with hi | rfl
    · rw [hext.scope i hi, hext.around i hi]
      exact hn.self i hi
    · simp
  case le =>
    intro i hi t j hj
    rcases Nat.lt_succ_iff_lt_or_eq.mp hi with hi | rfl
    · rw [hext.around i hi] at hj
      exact hn.le i hi t j hj
    · rw [enter_around_size] at hj
      by_cases hts : t = s
      · subst hts
        rw [Function.update_self] at hj
        exact Nat.le_of_eq (Option.some.inj hj).symm
      · rw [Function.update_of_ne hts] at hj
        exact Nat.le_of_lt (ha.lt t j hj)
  case outer =>
    intro i hi t ht
    rcases Nat.lt_succ_iff_lt_or_eq.mp hi with hi | rfl
    · rw [hext.scope i hi] at ht
      obtain ⟨j, hj, hscope, haround⟩ := hn.outer i hi t ht
      have hjlt := Nat.lt_of_le_of_lt (hn.le i hi t j hj) hi
      rw [hext.around i hi]
      exact ⟨j, hj, by rw [hext.scope j hjlt, hscope], by rwa [hext.around j hjlt]⟩
    · rw [enter_scope_size] at ht
      rw [enter_around_size]
      by_cases hts : t = s
      · subst hts
        exact ⟨Γ.size, by simp, by simp, by simp⟩
      · obtain ⟨j, hj, hscope, haround⟩ := ha.outer t ht hts
        have hjlt := ha.lt t j hj
        refine ⟨j, by rwa [Function.update_of_ne hts], by rw [hext.scope j hjlt, hscope], ?_⟩
        intro u hu
        -- scopes around `t` are not inside it
        have hlt : t < s := Nat.lt_of_le_of_ne (Graph.le_of_mem_ancestors ht) hts
        have hus : u ≠ s := Nat.ne_of_lt (Nat.lt_of_le_of_lt (Graph.le_of_mem_ancestors hu) hlt)
        rw [hext.around j hjlt, Function.update_of_ne hus]
        exact haround u hu

/-! ## Growing layouts -/

namespace Extends

variable (hext : Γ.Extends Γ') (hi : i < Γ.size)

include hext hi

theorem sourceAt (h : Γ.SourceAt L i I) : Γ'.SourceAt L i I := by
  obtain ⟨self, around, cells⟩ := h
  rw [← hext.scope i hi, ← hext.around i hi] at *
  exact ⟨self, around, cells⟩

variable (hn : Γ.Nested L.graph)

include hn

theorem targetAt (h : Γ.TargetAt L i I) : Γ'.TargetAt L i I := by
  obtain ⟨self, standIns, holders, envParams⟩ := h
  rw [← hext.selfOf_eq hi hn] at self
  rw [← hext.scope i hi, ← hext.around i hi] at *
  exact ⟨self, standIns, holders, envParams⟩

theorem envAt (h : Γ.EnvAt L τ i e) : Γ'.EnvAt L τ i e := by
  obtain ⟨⟨named, record, object⟩, parent, receiver⟩ := h
  rw [← hext.object i hi] at *
  rw [← hext.parentOf_eq hi hn] at parent
  exact ⟨⟨named, record, object⟩, parent, receiver⟩

omit hi in
theorem callableAt {a b : Callable} (h : Γ.CallableAt L a b) : Γ'.CallableAt L a b := by
  obtain ⟨c, lm, j, hc, hlm, henvs, hj, hscope, rfl, rfl⟩ := h
  refine ⟨c, lm, j, hc, hlm, henvs, Nat.lt_of_lt_of_le hj hext.size, ?_, rfl, ?_⟩
  · rw [hext.scope j hj, hscope]
  · rw [hext.receiverOf_eq hj hn]

end Extends

end Layout

/-! ## What a new instance knows -/

/-- What two runs pass to scope `s` and declare in it: parameters have the same values in both, and
only what belongs to the scope is declared. -/
structure Lowering.Entry (L : Lowering) (s : ScopeId) (declared declared' : List Variable)
    (args args' : List (Variable × Argument)) : Prop where
  own : ∀ v, v ∈ declared ∨ args.lookup v ≠ none → v ∈ (L.graph.scope s).vars
  parameter : ∀ v ∈ (L.graph.scope s).vars, v.role = .parameter → ∃ x,
    args.lookup v = some (.value (.value x)) ∧
      args'.lookup (L.standIn s v) = some (.value (.value x))
  declared : ∀ v ∈ (L.graph.scope s).vars, v.role = .declared → v ∈ declared ∧
    args.lookup v = none ∧ args'.lookup (L.standIn s v) = none ∧
      (L.graph.envOf? v = none → L.standIn s v ∈ declared')
  holder : ∀ e, (L.graph.scope s).env = some e → (∃ k, (L.holder e).id = .holder k e) ∧
    L.holder e ∈ declared' ∧ args'.lookup (L.holder e) = none
  made : ∀ x ∈ declared', (∃ v ∈ (L.graph.scope s).vars, x.StandsFor v) ∨
    ∃ e, (L.graph.scope s).env = some e ∧ x = L.holder e

/-- What an instance of the original run knows that is around a new instance of scope `s`. -/
structure Lowering.SourceAround (L : Lowering) (s : ScopeId) (outer : ScopeId → Option Nat)
    (I : Instance) : Prop where
  self : I.self = L.this
  around : ∀ t ∈ L.graph.ancestors s, t ≠ s → I.around t = outer t
  cells : ∀ t ∈ L.graph.ancestors s, t ≠ s → ∀ j, outer t = some j →
    ∀ v ∈ (L.graph.scope t).vars, v.role ≠ .receiver → I.cells v = some ⟨j, v⟩

theorem Layout.SourceAt.sourceAround (h : Γ.SourceAt L i I)
    (hs : L.graph.ancestors s = s :: L.graph.ancestors (Γ.scope i)) :
    L.SourceAround s (Γ.around i) I where
  self := h.self
  around t ht hne := h.around t ((List.mem_cons.mp (hs ▸ ht)).resolve_left hne)
  cells t ht hne := h.cells t ((List.mem_cons.mp (hs ▸ ht)).resolve_left hne)

theorem Variable.role_of_ne (hrole : v.role ≠ .receiver) :
    v.role = .parameter ∨ v.role = .declared := by
  cases hr : v.role with
  | parameter => exact .inl rfl
  | declared => exact .inr rfl
  | receiver => exact absurd hr hrole

namespace Lowering.Entry

variable (hent : L.Entry s declared declared' args args')

include hent

/-- The new instance of the original run. -/
theorem sourceAt (h : L.Of m r) (hI : L.SourceAround s outer I) (hσ : σ.entered = Γ.size)
    (o : Nat) :
    (Γ.enter s outer o).SourceAt L Γ.size ((σ.enter s declared args I).instances Γ.size) := by
  rw [← hσ]
  constructor
  case self => rw [Store.enter_self, hI.self]
  case around =>
    intro t ht
    rw [hσ, Layout.enter_scope_size] at ht
    rw [Store.enter_around, hσ, Layout.enter_around_size]
    by_cases hts : t = s
    · subst hts
      rw [Function.update_self, Function.update_self]
    · rw [Function.update_of_ne hts, Function.update_of_ne hts, hI.around t ht hts]
  case cells =>
    intro t ht j hj v hv hrole
    rw [hσ, Layout.enter_scope_size] at ht
    rw [hσ, Layout.enter_around_size] at hj
    rw [Store.enter_cells]
    by_cases hts : t = s
    · subst hts
      rw [Function.update_self] at hj
      obtain rfl := Option.some.inj hj
      rcases Variable.role_of_ne hrole with hr | hr
      · obtain ⟨x, hx, -⟩ := hent.parameter v hv hr
        rw [hx, hσ]
      · obtain ⟨hmem, hx, -⟩ := hent.declared v hv hr
        simp only [hx, hmem, if_true, hσ]
    · rw [Function.update_of_ne hts] at hj
      have hout : ¬(v ∈ declared ∨ args.lookup v ≠ none) := fun hown =>
        hts (h.holds.tidy.vars_unique _ _ v hv (hent.own v hown))
      obtain ⟨hmem, hx⟩ := not_or.mp hout
      simp only [not_not.mp hx, hmem, if_false]
      exact hI.cells t ht hts j hj v hv hrole

/-- A variable of the scope has a cell for what stands for it, unless it is hoisted. -/
theorem cells_standIn (hv : v ∈ (L.graph.scope s).vars)
    (hkind : v.role = .parameter ∨ v.role = .declared ∧ L.graph.envOf? v = none) :
    ((τ.enter s declared' args' I).instances τ.entered).cells (L.standIn s v) =
      some ⟨τ.entered, L.standIn s v⟩ := by
  rw [Store.enter_cells]
  rcases hkind with hr | ⟨hr, he⟩
  · obtain ⟨x, -, hx⟩ := hent.parameter v hv hr
    rw [hx]
  · obtain ⟨-, -, hx, hmem⟩ := hent.declared v hv hr
    simp only [hx, hmem he, if_true]

theorem cells_holder (he : (L.graph.scope s).env = some e) :
    ((τ.enter s declared' args' I).instances τ.entered).cells (L.holder e) =
      some ⟨τ.entered, L.holder e⟩ := by
  obtain ⟨-, hmem, hx⟩ := hent.holder e he
  simp only [Store.enter_cells, hx, hmem, if_true]

/-- No local is declared for the environment of another scope. -/
theorem notMem_of_holder (h : L.Of m r) {x : Variable} (hx : ∃ k, x.id = .holder k e)
    (he : (L.graph.scope s).env ≠ some e) : x ∉ declared' := by
  intro hmem
  rcases hent.made x hmem with ⟨v, hv, hxv⟩ | ⟨e', he', rfl⟩
  · exact h.ne_of_holder hv hxv hx rfl
  · obtain ⟨k, hk⟩ := hx
    obtain ⟨⟨l, hl⟩, -⟩ := hent.holder e' he'
    rw [hl] at hk
    injection hk with _ hk
    exact he (hk ▸ he')

/-- What stands for a variable of another scope is not declared. -/
theorem notMem_of_standIn (h : L.Of m r) {t : ScopeId} (hv : v ∈ (L.graph.scope t).vars)
    (hts : t ≠ s) : L.standIn t v ∉ declared' := by
  intro hmem
  rcases hent.made _ hmem with ⟨w, hw, hx⟩ | ⟨e, he, hx⟩
  · obtain rfl := h.eq_of_standsFor hv hw (h.standsFor t v) hx
    exact hts (h.holds.tidy.vars_unique _ _ v hv hw)
  · exact h.ne_of_holder hv (h.standsFor t v) (hent.holder e he).1 hx

/-- A parameter begins with the same value in both runs. -/
theorem exists_value (hv : v ∈ (L.graph.scope s).vars) (hrole : v.role = .parameter) (I I') :
    ∃ x, (σ.enter s declared args I).cells ⟨σ.entered, v⟩ = .value x ∧
      (τ.enter s declared' args' I').cells ⟨τ.entered, L.standIn s v⟩ = .value x := by
  obtain ⟨x, hx, hx'⟩ := hent.parameter v hv hrole
  exact ⟨x, by simp [Store.enter, hx], by simp [Store.enter, hx']⟩

/-- A local begins with zero in both runs. -/
theorem cells_eq_zero (hv : v ∈ (L.graph.scope s).vars) (hrole : v.role = .declared) (I I') :
    (σ.enter s declared args I).cells ⟨σ.entered, v⟩ = .value .zero ∧
      (τ.enter s declared' args' I').cells ⟨τ.entered, L.standIn s v⟩ = .value .zero := by
  obtain ⟨-, hx, hx', -⟩ := hent.declared v hv hrole
  exact ⟨by simp [Store.enter, hx], by simp [Store.enter, hx']⟩

/-- The new instance of the converted run in a frame of its own. -/
theorem targetAt_frame (hτ : τ.entered = Γ.size)
    (hframe : ∀ t ∈ L.graph.ancestors s, L.graph.frame? t = L.graph.frame? s → t = s)
    (hself : I.self = (Γ.enter s outer o).selfOf L Γ.size (L.graph.frame? s))
    (hparams : ∀ c, L.graph.frame? s = some c → ∀ lm, L.ctx.declarations.methodOf? c = some lm →
      ∀ p ∈ lm.envParams, ∀ j,
        Function.update outer s (some Γ.size) (L.graph.env p.1).scope = some j →
        args'.lookup p.2 = some (.reference ⟨j, L.holder p.1⟩)) :
    (Γ.enter s outer o).TargetAt L Γ.size ((τ.enter s declared' args' I).instances Γ.size) := by
  constructor
  case self => rw [Layout.enter_scope_size, ← hself, ← hτ, Store.enter_self]
  case standIns =>
    intro t ht hfr j hj v hv hkind
    rw [Layout.enter_scope_size] at ht hfr
    obtain rfl := hframe t ht hfr
    rw [Layout.enter_around_size, Function.update_self] at hj
    obtain rfl := Option.some.inj hj
    rw [← hτ]
    exact hent.cells_standIn hv hkind
  case holders =>
    intro e hlive ht hfr j hj
    rw [Layout.enter_scope_size] at ht hfr
    have hscope := hframe _ ht hfr
    rw [Layout.enter_around_size, hscope, Function.update_self] at hj
    obtain rfl := Option.some.inj hj
    rw [← hτ]
    exact hent.cells_holder (hscope ▸ hlive)
  case envParams =>
    intro c hc lm hlm p hp j hj
    rw [Layout.enter_scope_size] at hc
    rw [Layout.enter_around_size] at hj
    rw [← hτ, Store.enter_cells, hparams c hc lm hlm p hp j hj]

/-- The new instance of the converted run in a block, which belongs to the frame around it. -/
theorem targetAt_block (h : L.Of m r) (hargs : args' = []) (hn : Γ.Nested L.graph)
    (hi : i < Γ.size) (hI : Γ.TargetAt L i I) (hτ : τ.entered = Γ.size)
    (hs : L.graph.ancestors s = s :: L.graph.ancestors (Γ.scope i))
    (hframe : L.graph.frame? s = L.graph.frame? (Γ.scope i))
    (hnamed : ∀ e, L.Live e → (L.graph.env e).scope ∈ L.graph.ancestors (Γ.scope i) →
      ∃ k, (L.holder e).id = .holder k e) (o : Nat) :
    (Γ.enter s (Γ.around i) o).TargetAt L Γ.size
      ((τ.enter s declared' args' I).instances Γ.size) := by
  subst hargs
  have hout {t : ScopeId} (ht : t ∈ L.graph.ancestors s) (hts : t ≠ s) :
      t ∈ L.graph.ancestors (Γ.scope i) := (List.mem_cons.mp (hs ▸ ht)).resolve_left hts
  have hne {t : ScopeId} (ht : t ∈ L.graph.ancestors (Γ.scope i)) : t ≠ s :=
    Nat.ne_of_lt (Nat.lt_of_le_of_lt (Graph.le_of_mem_ancestors ht) (Graph.lt_of_ancestors_eq hs))
  have haround {t : ScopeId} (hts : t ≠ s) :
      (Γ.enter s (Γ.around i) o).around Γ.size t = Γ.around i t := by
    rw [Layout.enter_around_size, Function.update_of_ne hts]
  have hcells {x : Variable} (hx : x ∉ declared') :
      ((τ.enter s declared' [] I).instances Γ.size).cells x = I.cells x := by
    rw [← hτ, Store.enter_cells]
    simp [hx]
  constructor
  case self =>
    rw [Layout.enter_scope_size, ← hτ, Store.enter_self, hI.self, hframe, hτ]
    cases hc : L.graph.frame? (Γ.scope i) with
    | none => rfl
    | some c =>
      simp only [Layout.selfOf, Layout.receiverOf]
      cases hhost : (L.graph.closure c).host with
      | none => rfl
      | some e =>
        have hmem := h.mem_of_home hc (h.fits.chained.isHost h.fits.calls hhost).around
        exact (hn.objectAt_enter hi (hne hmem.1)).symm
  case standIns =>
    intro t ht hfr j hj v hv hkind
    rw [Layout.enter_scope_size] at ht hfr
    by_cases hts : t = s
    · subst hts
      rw [Layout.enter_around_size, Function.update_self] at hj
      obtain rfl := Option.some.inj hj
      rw [← hτ]
      exact hent.cells_standIn hv hkind
    · rw [haround hts] at hj
      rw [hcells (hent.notMem_of_standIn h hv hts)]
      exact hI.standIns t (hout ht hts) (hfr.trans hframe) j hj v hv hkind
  case holders =>
    intro e hlive ht hfr j hj
    rw [Layout.enter_scope_size] at ht hfr
    by_cases hts : (L.graph.env e).scope = s
    · rw [Layout.enter_around_size, hts, Function.update_self] at hj
      obtain rfl := Option.some.inj hj
      rw [← hτ]
      exact hent.cells_holder (hts ▸ hlive)
    · rw [haround hts] at hj
      rw [hcells (hent.notMem_of_holder h (hnamed e hlive (hout ht hts)) fun he =>
        hts (h.live_of_env he).2)]
      exact hI.holders e hlive (hout ht hts) (hfr.trans hframe) j hj
  case envParams =>
    intro c hc lm hlm p hp j hj
    rw [Layout.enter_scope_size, hframe] at hc
    obtain ⟨-, -, hhome, hid⟩ := h.envParam_spec hlm hp
    have hts := hne (h.mem_of_home hc hhome).1
    rw [haround hts] at hj
    rw [hcells (hent.notMem_of_holder h hid fun he => hts (h.live_of_env he).2)]
    exact hI.envParams c hc lm hlm p hp j hj

end Lowering.Entry

/-! ## Stores after entering -/

namespace Layout

/-- The stores match, but the environment of the last instance `i` is still to be created. -/
structure Begun (Γ : Layout) (L : Lowering) (i : Nat) (σ τ : Store) : Prop
    extends Γ.MatchesTo L i σ τ where
  size : Γ.size = i + 1
  object : Γ.object i = τ.allocated
  parameter : ∀ v ∈ (L.graph.scope (Γ.scope i)).vars, v.role = .parameter → ∃ x,
    σ.cells ⟨i, v⟩ = .value x ∧ τ.cells ⟨i, L.standIn (Γ.scope i) v⟩ = .value x
  declared : ∀ v ∈ (L.graph.scope (Γ.scope i)).vars, v.role = .declared →
    σ.cells ⟨i, v⟩ = .value .zero

/-- An environment stays as it is where another block is entered. -/
theorem EnvAt.enter (henv : Γ.EnvAt L τ j e) (hj : j ≠ τ.entered) (b : BlockId) :
    Γ.EnvAt L (τ.enter b declared' args' I) j e := by
  obtain ⟨⟨named, record, object⟩, parent, receiver⟩ := henv
  have hcell : (τ.enter b declared' args' I).cells ⟨j, L.holder e⟩ = τ.cells ⟨j, L.holder e⟩ :=
    τ.enter_contents b declared' args' I hj
  refine ⟨⟨named, ?_, ?_⟩, parent, ?_⟩
  · rwa [hcell]
  · rwa [hcell]
  · simpa only [Store.load, hcell] using receiver

/-- Entering a block does not touch the slots of other instances. -/
theorem load_enter (Γ : Layout) (L : Lowering) (τ : Store) (hj : j ≠ τ.entered) (b : BlockId) :
    (τ.enter b declared' args' I).load (Γ.slot L j v) = τ.load (Γ.slot L j v) := by
  have hcell (x : Variable) : (τ.enter b declared' args' I).cells ⟨j, x⟩ = τ.cells ⟨j, x⟩ :=
    τ.enter_contents b declared' args' I hj
  rw [slot]
  cases L.graph.envOf? v with
  | none => simp only [Store.load, hcell]
  | some e =>
    simp only [envSlot]
    split
    · simp only [Store.load, hcell]
    · rfl

/-- Entering a block in both runs. -/
theorem MatchesTo.enter (hm : Γ.Matches L σ τ) (ha : Γ.Around L.graph s outer)
    (hent : L.Entry s declared declared' args args')
    (hsource : (Γ.enter s outer τ.allocated).SourceAt L Γ.size
      ((σ.enter s declared args I).instances Γ.size))
    (htarget : (Γ.enter s outer τ.allocated).TargetAt L Γ.size
      ((τ.enter s declared' args' I').instances Γ.size)) :
    (Γ.enter s outer τ.allocated).Begun L Γ.size (σ.enter s declared args I)
      (τ.enter s declared' args' I') := by
  have hext := Γ.extends_enter s outer τ.allocated
  have hnested := hm.nested.enter ha τ.allocated
  have hleft {i : Nat} (hi : i < Γ.size) : i ≠ σ.entered := hm.entered_left ▸ Nat.ne_of_lt hi
  have hright {i : Nat} (hi : i < Γ.size) : i ≠ τ.entered := hm.entered_right ▸ Nat.ne_of_lt hi
  -- objects that exist are not the new one
  have hobject {i : Nat} (hi : i < Γ.size) (ho : (Γ.enter s outer τ.allocated).HasObject L i) :
      Γ.object i < τ.allocated := by
    obtain ⟨e, he, hk⟩ := ho
    rw [hext.scope i hi] at he
    exact ((hm.env i hi hi e he).object hk).2
  -- both runs begin the new instance with the same contents
  have hvalue (v : Variable) (hv : v ∈ (L.graph.scope s).vars) (hrole : v.role = .parameter) :
      ∃ x, (σ.enter s declared args I).cells ⟨Γ.size, v⟩ = .value x ∧
        (τ.enter s declared' args' I').cells ⟨Γ.size, L.standIn s v⟩ = .value x := by
    have := hent.exists_value (σ := σ) (τ := τ) hv hrole I I'
    rwa [hm.entered_left, hm.entered_right] at this
  have hzero (v : Variable) (hv : v ∈ (L.graph.scope s).vars) (hrole : v.role = .declared) :
      (σ.enter s declared args I).cells ⟨Γ.size, v⟩ = .value .zero ∧
        (τ.enter s declared' args' I').cells ⟨Γ.size, L.standIn s v⟩ = .value .zero := by
    have := hent.cells_eq_zero (σ := σ) (τ := τ) hv hrole I I'
    rwa [hm.entered_left, hm.entered_right] at this
  constructor
  case size => rfl
  case object => rw [enter_object_size]; rfl
  case parameter => rwa [enter_scope_size]
  case declared =>
    rw [enter_scope_size]
    exact fun v hv hrole => (hzero v hv hrole).1
  constructor
  case nested => exact hnested
  case entered_left => exact congrArg (· + 1) hm.entered_left
  case entered_right => exact congrArg (· + 1) hm.entered_right
  case made => exact hm.made
  case history => exact hm.history
  case source =>
    intro i hi
    rcases Nat.lt_succ_iff_lt_or_eq.mp hi with hi | rfl
    · rw [Store.enter_instances _ _ _ _ _ (hleft hi)]
      exact hext.sourceAt hi (hm.source i hi)
    · exact hsource
  case target =>
    intro i hi
    rcases Nat.lt_succ_iff_lt_or_eq.mp hi with hi | rfl
    · rw [Store.enter_instances _ _ _ _ _ (hright hi)]
      exact hext.targetAt hi hm.nested (hm.target i hi)
    · exact htarget
  case env =>
    intro i _ hi e he
    rw [hext.scope i hi] at he
    exact (hext.envAt hi hm.nested (hm.env i hi hi e he)).enter (hright hi) s
  case object_inj =>
    intro i hi j hj hoi hoj heq
    rcases Nat.lt_succ_iff_lt_or_eq.mp hi with hi | rfl <;>
      rcases Nat.lt_succ_iff_lt_or_eq.mp hj with hj | rfl
    · have lift {i : Nat} (hi : i < Γ.size) (ho : (Γ.enter s outer τ.allocated).HasObject L i) :
          Γ.HasObject L i := by
        obtain ⟨e, he, hk⟩ := ho
        exact ⟨e, hext.scope i hi ▸ he, hk⟩
      rw [hext.object i hi, hext.object j hj] at heq
      exact hm.object_inj i hi j hj (lift hi hoi) (lift hj hoj) heq
    · rw [hext.object i hi, enter_object_size] at heq
      exact absurd heq (Nat.ne_of_lt (hobject hi hoi))
    · rw [hext.object j hj, enter_object_size] at heq
      exact absurd heq.symm (Nat.ne_of_lt (hobject hj hoj))
    · rfl
  case cells =>
    intro i hi v hv hrole hset
    rcases Nat.lt_succ_iff_lt_or_eq.mp hi with hi | rfl
    · rw [hext.scope i hi] at hv
      obtain ⟨x, hx, hload⟩ := hm.cells i hi v hv hrole (.inl hi)
      refine ⟨x, ?_, ?_⟩
      · rwa [σ.enter_contents s declared args I (hleft hi)]
      · rwa [hext.slot_eq hi, Γ.load_enter L τ (hright hi) s]
    · rw [enter_scope_size] at hv
      have he := hset.resolve_left (Nat.lt_irrefl _)
      rw [slot_plain _ _ he, enter_scope_size]
      simp only [Store.load, Option.some.injEq]
      rcases Variable.role_of_ne hrole with hr | hr
      · exact hvalue v hv hr
      · exact ⟨.zero, hzero v hv hr⟩
  case callables =>
    intro k hk
    exact hext.callableAt hm.nested (hm.callables k hk)

end Layout

end Unnest
