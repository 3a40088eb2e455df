import Unnest.Proofs.Semantics.Creating

/-!
# Steps in step

Two computations run in step if from stores that match they end with the same halt and the same
history, or with related results in stores that match again: `Layout.Simulates`. The relation is
closed under the ways in which evaluation composes computations, so it is enough to look at the
places where lowered code differs.

## Main definitions

* `Layout.Agrees` : two runs end in the same way.
* `Layout.Simulates` : two computations run in step.
* `Machine.Simulates` : two machines call functions in step.
-/

namespace Unnest

variable {L : Lowering} {m : MethodBody} {r : LoweredBody} {Γ Γ' : Layout} {σ τ : Store}
  {M N : Machine} {i j : Nat} {c : ClosureId} {lm : LoweredMethod} {α β α' β' : Type}
  {R : α → β → Prop} {R' : α' → β' → Prop}

/-! ## Computations in step -/

namespace Layout

/-- Two runs end in the same way: in stores that match and with related results, or without one. -/
inductive Agrees (Γ : Layout) (L : Lowering) (R : α → β → Prop) :
    Except Halt α × Store → Except Halt β × Store → Prop where
  | ok {Γ' : Layout} {a : α} {b : β} {σ τ : Store} (hext : Γ.Extends Γ') (hm : Γ'.Matches L σ τ)
      (hab : R a b) : Agrees Γ L R (.ok a, σ) (.ok b, τ)
  | error {halt : Halt} {σ τ : Store} (hhistory : τ.history = σ.history) :
      Agrees Γ L R (.error halt, σ) (.error halt, τ)

/-- Two computations run in step from whatever comes after `Γ`. -/
def Simulates (Γ : Layout) (L : Lowering) (R : α → β → Prop) (x : Eval α) (y : Eval β) : Prop :=
  ∀ Γ', Γ.Extends Γ' → ∀ σ τ, Γ'.Matches L σ τ → Γ'.Agrees L R (x σ) (y τ)

theorem Agrees.of_extends {x : Except Halt α × Store} {y : Except Halt β × Store}
    (hext : Γ.Extends Γ') (h : Γ'.Agrees L R x y) : Γ.Agrees L R x y := by
  cases h with
  | ok hext' hm hab => exact .ok (hext.trans hext') hm hab
  | error hhistory => exact .error hhistory

/-- Runs that end in the same way and then go on alike. -/
theorem Agrees.bind {x : Eval α} {y : Eval β} {f : α → Eval α'} {g : β → Eval β'}
    (h : Γ.Agrees L R (x σ) (y τ))
    (hfg : ∀ Γ', Γ.Extends Γ' → ∀ a b, R a b → ∀ σ' τ', Γ'.Matches L σ' τ' →
      Γ'.Agrees L R' (f a σ') (g b τ')) :
    Γ.Agrees L R' ((x >>= f) σ) ((y >>= g) τ) := by
  cases hx : x σ with
  | mk a σ' =>
    cases hy : y τ with
    | mk b τ' =>
      rw [hx, hy] at h
      cases h with
      | ok hext hm hab =>
        rw [Eval.bind_ok hx, Eval.bind_ok hy]
        exact (hfg _ hext _ _ hab _ _ hm).of_extends hext
      | error hhistory =>
        rw [Eval.bind_error hx, Eval.bind_error hy]
        exact .error hhistory

theorem Agrees.map {x : Eval α} {y : Eval β} {f : α → α'} {g : β → β'}
    (h : Γ.Agrees L R (x σ) (y τ)) (hfg : ∀ a b, R a b → R' (f a) (g b)) :
    Γ.Agrees L R' ((f <$> x) σ) ((g <$> y) τ) := by
  rw [map_eq_pure_bind, map_eq_pure_bind]
  exact h.bind fun Γ' _ a b hab _ _ hm => .ok (.refl Γ') hm (hfg a b hab)

/-- Runs that end in the same way cannot be told apart from outside. -/
theorem Agrees.observe {x y : Except Halt α × Store} (h : Γ.Agrees L Eq x y) :
    (y.1, y.2.history) = (x.1, x.2.history) := by
  cases h with
  | ok _ hm hab => rw [hab, hm.history]
  | error hhistory => rw [hhistory]

theorem simulates_pure {a : α} {b : β} (hab : R a b) : Γ.Simulates L R (pure a) (pure b) :=
  fun Γ' _ _ _ hm => .ok (.refl Γ') hm hab

theorem simulates_throw (halt : Halt) : Γ.Simulates L R (throw halt) (throw halt) :=
  fun _ _ _ _ hm => .error hm.history

namespace Simulates

variable {x : Eval α} {y : Eval β}

theorem mono (h : Γ.Simulates L R x y) (hext : Γ.Extends Γ') : Γ'.Simulates L R x y :=
  fun Γ'' hext' => h Γ'' (hext.trans hext')

/-- One step after the other. -/
theorem bind {f : α → Eval α'} {g : β → Eval β'} (h : Γ.Simulates L R x y)
    (hfg : ∀ a b, R a b → Γ.Simulates L R' (f a) (g b)) :
    Γ.Simulates L R' (x >>= f) (y >>= g) := by
  intro Γ' hext σ τ hm
  exact (h Γ' hext σ τ hm).bind fun Γ'' hext' a b hab => hfg a b hab Γ'' (hext.trans hext')

theorem map {f : α → α'} {g : β → β'} (h : Γ.Simulates L R x y)
    (hfg : ∀ a b, R a b → R' (f a) (g b)) : Γ.Simulates L R' (f <$> x) (g <$> y) :=
  fun Γ' hext σ τ hm => (h Γ' hext σ τ hm).map hfg

theorem bind_eq {y : Eval α} {f : α → Eval α'} {g : α → Eval β'} (h : Γ.Simulates L Eq x y)
    (hfg : ∀ a, Γ.Simulates L R' (f a) (g a)) : Γ.Simulates L R' (x >>= f) (y >>= g) := by
  refine h.bind ?_
  rintro a _ rfl
  exact hfg a

/-- Going round a loop. -/
theorem loop {test test' : Eval Bool} {body body' : Eval (Option Value)}
    (htest : Γ.Simulates L Eq test test') (hbody : Γ.Simulates L Eq body body') (fuel : Nat) :
    Γ.Simulates L Eq (Eval.loop test body fuel) (Eval.loop test' body' fuel) := by
  induction fuel with
  | zero => exact simulates_throw .exhausted
  | succ fuel ih =>
    rw [Eval.loop, Eval.loop]
    refine htest.bind_eq fun again => ?_
    cases again with
    | false => exact simulates_pure rfl
    | true =>
      refine hbody.bind_eq fun result => ?_
      cases result with
      | none => exact ih
      | some x => exact simulates_pure rfl

end Simulates

end Layout

/-- What is no record is the same in both runs. -/
def Content.Same (a b : Content) : Prop := ∃ x, a = .value x ∧ b = .value x

namespace Layout

theorem simulates_value (x : Value) :
    Γ.Simulates L Content.Same (pure (.value x)) (pure (.value x)) :=
  simulates_pure ⟨x, rfl, rfl⟩

theorem simulates_scalar {a b : Content} (h : a.Same b) :
    Γ.Simulates L Eq (Eval.scalar a) (Eval.scalar b) := by
  obtain ⟨x, rfl, rfl⟩ := h
  exact simulates_pure rfl

/-- Going on with the value of an operand. -/
theorem Simulates.bind_scalar {x y : Eval Content} {f : Value → Eval α'} {g : Value → Eval β'}
    (h : Γ.Simulates L Content.Same x y) (hfg : ∀ a, Γ.Simulates L R' (f a) (g a)) :
    Γ.Simulates L R' (x >>= fun a => Eval.scalar a >>= f) (y >>= fun b => Eval.scalar b >>= g) :=
  h.bind fun _ _ hab => (simulates_scalar hab).bind_eq hfg

end Layout

/-! ## Functions and their methods -/

/-- The function of closure `c` and its method `lm`, with their bodies in the two programs. -/
structure Lowering.Callee (L : Lowering) (m : MethodBody) (r : LoweredBody) (c : ClosureId)
    (lm : LoweredMethod) (b b' : Block) : Prop where
  lt : c < L.graph.closures.size
  declared : L.ctx.declarations.methodOf? c = some lm
  block : (L.graph.scope (L.graph.closure c).body).block = some b
  lowers : ∃ loc, b.LowersIn L.ctx (L.names (some c)) (L.ctx.methodSite lm loc) b'
  params : ∀ v, v.role = .parameter → (L.names (some c)).standIn v = (lm.copies.lookup v).getD v
  function : m.numbered.program.function? (L.graph.closure c).function =
    some ((L.graph.closure c).home, b)
  method : r.declarations.program.method? lm.symbol = some (lm.symbol.params.reduceOption, b')

/-- A search finds `b` if it finds something, and nothing else. -/
theorem findSome_eq_some {f : α → Option β} {l : List α} {a : α} {b : β}
    (ha : a ∈ l) (hfa : (f a).isSome) (hb : ∀ a ∈ l, ∀ b', f a = some b' → b' = b) :
    l.findSome? f = some b := by
  obtain ⟨b', hb'⟩ := Option.isSome_iff_exists.mp (List.findSome?_isSome_iff.mpr ⟨a, ha, hfa⟩)
  obtain ⟨a', ha', hfa'⟩ := List.exists_of_findSome?_eq_some hb'
  rw [hb', hb a' ha' b' hfa']

namespace Lowering.Of

variable (h : L.Of m r)

include h

/-- A body has each function once. -/
theorem function_eq (hc : c < L.graph.closures.size) {b : Block}
    (hb : (L.graph.scope (L.graph.closure c).body).block = some b) :
    m.numbered.program.function? (L.graph.closure c).function =
      some ((L.graph.closure c).home, b) := by
  obtain ⟨p, n, b₀, hn, hnested, hf⟩ := h.holds.site_of_closure hc
  refine findSome_eq_some hn ?_ fun s hs found hfound => ?_
  · simp [hnested, ← hf.home]
  · obtain ⟨q, k⟩ := s
    cases hk : k.nested? with
    | none =>
      simp only [hk] at hfound
      exact nomatch hfound
    | some fn =>
      obtain ⟨fn, b₁⟩ := fn
      simp only [hk] at hfound
      split at hfound
      · rename_i hfn
        subst hfn
        obtain ⟨f, d, hfd, hlays⟩ := (h.holds.lays q k hs).function _ _ hk
        obtain rfl := Option.some.inj hfd
        obtain rfl := h.holds.closure_inj hlays.lt hc hlays.function
        have hblock := ((h.holds.lays q k hs).scope b₁ (Node.opened_of_nested hk)).block
        rw [← hlays.body, hb] at hblock
        rw [← hlays.home, ← Option.some.inj hblock] at hfound
        exact (Option.some.inj hfound).symm
      · exact nomatch hfound

/-- A method of the converted body belongs to a closure. -/
theorem method_spec {lm' : LoweredMethod} (hlm : lm' ∈ r.declarations.methods) :
    ∃ c < L.graph.closures.size, r.declarations.methodOf? c = some lm' ∧
      lm'.symbol.id = .lowered c := by
  obtain ⟨c, hlt, rfl⟩ := List.mem_iff_getElem.mp hlm
  have hc : c < L.graph.closures.size := h.lowers.length ▸ hlt
  obtain ⟨lm, -, b, b', hlm, -, -, hmethod, -⟩ := h.lowers.methods c hc
  have hid := (h.fits.declared.declared c lm hlm).id
  refine ⟨c, hc, List.getElem?_eq_getElem hlt, ?_⟩
  rw [Declarations.methodOf?, List.getElem?_eq_getElem hlt] at hmethod
  rw [Option.some.inj hmethod]
  exact hid

/-- A method from outside has no body here. -/
theorem method_eq_none {method : Method} {k : Nat} (hid : method.id = .given k) :
    r.declarations.program.method? method = none := by
  refine List.findSome?_eq_none_iff.mpr fun lm hlm => if_neg ?_
  rintro rfl
  obtain ⟨c, -, -, hc⟩ := h.method_spec hlm
  exact nomatch hid.symm.trans hc

theorem callee (hc : c < L.graph.closures.size) (hlm : L.ctx.declarations.methodOf? c = some lm) :
    ∃ b b', L.Callee m r c lm b b' := by
  obtain ⟨lm', loc, b, b', hlm', hb, hlowers, hmethod, hparams⟩ := h.lowers.methods c hc
  obtain rfl := Option.some.inj (hlm'.symm.trans hlm)
  refine ⟨b, b', hc, hlm, hb, ⟨loc, hlowers⟩, hparams, h.function_eq hc hb, ?_⟩
  refine findSome_eq_some (List.mem_of_getElem? hmethod) (by simp) ?_
  intro lm₁ hmem found hfound
  obtain ⟨c₁, -, hc₁, hid⟩ := h.method_spec hmem
  split at hfound
  · rename_i hsymbol
    rw [hsymbol, (h.fits.declared.declared c lm' hlm).id] at hid
    injection hid with hid
    rw [← hid, hmethod] at hc₁
    rw [← Option.some.inj hc₁] at hfound
    exact (Option.some.inj hfound).symm
  · exact nomatch hfound

end Lowering.Of

/-! ## Calls -/

/-- The environments that method `lm` is handed, seen from instance `i`. -/
def Layout.envArgs (Γ : Layout) (L : Lowering) (i : Nat) (lm : LoweredMethod) : List Argument :=
  lm.envParams.map fun p =>
    .reference ⟨(Γ.around i (L.graph.env p.1).scope).getD 0, L.holder p.1⟩

/-- Two machines that run the bodies of functions and their methods in step. -/
structure Machine.Simulates (M N : Machine) (L : Lowering) (m : MethodBody) (r : LoweredBody) :
    Prop where
  world : N.world = M.world
  fuel : N.fuel = M.fuel
  left : M.program = m.numbered.program
  right : N.program = r.declarations.program
  activate : ∀ Γ σ τ, Layout.Matches Γ L σ τ → ∀ c lm b b', L.Callee m r c lm b b' →
    ∀ j < Γ.size, Γ.scope j = (L.graph.closure c).home → ∀ xs : List Value,
    (L.graph.closure c).function.params.reduceOption.length = xs.length →
    Γ.Agrees L Eq
      (M.activate
        { body := b
          args := (L.graph.closure c).function.params.reduceOption.zip
            (xs.map fun x => .value (.value x))
          outer := σ.instances j } σ)
      (N.activate
        { body := b'
          args := lm.symbol.params.reduceOption.zip
            (xs.map (fun x => .value (.value x)) ++ Γ.envArgs L j lm)
          outer := { self := Γ.receiverOf L j c } } τ)

/-- The parameters of a method: copies of those of the function, then those for environments. -/
theorem Graph.DeclaredAs.reduceOption_params {g : Graph} (hd : g.DeclaredAs c lm) :
    lm.symbol.params.reduceOption = lm.copies.reverse.map (·.2) ++ lm.envParams.map (·.2) := by
  rw [hd.params]
  simp [List.reduceOption]

theorem Graph.DeclaredAs.length_params {g : Graph} (hd : g.DeclaredAs c lm) :
    lm.symbol.params.reduceOption.length =
      (g.closure c).function.params.reduceOption.length + lm.envParams.length := by
  rw [hd.reduceOption_params, ← hd.copies]
  simp

namespace Machine.Simulates

variable (hM : M.Simulates N L m r) (h : L.Of m r)

include hM h

/-- Calling a function and calling its method. -/
theorem callFunction {b b' : Block} (hcallee : L.Callee m r c lm b b') (hj : j < Γ.size)
    (hscope : Γ.scope j = (L.graph.closure c).home) (hn : Γ.Nested L.graph) (xs : List Value) :
    Γ.Simulates L Eq (M.callFunction (L.graph.closure c).function j xs)
      (N.callMethod lm.symbol.params.reduceOption b' (Γ.receiverOf L j c)
        (xs.map (fun x => .value (.value x)) ++ Γ.envArgs L j lm)) := by
  intro Γ' hext σ τ hm
  have hargs : Γ'.envArgs L j lm = Γ.envArgs L j lm := by
    simp only [Layout.envArgs, hext.around j hj]
  have hcall : M.callFunction (L.graph.closure c).function j xs σ =
      if (L.graph.closure c).function.params.reduceOption.length = xs.length then
        M.activate
          { body := b
            args := (L.graph.closure c).function.params.reduceOption.zip
              (xs.map fun x => .value (.value x))
            outer := σ.instances j } σ
      else (.error .stuck, σ) := by
    rw [Machine.callFunction, hM.left, hcallee.function]
    split <;> rename_i hlen <;>
      simp only [Eval.ofOption, pure_bind, hlen, if_true, if_false] <;> rfl
  have hlength : lm.symbol.params.reduceOption.length =
      (xs.map (fun x => Argument.value (.value x)) ++ Γ.envArgs L j lm).length ↔
      (L.graph.closure c).function.params.reduceOption.length = xs.length := by
    rw [(h.fits.declared.declared c lm hcallee.declared).length_params, List.length_append,
      List.length_map, Layout.envArgs, List.length_map]
    exact Nat.add_right_cancel_iff
  rw [hcall, Machine.callMethod]
  by_cases hlen : (L.graph.closure c).function.params.reduceOption.length = xs.length
  · rw [if_pos hlen, if_pos (hlength.mpr hlen), ← hargs, ← hext.receiverOf_eq hj hn]
    exact hM.activate Γ' σ τ hm c lm b b' hcallee j (Nat.lt_of_lt_of_le hj hext.size)
      ((hext.scope j hj).trans hscope) xs hlen
  · rw [if_neg hlen, if_neg (hlength.not.mpr hlen)]
    exact .error hm.history

end Machine.Simulates

end Unnest
