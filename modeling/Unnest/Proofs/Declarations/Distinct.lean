import Mathlib.Data.List.DropRight
import Unnest.Proofs.Declarations.Methods

/-!
# Distinct names of declarations

The name of an environment type and the name of a lowered method both end in a number, and what
stands before the number is no digit. So the number can be read off the name, whatever else is in
it: names that come from outside may be equal, may contain the separators and may end in digits. The
types are numbered by their order and the methods by their closures, so no two names are the same.

Nothing is assumed of the graph. It need not be the graph of a body, and its environments may have
been removed in any way.

## Main definitions

* `Declarations.nameNumber` : the number at the end of a name.
* `Declarations.Unambiguous` : declarations are told apart by name, by closure and by environment.

## Main statements

* `Declarations.nameNumber_of_toList` : the number is what was written last.
* `DeclarationDraft.declares_of_declareMethod` : declaring a method fails or declares it.
* `DeclarationDraft.declareAll_unambiguous` : declarations that are made without a failure are
  unambiguous.
-/

namespace Unnest

/-! ## Numbers in names -/

/-- The name of the method that a nested function becomes as closure `c`. -/
def Method.loweredName (method : Method) (function : NestedFunction) (c : ClosureId) : String :=
  method.name ++ "$" ++ function.name ++ "$" ++ toString c

namespace Declarations

/-- The number at the end of a name. -/
def nameNumber (name : String) : Nat :=
  Nat.ofDigitChars 10 (name.toList.rtakeWhile Char.isDigit) 0

/-- The number ends where a character is no digit. -/
theorem nameNumber_of_toList {name : String} {i : Nat} (cs : List Char) {c : Char}
    (hc : c.isDigit = false) (h : name.toList = cs ++ c :: Nat.toDigits 10 i) :
    nameNumber name = i := by
  have hdigits : ∀ d ∈ (Nat.toDigits 10 i).reverse, d.isDigit = true := by
    intro d hd
    exact Nat.isDigit_of_mem_toDigits (by decide) (by decide) (List.mem_reverse.mp hd)
  have htake : name.toList.rtakeWhile Char.isDigit = Nat.toDigits 10 i := by
    rw [List.rtakeWhile, h, List.reverse_append, List.reverse_cons, List.append_assoc,
      List.takeWhile_append_of_pos hdigits]
    simp [hc]
  rw [nameNumber, htake, Nat.ofDigitChars_toDigits (by decide) (by decide)]

theorem nameNumber_envName (method : String) (i : Nat) :
    nameNumber (TypeName.envName method i) = i := by
  apply nameNumber_of_toList (c := 'v') (method.toList ++ ['$', 'E', 'n']) rfl
  simp [TypeName.toList_envName]

theorem nameNumber_loweredName (method : Method) (function : NestedFunction) (c : ClosureId) :
    nameNumber (method.loweredName function c) = c := by
  apply nameNumber_of_toList (c := '$') (method.name.toList ++ '$' :: function.name.toList) rfl
  simp [Method.loweredName, Nat.toString_eq_repr, Nat.toList_repr]

/-- Names that are numbered in their order are distinct. -/
theorem nodup_of_nameNumber {names : List String}
    (h : ∀ i name, names[i]? = some name → nameNumber name = i) : names.Nodup := by
  have hrange : names.map nameNumber = List.range names.length := by
    refine List.ext_getElem (by simp) fun i hi _ => ?_
    rw [List.getElem_map, List.getElem_range]
    exact h i _ (List.getElem?_eq_getElem (by simpa using hi))
  exact .of_map nameNumber (hrange ▸ List.nodup_range)

end Declarations

/-! ## Declarations told apart -/

variable {g : Graph} {method : Method} {d : Declarations} {c : ClosureId}
  {s s' : DeclarationDraft}

/-- The method shows everywhere that it is the one of closure `c`. -/
structure LoweredMethod.Numbered (lm : LoweredMethod) (c : ClosureId) : Prop where
  closure : lm.closure = c
  id : lm.symbol.id = .lowered c
  number : Declarations.nameNumber lm.symbol.name = c

/-- Types and methods are told apart by their names. Every closure has its method, and the types are
those of the live environments. -/
structure Declarations.Unambiguous (d : Declarations) (g : Graph) : Prop where
  types : (d.types.map (·.name)).Nodup
  methods : (d.methods.map (·.symbol.name)).Nodup
  length : d.methods.length = g.closures.size
  methodOf : ∀ c lm, d.methodOf? c = some lm ↔ lm ∈ d.methods ∧ lm.closure = c
  symbol : ∀ lm ∈ d.methods, lm.symbol.id = .lowered lm.closure
  typeOf : ∀ e t, d.typeOf? e = some t ↔ t ∈ d.types ∧ t.env = e
  live : ∀ e, (d.typeOf? e).isSome = true ↔ e < g.envs.size ∧ (g.env e).removed = false

theorem Declarations.Typed.nodup_names (h : d.Typed g method) : (d.types.map (·.name)).Nodup := by
  refine nodup_of_nameNumber fun i name hname => ?_
  rw [List.getElem?_map] at hname
  obtain ⟨t, ht, rfl⟩ := Option.map_eq_some_iff.mp hname
  rw [h.name i t ht, nameNumber_envName]

namespace DeclarationDraft

/-- The step from `s` to `s'` declares `lm` as the method of closure `c`, and otherwise only chooses
parameters for the closure. -/
structure Declares (method : Method) (c : ClosureId) (lm : LoweredMethod)
    (s s' : DeclarationDraft) : Prop where
  graph : ∃ ps, s'.graph = s.graph.modifyClosure c fun cl => { cl with envParams := ps }
  declarations : s'.declarations = s.declarations.push lm
  closure : lm.closure = c
  id : lm.symbol.id = .lowered c
  name : lm.symbol.name = method.loweredName (s.graph.closure c).function c

theorem declares_of_declareOn {host : Option EnvType}
    (h : s.declareOn method c host = (s', none)) : ∃ lm, Declares method c lm s s' := by
  simp only [declareOn] at h
  split at h
  · cases h
  · obtain rfl := congrArg Prod.fst h
    exact ⟨_, ⟨_, rfl⟩, rfl, rfl, rfl, rfl⟩

/-- Declaring a method fails or declares it. -/
theorem declares_of_declareMethod (h : s.declareMethod method c = (s', none)) :
    ∃ lm, Declares method c lm s s' := by
  rw [declareMethod] at h
  split at h
  · exact declares_of_declareOn h
  · split at h
    · exact declares_of_declareOn h
    · cases h

/-- The methods of the closures before `k` are declared, with the numbers of the closures. -/
structure NumberedTo (k : Nat) (g : Graph) (method : Method) (s : DeclarationDraft) : Prop where
  graph : g.SameExceptParams s.graph
  typed : s.declarations.Typed g method
  length : s.declarations.methods.length = k
  numbered : ∀ c lm, s.declarations.methodOf? c = some lm → lm.Numbered c

/-- At first there are types only. -/
theorem numberedTo_envTypes (s : DeclarationDraft) (method : Method) : NumberedTo 0 s.graph method
    { s with declarations := { types := s.graph.envTypes method } } where
  graph := .refl _
  typed := s.graph.typed_envTypes method
  length := rfl
  numbered _ _ hlm := by cases hlm

theorem NumberedTo.declareMethod (h : s.NumberedTo c g method)
    (hs : s.declareMethod method c = (s', none)) : s'.NumberedTo (c + 1) g method := by
  obtain ⟨new, hnew⟩ := declares_of_declareMethod hs
  constructor
  case graph =>
    obtain ⟨ps, hgraph⟩ := hnew.graph
    rw [hgraph]
    exact h.graph.setParams c ps
  case typed =>
    rw [hnew.declarations]
    exact h.typed.push new
  case length => simp [hnew.declarations, Declarations.push, h.length]
  case numbered =>
    intro i lm hlm
    rw [hnew.declarations] at hlm
    obtain hlm | ⟨hi, rfl⟩ := Declarations.methodOf_push hlm
    · exact h.numbered i lm hlm
    · obtain rfl : i = c := hi.trans h.length
      refine ⟨hnew.closure, hnew.id, ?_⟩
      rw [hnew.name, Declarations.nameNumber_loweredName]

theorem NumberedTo.declareMethods {n : Nat} (h : s.NumberedTo c g method)
    (hs : DeclarationDraft.declareMethods method (List.range' c n) s = (s', none)) :
    s'.NumberedTo (c + n) g method := by
  induction n generalizing c s with
  | zero =>
    obtain rfl := congrArg Prod.fst hs
    exact h
  | succ n ih =>
    rw [List.range'_succ, DeclarationDraft.declareMethods] at hs
    split at hs
    · rename_i s₁ hs₁
      have hrest := ih (h.declareMethod hs₁) hs
      rwa [Nat.add_assoc, Nat.add_comm 1 n] at hrest
    · cases hs

theorem NumberedTo.unambiguous (h : s.NumberedTo g.closures.size g method) :
    s.declarations.Unambiguous g := by
  constructor
  case types => exact h.typed.nodup_names
  case methods =>
    refine Declarations.nodup_of_nameNumber fun c name hname => ?_
    rw [List.getElem?_map] at hname
    obtain ⟨lm, hlm, rfl⟩ := Option.map_eq_some_iff.mp hname
    exact (h.numbered c lm hlm).number
  case length => exact h.length
  case methodOf =>
    intro c lm
    refine ⟨fun hlm => ⟨List.mem_of_getElem? hlm, (h.numbered c lm hlm).closure⟩, ?_⟩
    rintro ⟨hlm, rfl⟩
    obtain ⟨i, hi⟩ := List.getElem?_of_mem hlm
    rwa [(h.numbered i lm hi).closure]
  case symbol =>
    intro lm hlm
    obtain ⟨c, hc⟩ := List.getElem?_of_mem hlm
    rw [(h.numbered c lm hc).id, (h.numbered c lm hc).closure]
  case typeOf =>
    intro e t
    refine ⟨fun ht => ?_, ?_⟩
    · obtain ⟨hmem, henv, -⟩ := h.typed.of_typeOf ht
      exact ⟨hmem, henv⟩
    · rintro ⟨hmem, rfl⟩
      exact h.typed.typeOf_env hmem
  case live =>
    intro e
    refine ⟨fun he => ?_, fun ⟨hlt, hlive⟩ => ?_⟩
    · obtain ⟨t, ht⟩ := Option.isSome_iff_exists.mp he
      obtain ⟨hmem, rfl, -⟩ := h.typed.of_typeOf ht
      exact Graph.mem_liveEnvs.mp (h.typed.env_mem hmem)
    · obtain ⟨t, ht, -⟩ := h.typed.typeOf hlt hlive
      exact Option.isSome_iff_exists.mpr ⟨t, ht⟩

/-- Declarations that are made without a failure are unambiguous, whatever the names in the graph
are. -/
theorem declareAll_unambiguous (hm : s.graph.body.method = some method)
    (h : s.declareAll = (s', none)) :
    s.graph.SameExceptParams s'.graph ∧ s'.declarations.Unambiguous s.graph := by
  rw [declareAll] at h
  split at h
  · simp only [hm] at h
    split at h
    · rename_i s₁ hs₁
      obtain rfl : s₁ = s' := congrArg Prod.fst h
      rw [List.range_eq_range'] at hs₁
      have hend := (numberedTo_envTypes s method).declareMethods hs₁
      rw [Nat.zero_add] at hend
      exact ⟨hend.graph, hend.unambiguous⟩
    · cases h
  · cases h

/-- Two functions have the same name, a third one looks like a closure of theirs, and the name of
the method looks like that of a type. One environment is removed. -/
def lookalikes : DeclarationDraft :=
  let method : Method := { id := .given 0, name := "m$Env1", owner := "T", returnType := "void" }
  let closure (name : String) (host : Option EnvId) : Closure :=
    { function := { (default : NestedFunction) with name }, home := 0, host }
  let env : Environment := { scope := 0, kind := .reference }
  { graph :=
      { body := { method := some method, receiver := none, block := none }
        closures := #[closure "f" none, closure "f" (some 2), closure "f$1" none]
        envs := #[env, { env with removed := true }, env] } }

/-- The third environment gets the second type, and the names that look alike differ. -/
theorem unambiguous_lookalikes : ∃ s, lookalikes.declareAll = (s, none) ∧
    lookalikes.graph.SameExceptParams s.graph ∧ s.declarations.Unambiguous lookalikes.graph ∧
      s.declarations.types.map (fun t => (t.name, t.env)) =
        [("m$Env1$Env0", 0), ("m$Env1$Env1", 2)] ∧
      s.declarations.methods.map (·.symbol.name) =
        ["m$Env1$f$0", "m$Env1$f$1", "m$Env1$f$1$2"] := by
  have hok : lookalikes.declareAll.2 = none := Option.isNone_iff_eq_none.mp (by decide +kernel)
  have hrun : lookalikes.declareAll = (lookalikes.declareAll.1, none) := Prod.ext rfl hok
  obtain ⟨hgraph, hnames⟩ := declareAll_unambiguous rfl hrun
  exact ⟨_, hrun, hgraph, hnames, by decide +kernel, by decide +kernel⟩

end DeclarationDraft

end Unnest
