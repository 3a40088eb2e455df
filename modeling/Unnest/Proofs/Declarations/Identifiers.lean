import Unnest.Proofs.Declarations.Types

/-!
# Identifiers in type names

A type name is read as the identifiers in it, the longest runs of identifier characters. Respelling
a type for an environment acts on its identifiers one by one, and applying a type to arguments puts
the identifiers of the arguments after those of the type. So it can be told which identifiers occur
in a type without looking at the scan that respells it.

## Main definitions

* `TypeName.idents` : the identifiers of a type name, in order.
* `Method.Legible` : type parameters can be told from the rest of a type once they are renamed.

## Main statements

* `TypeName.idents_renameParams` : respelling acts on every identifier by itself.
* `TypeName.idents_reference` : the identifiers of a type that is applied to arguments.
* `Method.legible_of_isNameChar` : type parameters that are identifiers can be told apart.
* `Method.Legible.not_mem_renameParams`, `Method.Legible.not_mem_reference` : no type parameter is
  left in a type that is respelled, nor in a reference to the type of an environment.
-/

namespace Unnest

namespace TypeName

/-- The longest runs of identifier characters. -/
def words (cs : List Char) : List (List Char) :=
  (cs.splitOnP (!isNameChar ·)).filter (· ≠ [])

/-- The identifiers of a type name. -/
def idents (type : String) : List String := (words type.toList).map String.ofList

variable {ps : List String} {c : Char} {cs ds : List Char}

@[simp] theorem words_nil : words [] = [] := rfl

/-- A run of identifier characters is one word. -/
theorem words_of_forall (h : ∀ c ∈ cs, isNameChar c = true) (hne : cs ≠ []) : words cs = [cs] := by
  rw [words, List.splitOnP_eq_singleton fun c hc => by simp [h c hc]]
  simp [hne]

/-- No word goes past another character. -/
theorem words_append_cons (hc : isNameChar c = false) (cs ds : List Char) :
    words (cs ++ c :: ds) = words cs ++ words ds := by
  rw [words, List.splitOnP_append_cons _ _ (by simp [hc]), List.filter_append, words, words]

theorem words_cons (hc : isNameChar c = false) (cs : List Char) : words (c :: cs) = words cs :=
  words_append_cons hc [] cs

/-! ## Respelling -/

theorem words_renameIdent (h : ∀ c ∈ cs, isNameChar c = true) (hne : cs ≠ []) :
    words (renameIdent ps cs) = [renameIdent ps cs] := by
  rw [renameIdent]
  split
  · refine words_of_forall (fun c hc => ?_) (List.cons_ne_nil _ _)
    rcases List.mem_cons.mp hc with rfl | hc
    · decide
    · exact h c hc
  · exact words_of_forall h hne

/-- The identifier read so far is respelled once it is complete. -/
theorem words_renamed {ident : List Char} (h : ∀ c ∈ ident, isNameChar c = true) :
    words (if ident.isEmpty then [] else renameIdent ps ident.reverse) =
      (words ident.reverse).map (renameIdent ps) := by
  cases ident with
  | nil => rfl
  | cons c cs =>
    have hrev : ∀ d ∈ (c :: cs).reverse, isNameChar d = true := fun d hd =>
      h d (List.mem_reverse.mp hd)
    have hne : (c :: cs).reverse ≠ [] := by simp
    rw [words_of_forall hrev hne]
    exact words_renameIdent hrev hne

theorem words_renameFrom {ident : List Char} (h : ∀ c ∈ ident, isNameChar c = true) :
    words (renameFrom ps ident cs) = (words (ident.reverse ++ cs)).map (renameIdent ps) := by
  induction cs generalizing ident with
  | nil =>
    rw [renameFrom, List.append_nil]
    exact words_renamed h
  | cons c cs ih =>
    rw [renameFrom]
    split
    · rename_i hc
      have hident : ∀ d ∈ c :: ident, isNameChar d = true := by
        intro d hd
        rcases List.mem_cons.mp hd with rfl | hd
        · exact hc
        · exact h d hd
      rw [ih hident, List.reverse_cons, List.append_assoc, List.singleton_append]
    · rename_i hc
      have hc : isNameChar c = false := Bool.eq_false_iff.mpr hc
      rw [words_append_cons hc, words_append_cons hc, List.map_append, words_renamed h,
        ih (by simp), List.reverse_nil, List.nil_append]

/-- Respelling acts on every identifier by itself. -/
theorem idents_renameParams (ps : List String) (type : String) : idents (renameParams ps type) =
    (idents type).map fun ident => if ident ∈ ps then renamedParam ident else ident := by
  rw [idents, renameParams, String.toList_ofList, words_renameFrom (by simp), idents,
    List.map_map, List.map_map]
  refine List.map_congr_left fun w _ => ?_
  rw [Function.comp_apply, Function.comp_apply, renameIdent]
  split
  · exact (String.ofList_append : String.ofList (['$'] ++ w) = _)
  · rfl

/-! ## References -/

theorem words_intercalate (l : List (List Char)) :
    words (", ".toList.intercalate l) = l.flatMap words := by
  induction l with
  | nil => rfl
  | cons cs l ih =>
    cases l with
    | nil => simp
    | cons ds l =>
      have hstep : ", ".toList.intercalate (cs :: ds :: l) =
          cs ++ ',' :: ' ' :: ", ".toList.intercalate (ds :: l) := by
        simp [List.intercalate]
      rw [hstep, words_append_cons rfl, words_cons rfl, ih]
      rfl

/-- The identifiers of a type that is applied to arguments. -/
theorem idents_reference (name : String) (args : List String) :
    idents (reference name args) = idents name ++ args.flatMap idents := by
  cases args with
  | nil => simp [reference]
  | cons a as =>
    have hlist : (reference name (a :: as)).toList = name.toList ++ '<' ::
        (", ".toList.intercalate ((a :: as).map String.toList) ++ ['>']) := by
      simp [reference, String.toList_append, String.toList_intercalate]
    rw [idents, hlist, words_append_cons rfl, words_append_cons rfl, words_intercalate, words_nil,
      List.append_nil, List.map_append, List.flatMap_map, List.map_flatMap]
    rfl

theorem isNameChar_envName {method : String} (h : ∀ c ∈ method.toList, isNameChar c = true)
    (i : Nat) : ∀ c ∈ (envName method i).toList, isNameChar c = true := by
  intro c hc
  rw [toList_envName, List.mem_append, List.mem_append] at hc
  rcases hc with hc | hc | hc
  · exact h c hc
  · exact List.all_eq_true.mp (show "$Env".toList.all isNameChar = true by decide) c hc
  · have := Nat.isDigit_of_mem_toDigits (by decide) (by decide) hc
    simp [isNameChar, Char.isAlphanum, this]

/-- The name of an environment type is one identifier. -/
theorem idents_envName {method : String} (h : ∀ c ∈ method.toList, isNameChar c = true) (i : Nat) :
    idents (envName method i) = [envName method i] := by
  have hne : (envName method i).toList ≠ [] := by simp [toList_envName]
  rw [idents, words_of_forall (isNameChar_envName h i) hne, List.map_singleton,
    String.ofList_toList]

end TypeName

/-! ## Type parameters -/

/-- A renamed type parameter is not mistaken for another one, nor is the name of an environment
type. -/
structure Method.Legible (method : Method) : Prop where
  name : ∀ c ∈ method.name.toList, TypeName.isNameChar c = true
  unmarked : ∀ p ∈ method.typeParams, '$' ∉ p.toList
  apart : ∀ p ∈ method.typeParams, ∀ q ∈ method.typeParams,
    p ∉ TypeName.idents (TypeName.renamedParam q)

/-- Type parameters that are identifiers can be told apart. -/
theorem Method.legible_of_isNameChar {method : Method}
    (hname : ∀ c ∈ method.name.toList, TypeName.isNameChar c = true)
    (hparams : ∀ p ∈ method.typeParams, ∀ c ∈ p.toList, TypeName.isNameChar c = true)
    (hunmarked : ∀ p ∈ method.typeParams, '$' ∉ p.toList) : method.Legible := by
  refine ⟨hname, hunmarked, fun p hp q hq hmem => ?_⟩
  have hlist : (TypeName.renamedParam q).toList = '$' :: q.toList := String.toList_append
  have hchars : ∀ c ∈ (TypeName.renamedParam q).toList, TypeName.isNameChar c = true := by
    rw [hlist]
    exact List.forall_mem_cons.mpr ⟨rfl, hparams q hq⟩
  rw [TypeName.idents, TypeName.words_of_forall hchars (by simp [hlist]), List.map_singleton,
    List.mem_singleton, String.ofList_toList] at hmem
  exact hunmarked p hp (by simp [hmem, hlist])

namespace Method.Legible

variable {method : Method} (h : method.Legible) {p : String} (hp : p ∈ method.typeParams)

include h hp

/-- No type parameter is left in a type that is respelled. -/
theorem not_mem_renameParams (type : String) :
    p ∉ TypeName.idents (TypeName.renameParams method.typeParams type) := by
  rw [TypeName.idents_renameParams, List.mem_map]
  rintro ⟨ident, -, hident⟩
  split at hident
  · refine h.unmarked p hp ?_
    rw [← hident, TypeName.renamedParam, String.toList_append]
    exact List.mem_append_left _ (by decide)
  · rename_i hnot
    exact hnot (hident ▸ hp)

/-- No type parameter occurs in the type of an environment, which is applied to the renamed ones. -/
theorem not_mem_reference (i : Nat) :
    p ∉ TypeName.idents (TypeName.reference (TypeName.envName method.name i)
      (method.typeParams.map TypeName.renamedParam)) := by
  rw [TypeName.idents_reference, TypeName.idents_envName h.name, List.mem_append,
    List.mem_singleton, List.mem_flatMap]
  rintro (rfl | ⟨arg, harg, hmem⟩)
  · refine h.unmarked _ hp ?_
    rw [TypeName.toList_envName]
    exact List.mem_append_right _ (List.mem_append_left _ (by decide))
  · obtain ⟨q, hq, rfl⟩ := List.mem_map.mp harg
    exact h.apart p hp q hq hmem

end Method.Legible

end Unnest
