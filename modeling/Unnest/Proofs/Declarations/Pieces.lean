import Mathlib.Data.List.SplitBy
import Mathlib.Data.Set.Function
import Unnest.Proofs.Declarations.Identifiers

/-!
# Pieces of type names

A type name falls into pieces: the identifiers in it, which are its longest runs of identifier
bytes, and every other byte by itself. Respelling a type for an environment puts a `$` in front of
the pieces that are type parameters and leaves the other pieces and their order alone. From this it
follows when respelling can be undone and when doing it again changes nothing.

Identifiers are ASCII, and no byte of another character is, so it does not matter whether a type
name is read by characters or by bytes. Bytes need not be the encoding of a text.

## Main definitions

* `TypeName.pieces` : the pieces of a type name.
* `TypeName.renameBytes` : respelling on bytes.
* `TypeName.MarksPieces` : a function that marks type parameters and does nothing else.

## Main statements

* `TypeName.pieces_renameBytes` : respelling acts on every piece by itself.
* `TypeName.utf8_renameParams` : respelling a text respells its bytes.
* `TypeName.renameParams_marksPieces` : respelling marks type parameters and does nothing else.
-/

namespace Unnest

namespace TypeName

/-! ## Pieces -/

/-- The bytes an identifier is made of. -/
def isNameByte (b : UInt8) : Bool := isNameChar (Char.ofUInt8 b)

/-- The longest runs of identifier bytes, and every other byte by itself. -/
def pieces (bs : List UInt8) : List (List UInt8) :=
  bs.splitBy fun a b => isNameByte a && isNameByte b

/-- The byte put in front of a type parameter. -/
def dollar : UInt8 := '$'.toUInt8

/-- An identifier that is a type parameter gets a leading `$`, any other piece stays as it is. -/
def mark (ps : List (List UInt8)) (w : List UInt8) : List UInt8 :=
  if w.all isNameByte ∧ w ∈ ps then dollar :: w else w

/-- Respells bytes: the outer loop copies what belongs to no identifier, the inner one reads an
identifier to its end. -/
def renameBytes (ps : List (List UInt8)) : List UInt8 → List UInt8
  | [] => []
  | b :: bs =>
    if isNameByte b then
      let ident := b :: bs.takeWhile isNameByte
      (if ident ∈ ps then dollar :: ident else ident) ++ renameBytes ps (bs.dropWhile isNameByte)
    else b :: renameBytes ps bs
termination_by bs => bs.length
decreasing_by
  · exact Nat.lt_succ_of_le (List.dropWhile_sublist _).length_le
  · exact Nat.lt_succ_self _

variable {ps : List (List UInt8)} {b : UInt8} {bs cs w : List UInt8}

@[simp] theorem isNameByte_dollar : isNameByte dollar = true := by decide

@[simp] theorem flatten_pieces (bs : List UInt8) : (pieces bs).flatten = bs :=
  List.flatten_splitBy _ bs

theorem pieces_injective : Function.Injective pieces := fun bs cs h => by
  rw [← flatten_pieces bs, h, flatten_pieces]

/-- A run of identifier bytes is one piece. -/
theorem pieces_of_all (hw : w.all isNameByte = true) (hne : w ≠ []) : pieces w = [w] := by
  refine List.splitBy_of_isChain hne (List.Pairwise.isChain ?_)
  refine List.pairwise_of_forall_mem_list fun a ha b hb => ?_
  rw [List.all_eq_true] at hw
  simp [hw a ha, hw b hb]

/-- No piece goes past a byte that belongs to no identifier. -/
theorem pieces_append_cons (hb : isNameByte b = false) (bs cs : List UInt8) :
    pieces (bs ++ b :: cs) = pieces bs ++ pieces (b :: cs) :=
  List.splitBy_append_cons cs fun a _ => by simp [hb]

theorem pieces_cons (hb : isNameByte b = false) (bs : List UInt8) :
    pieces (b :: bs) = [b] :: pieces bs :=
  List.splitBy_append (l := [b]) fun a ha c _ => by
    obtain rfl : a = b := by simpa using ha.symm
    simp [hb]

/-- An identifier is a piece if the byte after it belongs to no identifier. -/
theorem pieces_append (hw : w.all isNameByte = true) (hne : w ≠ [])
    (hbs : ∀ b ∈ bs.head?, isNameByte b = false) : pieces (w ++ bs) = w :: pieces bs := by
  rw [pieces, List.splitBy_append fun a _ b hb => by simp [hbs b hb]]
  exact congrArg (· ++ pieces bs) (pieces_of_all hw hne)

/-! ## Respelling bytes -/

theorem all_mark (hw : w.all isNameByte = true) : (mark ps w).all isNameByte = true := by
  rw [mark]
  split <;> simp_all

theorem mark_ne_nil (hne : w ≠ []) : mark ps w ≠ [] := by
  rw [mark]
  split
  · exact List.cons_ne_nil _ _
  · exact hne

/-- What belongs to no identifier is copied. -/
theorem head_renameBytes (hbs : ∀ b ∈ bs.head?, isNameByte b = false) :
    (renameBytes ps bs).head? = bs.head? := by
  cases bs with
  | nil => rw [renameBytes]
  | cons b bs =>
    have hb : isNameByte b = false := hbs b rfl
    rw [renameBytes, if_neg (by simp [hb]), List.head?_cons, List.head?_cons]

/-- Respelling acts on every piece by itself. -/
theorem pieces_renameBytes (ps : List (List UInt8)) (bs : List UInt8) :
    pieces (renameBytes ps bs) = (pieces bs).map (mark ps) := by
  fun_induction renameBytes ps bs with
  | case1 => rfl
  | case2 b bs hb ident ih =>
    have hident : ident.all isNameByte = true := by
      simp only [ident, List.all_cons, hb, Bool.true_and, List.all_eq_true]
      exact fun c hc => List.mem_takeWhile_imp hc
    have hrest : ∀ c ∈ (bs.dropWhile isNameByte).head?, isNameByte c = false := by
      intro c hc
      have := List.head?_dropWhile_not isNameByte bs
      rwa [hc] at this
    have hsplit : b :: bs = ident ++ bs.dropWhile isNameByte := by
      simp [ident, List.takeWhile_append_dropWhile]
    have hmark : (if ident ∈ ps then dollar :: ident else ident) = mark ps ident := by
      simp [mark, hident]
    have hne : ident ≠ [] := List.cons_ne_nil _ _
    rw [hmark, pieces_append (all_mark hident) (mark_ne_nil hne) (head_renameBytes hrest ▸ hrest),
      ih, hsplit, pieces_append hident hne hrest, List.map_cons]
  | case3 b bs hb ih =>
    have hb : isNameByte b = false := Bool.eq_false_iff.mpr hb
    rw [pieces_cons hb, ih, pieces_cons hb, List.map_cons, mark, if_neg (by simp [hb])]

/-- Respelling works on either side of a byte that belongs to no identifier. -/
theorem renameBytes_append_cons (hb : isNameByte b = false) (bs cs : List UInt8) :
    renameBytes ps (bs ++ b :: cs) = renameBytes ps bs ++ b :: renameBytes ps cs := by
  have hcs : renameBytes ps (b :: cs) = b :: renameBytes ps cs := by
    rw [renameBytes, if_neg (by simp [hb])]
  refine pieces_injective ?_
  rw [pieces_renameBytes, pieces_append_cons hb, pieces_append_cons hb, ← hcs, pieces_renameBytes,
    pieces_renameBytes, List.map_append]

theorem renameBytes_append (hw : ∀ b ∈ w, isNameByte b = false) (bs : List UInt8) :
    renameBytes ps (w ++ bs) = w ++ renameBytes ps bs := by
  induction w with
  | nil => rfl
  | cons b w ih =>
    have hb : isNameByte b = false := hw b List.mem_cons_self
    rw [List.cons_append, renameBytes, if_neg (by simp [hb]),
      ih fun c hc => hw c (List.mem_cons_of_mem b hc), List.cons_append]

/-- An identifier is respelled as a whole. -/
theorem renameBytes_of_all (hw : w.all isNameByte = true) (hne : w ≠ []) :
    renameBytes ps w = mark ps w := by
  refine pieces_injective ?_
  rw [pieces_renameBytes, pieces_of_all hw hne, pieces_of_all (all_mark hw) (mark_ne_nil hne),
    List.map_singleton]

/-! ## Reversing -/

/-- Takes the leading `$` off a type parameter. -/
def unmark (ps : List (List UInt8)) : List UInt8 → List UInt8
  | [] => []
  | b :: w => if b = dollar ∧ w.all isNameByte ∧ w ∈ ps then w else b :: w

/-- A mark can be taken off again, unless the piece looked marked before. -/
theorem unmark_mark (h : w.all isNameByte = true → ∀ p ∈ ps, w ≠ dollar :: p) :
    unmark ps (mark ps w) = w := by
  rw [mark]
  split
  · rename_i hw
    rw [unmark, if_pos ⟨rfl, hw⟩]
  · cases w with
    | nil => rfl
    | cons b w =>
      rw [unmark, if_neg]
      rintro ⟨rfl, hw, hp⟩
      exact h (by simp [hw]) w hp rfl

/-- A mark is put on once, unless it makes another type parameter. -/
theorem mark_mark (h : ∀ p ∈ ps, ∀ q ∈ ps, p ≠ dollar :: q) (w : List UInt8) :
    mark ps (mark ps w) = mark ps w := by
  by_cases hw : w.all isNameByte ∧ w ∈ ps
  · have hmark : mark ps w = dollar :: w := if_pos hw
    rw [hmark, mark, if_neg fun hmem => h _ hmem.2 w hw.2 rfl]
  · have hmark : mark ps w = w := if_neg hw
    rw [hmark, hmark]

variable {β : Type} {bytes : β → List UInt8} {f : β → β}

/-- The function `f` marks the type parameters among the pieces of its argument. -/
structure MarksPieces (bytes : β → List UInt8) (ps : List (List UInt8)) (f : β → β) : Prop where
  /-- The pieces are the same, except that type parameters are marked. -/
  pieces_eq : ∀ t, pieces (bytes (f t)) = (pieces (bytes t)).map (mark ps)
  /-- Nothing is lost where no identifier looks like a marked type parameter. -/
  injOn : Set.InjOn f
    {t | ∀ w ∈ pieces (bytes t), w.all isNameByte = true → ∀ p ∈ ps, w ≠ dollar :: p}
  /-- Marking once is enough where no type parameter looks like a marked one. -/
  idempotent : (∀ p ∈ ps, ∀ q ∈ ps, p ≠ dollar :: q) → ∀ t, f (f t) = f t

/-- It is enough to know the pieces. -/
theorem marksPieces_of_pieces (hbytes : Function.Injective bytes)
    (hf : ∀ t, pieces (bytes (f t)) = (pieces (bytes t)).map (mark ps)) :
    MarksPieces bytes ps f where
  pieces_eq := hf
  injOn := by
    have hundo (t : β) (ht : ∀ w ∈ pieces (bytes t), w.all isNameByte = true →
        ∀ p ∈ ps, w ≠ dollar :: p) : (pieces (bytes (f t))).map (unmark ps) = pieces (bytes t) := by
      rw [hf, List.map_map]
      exact (List.map_congr_left fun w hw => unmark_mark (ht w hw)).trans (List.map_id _)
    intro t ht u hu heq
    refine hbytes (pieces_injective ?_)
    rw [← hundo t ht, heq, hundo u hu]
  idempotent h t := by
    refine hbytes (pieces_injective ?_)
    rw [hf, hf, List.map_map]
    exact List.map_congr_left fun w _ => mark_mark h w

/-! ## Text -/

/-- The bytes of a text. -/
def utf8 (s : String) : List UInt8 := s.toByteArray.data.toList

theorem utf8_injective : Function.Injective utf8 := by
  intro s t h
  exact String.toByteArray_inj.mp (ByteArray.ext (Array.toList_inj.mp h))

theorem utf8_ofList (cs : List Char) :
    utf8 (String.ofList cs) = cs.flatMap String.utf8EncodeChar := by
  rw [utf8, String.toByteArray_ofList, List.utf8Encode, List.toList_data_toByteArray]

theorem utf8_eq (s : String) : utf8 s = s.toList.flatMap String.utf8EncodeChar := by
  rw [← utf8_ofList, String.ofList_toList]

/-- Identifiers are ASCII. -/
theorem lt_of_isNameChar {c : Char} (h : isNameChar c = true) : c.toNat < 128 := by
  have hupper (h : c.isUpper = true) : c.val ≤ 'Z'.val := (of_decide_eq_true h).2
  have hlower (h : c.isLower = true) : c.val ≤ 'z'.val :=
    of_decide_eq_true (Bool.and_eq_true_iff.mp h).2
  have hdigit (h : c.isDigit = true) : c.val ≤ '9'.val :=
    of_decide_eq_true (Bool.and_eq_true_iff.mp h).2
  rw [isNameChar, Bool.or_eq_true, Bool.or_eq_true, beq_iff_eq, beq_iff_eq] at h
  obtain (h | rfl) | rfl := h
  · obtain h | h := Bool.or_eq_true_iff.mp h
    · obtain h | h := Bool.or_eq_true_iff.mp h
      · exact Nat.lt_of_le_of_lt (hupper h) (by decide)
      · exact Nat.lt_of_le_of_lt (hlower h) (by decide)
    · exact Nat.lt_of_le_of_lt (hdigit h) (by decide)
  · decide
  · decide

theorem isNameByte_of_le (hb : 128 ≤ b.toNat) : isNameByte b = false := by
  rw [Bool.eq_false_iff]
  intro h
  exact Nat.not_lt.mpr hb (lt_of_isNameChar h)

/-- No byte of a character outside ASCII is ASCII. -/
theorem le_of_mem_utf8EncodeChar {c : Char} (hc : 128 ≤ c.toNat)
    (hb : b ∈ String.utf8EncodeChar c) : 128 ≤ b.toNat := by
  -- each byte is a remainder with the leading bits of its place added
  have hbyte (n k : Nat) (hk : 128 ≤ k) (hlt : n + k < 256) :
      128 ≤ (UInt8.ofNat (n + k)).toNat := by
    rw [UInt8.toNat_ofNat_of_lt' hlt]
    omega
  revert hb
  fun_cases String.utf8EncodeChar c with
  | case1 v hle => exact absurd hc (Nat.not_le.mpr (Nat.lt_succ_of_le hle))
  | case2 | case3 | case4 =>
    simp only [List.mem_cons, List.not_mem_nil, or_false]
    rintro (rfl | rfl | rfl | rfl) <;> exact hbyte _ _ (by decide) (by omega)

/-- The bytes of a character belong to an identifier if the character does. -/
theorem isNameByte_utf8EncodeChar {c : Char} (hb : b ∈ String.utf8EncodeChar c) :
    isNameByte b = isNameChar c := by
  by_cases hc : c.toNat ≤ 127
  · have hencode : String.utf8EncodeChar c = [UInt8.ofNat c.toNat] := if_pos hc
    have hchar : Char.ofUInt8 b = c := by
      refine Char.ext (UInt32.toNat_inj.mp ?_)
      rw [hencode, List.mem_singleton] at hb
      change b.toUInt32.toNat = c.toNat
      rw [hb, UInt8.toNat_toUInt32, UInt8.toNat_ofNat_of_lt']
      exact Nat.lt_of_le_of_lt hc (by decide)
    rw [isNameByte, hchar]
  · have hchar : isNameChar c = false := by
      rw [Bool.eq_false_iff]
      intro h
      exact hc (Nat.le_of_lt_succ (lt_of_isNameChar h))
    rw [hchar, isNameByte_of_le (le_of_mem_utf8EncodeChar (by omega) hb)]

theorem all_utf8EncodeChar {cs : List Char} (h : ∀ c ∈ cs, isNameChar c = true) :
    (cs.flatMap String.utf8EncodeChar).all isNameByte = true := by
  rw [List.all_eq_true]
  intro b hb
  obtain ⟨c, hc, hb⟩ := List.mem_flatMap.mp hb
  rw [isNameByte_utf8EncodeChar hb, h c hc]

theorem utf8_renameIdent (ps : List String) {ident : List Char}
    (h : ∀ c ∈ ident, isNameChar c = true) :
    (renameIdent ps ident).flatMap String.utf8EncodeChar =
      mark (ps.map utf8) (ident.flatMap String.utf8EncodeChar) := by
  have hmem : ident.flatMap String.utf8EncodeChar ∈ ps.map utf8 ↔ String.ofList ident ∈ ps := by
    rw [← utf8_ofList, List.mem_map_of_injective utf8_injective]
  rw [mark, renameIdent]
  by_cases hps : String.ofList ident ∈ ps
  · rw [if_pos hps, if_pos ⟨all_utf8EncodeChar h, hmem.mpr hps⟩]
    rfl
  · rw [if_neg hps, if_neg fun h => hps (hmem.mp h.2)]

/-- The identifier read so far is respelled once it is complete. -/
theorem utf8_renamed (ps : List String) {ident : List Char}
    (h : ∀ c ∈ ident, isNameChar c = true) :
    (if ident.isEmpty then [] else renameIdent ps ident.reverse).flatMap String.utf8EncodeChar =
      renameBytes (ps.map utf8) (ident.reverse.flatMap String.utf8EncodeChar) := by
  cases ident with
  | nil => exact (renameBytes.eq_1 _).symm
  | cons c cs =>
    have hrev : ∀ d ∈ (c :: cs).reverse, isNameChar d = true := fun d hd =>
      h d (List.mem_reverse.mp hd)
    have hne : (c :: cs).reverse.flatMap String.utf8EncodeChar ≠ [] := by simp
    rw [renameBytes_of_all (all_utf8EncodeChar hrev) hne]
    exact utf8_renameIdent ps hrev

theorem utf8_renameFrom (ps : List String) {ident cs : List Char}
    (h : ∀ c ∈ ident, isNameChar c = true) :
    (renameFrom ps ident cs).flatMap String.utf8EncodeChar =
      renameBytes (ps.map utf8) ((ident.reverse ++ cs).flatMap String.utf8EncodeChar) := by
  induction cs generalizing ident with
  | nil =>
    rw [renameFrom, List.append_nil]
    exact utf8_renamed ps h
  | cons c cs ih =>
    rw [renameFrom]
    split
    · rename_i hc
      rw [ih (List.forall_mem_cons.mpr ⟨hc, h⟩), List.reverse_cons, List.append_assoc,
        List.singleton_append]
    · rename_i hc
      have hc : isNameChar c = false := Bool.eq_false_iff.mpr hc
      -- the first byte of the character ends the identifier, and all its bytes are copied
      obtain ⟨b, bs, hbs⟩ := List.exists_cons_of_ne_nil (String.utf8EncodeChar_ne_nil (c := c))
      have hnot : ∀ d ∈ b :: bs, isNameByte d = false := fun d hd =>
        (isNameByte_utf8EncodeChar (hbs ▸ hd)).trans hc
      have hih := @ih [] (by simp)
      rw [List.reverse_nil, List.nil_append] at hih
      rw [List.flatMap_append, utf8_renamed ps h, List.flatMap_cons, hih, List.flatMap_append,
        List.flatMap_cons, hbs, List.cons_append, List.cons_append,
        renameBytes_append_cons (hnot b List.mem_cons_self),
        renameBytes_append fun d hd => hnot d (List.mem_cons_of_mem b hd)]

/-- Respelling a text respells its bytes. -/
theorem utf8_renameParams (ps : List String) (type : String) :
    utf8 (renameParams ps type) = renameBytes (ps.map utf8) (utf8 type) := by
  rw [renameParams, utf8_ofList, utf8_renameFrom ps (by simp), utf8_eq]
  rfl

/-! ## Main statement -/

/-- Respelling marks the type parameters among the pieces of a type name and does nothing else,
whether the name is a text or any bytes, and it does the same to a text as to its bytes. -/
theorem renameParams_marksPieces :
    (∀ ps : List String, MarksPieces utf8 (ps.map utf8) (renameParams ps)) ∧
      (∀ ps : List (List UInt8), MarksPieces id ps (renameBytes ps)) ∧
      ∀ (ps : List String) (type : String),
        utf8 (renameParams ps type) = renameBytes (ps.map utf8) (utf8 type) := by
  refine ⟨fun ps => marksPieces_of_pieces utf8_injective fun type => ?_,
    fun ps => marksPieces_of_pieces Function.injective_id (pieces_renameBytes ps),
    utf8_renameParams⟩
  rw [utf8_renameParams, pieces_renameBytes]

/-- The type parameters `K` and `V` are marked in `Map<K, été<V1, V>>`, once and for all, and no
other type name without a marked parameter is respelled like it. -/
theorem marksPieces_map :
    let ps := ["K", "V"]
    let type := "Map<K, été<V1, V>>"
    renameParams ps type = "Map<$K, été<V1, $V>>" ∧
      pieces (utf8 (renameParams ps type)) = (pieces (utf8 type)).map (mark (ps.map utf8)) ∧
      renameParams ps (renameParams ps type) = renameParams ps type ∧
      ∀ other, (∀ w ∈ pieces (utf8 other), w.all isNameByte = true →
          ∀ p ∈ ps.map utf8, w ≠ dollar :: p) →
        renameParams ps other = renameParams ps type → other = type := by
  obtain ⟨htext, -⟩ := renameParams_marksPieces
  intro ps type
  refine ⟨by decide +kernel, (htext ps).pieces_eq type,
    (htext ps).idempotent (by decide +kernel) type, fun other hother heq => ?_⟩
  exact (htext ps).injOn hother (by decide +kernel) heq

-- a name that looks marked is not told from one that gets its mark
example : renameParams ["T"] "List<T>" = renameParams ["T"] "List<$T>" := by decide +kernel

-- a type parameter that looks marked is marked twice
example : renameParams ["T", "$T"] (renameParams ["T", "$T"] "T") = "$$T" := by decide +kernel

end TypeName

end Unnest
