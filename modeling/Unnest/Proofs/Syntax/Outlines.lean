import Mathlib.Data.List.Basic
import Unnest.Syntax.Outline

/-!
# Outlines can be read back

The text of an outline is a list of lines that carry nothing but labels and the drawing in front of
them. Yet it determines the outline, whatever the labels look like, as long as none of them breaks a
line. The lines are what stands between the newlines of the text. The lines below a node are those
that go on with its indent, and the corner or bar after the indent says whether a child is the last
one.

## Main definitions

* `Outline.Clear` : what follows an outline is not taken for a part of it.
* `Outline.OneLine` : no label breaks a line.
-/

namespace Unnest

namespace Outline

/-! ## From the lines to the outline -/

def label : Outline → String
  | .mk label _ => label

def children : Outline → List Outline
  | .mk _ children => children

/-- The first of the lines, if there is one, does not go on with the indent. -/
def Clear (indent : String) (ls : List String) : Prop :=
  ∀ l ∈ ls.head?, ¬ indent.toList <+: l.toList

theorem Clear.nil (indent : String) : Clear indent [] := by
  intro l hl
  simp at hl

/-- What is clear of an indent is clear of every longer one. -/
theorem Clear.append {indent : String} {ls : List String} (h : Clear indent ls) (more : String) :
    Clear (indent ++ more) ls := by
  intro l hl hpre
  apply h l hl
  rw [String.toList_append] at hpre
  exact (List.prefix_append _ _).trans hpre

/-- The first child is drawn with a corner if it is alone and with a bar if it is not. -/
theorem exists_childLines_eq (indent : String) (c : Outline) (cs : List Outline) :
    ∃ ls, childLines indent (c :: cs) =
      (indent ++ (if cs.isEmpty then "`-" else "|-") ++ c.label) :: ls := by
  obtain ⟨label, children⟩ := c
  cases cs with
  | nil => exact ⟨_, rfl⟩
  | cons d cs => exact ⟨_, rfl⟩

theorem not_clear_childLines (indent : String) (c : Outline) (cs : List Outline)
    (ls : List String) : ¬ Clear indent (childLines indent (c :: cs) ++ ls) := by
  intro h
  obtain ⟨rest, hrest⟩ := exists_childLines_eq indent c cs
  apply h (indent ++ (if cs.isEmpty then "`-" else "|-") ++ c.label)
  · simp [hrest]
  · simp [String.toList_append]

/-- The next child is not taken for a child of the one before it: a bar is followed by a space in
an indent and by a dash in a lead. -/
theorem clear_childLines (indent : String) (c : Outline) (cs : List Outline) (ls : List String) :
    Clear (indent ++ "| ") (childLines indent (c :: cs) ++ ls) := by
  obtain ⟨rest, hrest⟩ := exists_childLines_eq indent c cs
  intro l hl hpre
  obtain rfl : indent ++ (if cs.isEmpty then "`-" else "|-") ++ c.label = l := by
    simpa [hrest] using hl
  cases hcs : cs.isEmpty <;> simp [hcs, String.toList_append, List.append_assoc] at hpre

/-- A last child is not taken for one that has others after it. -/
theorem corner_ne_bar (indent : String) (c c' d' : Outline) (cs' : List Outline)
    (ls ls' : List String) :
    childLines indent [c] ++ ls ≠ childLines indent (c' :: d' :: cs') ++ ls' := by
  obtain ⟨rest, hrest⟩ := exists_childLines_eq indent c []
  obtain ⟨rest', hrest'⟩ := exists_childLines_eq indent c' (d' :: cs')
  intro h
  have hfirst : indent ++ "`-" ++ c.label = indent ++ "|-" ++ c'.label := by
    simpa [hrest, hrest'] using congrArg List.head? h
  simpa [String.append_assoc, String.toList_append] using congrArg String.toList hfirst

mutual

/-- Where an outline ends in a list of lines, and which outline it is, can be read off the lines. -/
theorem lines_inj (lead indent : String) (o o' : Outline) {ls ls' : List String}
    (h : o.lines lead indent ++ ls = o'.lines lead indent ++ ls') (hls : Clear indent ls)
    (hls' : Clear indent ls') : o = o' ∧ ls = ls' := by
  cases o with
  | mk label children =>
    cases o' with
    | mk label' children' =>
      obtain ⟨hlabel, hchildren⟩ := List.cons.inj h
      obtain rfl : label = label' := (String.append_right_inj lead).mp hlabel
      obtain ⟨rfl, rfl⟩ := childLines_inj indent children children' hchildren hls hls'
      exact ⟨rfl, rfl⟩

theorem childLines_inj (indent : String) (cs cs' : List Outline) {ls ls' : List String}
    (h : childLines indent cs ++ ls = childLines indent cs' ++ ls') (hls : Clear indent ls)
    (hls' : Clear indent ls') : cs = cs' ∧ ls = ls' := by
  match cs, cs' with
  | [], [] => exact ⟨rfl, h⟩
  | [], c' :: cs' =>
    obtain rfl : ls = _ := h
    exact absurd hls (not_clear_childLines indent c' cs' ls')
  | c :: cs, [] =>
    obtain rfl : _ = ls' := h
    exact absurd hls' (not_clear_childLines indent c cs ls)
  | [c], [c'] =>
    obtain ⟨rfl, rfl⟩ := lines_inj _ _ c c' h (hls.append "  ") (hls'.append "  ")
    exact ⟨rfl, rfl⟩
  | [c], c' :: d' :: cs' => exact absurd h (corner_ne_bar indent c c' d' cs' ls ls')
  | c :: d :: cs, [c'] => exact absurd h.symm (corner_ne_bar indent c' c d cs ls' ls)
  | c :: d :: cs, c' :: d' :: cs' =>
    simp only [childLines, List.append_assoc] at h
    obtain ⟨rfl, hrest⟩ := lines_inj _ _ c c' h (clear_childLines indent d cs ls)
      (clear_childLines indent d' cs' ls')
    obtain ⟨heq, rfl⟩ := childLines_inj indent (d :: cs) (d' :: cs') hrest hls hls'
    exact ⟨heq ▸ rfl, rfl⟩

end

/-! ## From the text to the lines -/

/-- No label breaks a line. -/
inductive OneLine : Outline → Prop where
  | mk {label : String} {children : List Outline} (hlabel : '\n' ∉ label.toList)
      (hchildren : ∀ c ∈ children, OneLine c) : OneLine (.mk label children)

theorem OneLine.of_label {o : Outline} (hlabel : '\n' ∉ o.label.toList)
    (hchildren : ∀ c ∈ o.children, c.OneLine) : o.OneLine := by
  cases o with
  | mk label children => exact .mk hlabel hchildren

theorem notMem_childLines {cs : List Outline}
    (hcs : ∀ c ∈ cs, ∀ lead indent : String, '\n' ∉ lead.toList → '\n' ∉ indent.toList →
      ∀ l ∈ c.lines lead indent, '\n' ∉ l.toList)
    {indent : String} (hindent : '\n' ∉ indent.toList) :
    ∀ l ∈ childLines indent cs, '\n' ∉ l.toList := by
  have hmore : ∀ more : String, '\n' ∉ more.toList → '\n' ∉ (indent ++ more).toList := by
    intro more hmore
    simp [String.toList_append, hindent, hmore]
  match cs with
  | [] => simp [childLines]
  | [c] =>
    exact hcs c (by simp) _ _ (hmore "`-" (by decide)) (hmore "  " (by decide))
  | c :: d :: cs =>
    intro l hl
    rcases List.mem_append.mp hl with hl | hl
    · exact hcs c (by simp) _ _ (hmore "|-" (by decide)) (hmore "| " (by decide)) l hl
    · exact notMem_childLines (fun c hc => hcs c (List.mem_cons_of_mem _ hc)) hindent l hl

theorem OneLine.notMem_lines {o : Outline} (ho : o.OneLine) :
    ∀ lead indent : String, '\n' ∉ lead.toList → '\n' ∉ indent.toList →
      ∀ l ∈ o.lines lead indent, '\n' ∉ l.toList := by
  induction ho with
  | mk hlabel hchildren ih =>
    intro lead indent hlead hindent l hl
    rcases List.mem_cons.mp hl with rfl | hl
    · simp [String.toList_append, hlead, hlabel]
    · exact notMem_childLines ih hindent l hl

theorem append_cons_inj {α : Type} {a : α} {x x' z z' : List α} (hx : a ∉ x) (hx' : a ∉ x')
    (h : x ++ a :: z = x' ++ a :: z') : x = x' ∧ z = z' := by
  induction x generalizing x' with
  | nil =>
    cases x' with
    | nil => grind
    | cons b x' => grind
  | cons b x ih =>
    cases x' with
    | nil => grind
    | cons c x' => grind

/-- Lines that are ended by newlines are told apart by them. -/
theorem lines_eq_of_joined {ls ls' : List String} (hls : ∀ l ∈ ls, '\n' ∉ l.toList)
    (hls' : ∀ l ∈ ls', '\n' ∉ l.toList)
    (h : String.join (ls.map (· ++ "\n")) = String.join (ls'.map (· ++ "\n"))) : ls = ls' := by
  replace h := congrArg String.toList h
  simp only [String.toList_join, List.flatMap_map, String.toList_append] at h
  induction ls generalizing ls' with
  | nil =>
    cases ls' with
    | nil => rfl
    | cons l' ls' => simp at h
  | cons l ls ih =>
    cases ls' with
    | nil => simp at h
    | cons l' ls' =>
      rw [List.forall_mem_cons] at hls hls'
      simp only [List.flatMap_cons, List.append_assoc] at h
      obtain ⟨hl, hrest⟩ := append_cons_inj hls.1 hls'.1 h
      rw [String.toList_inj.mp hl, ih hls.2 hls'.2 hrest]

/-- An outline whose labels stand on one line each is determined by its text. -/
theorem OneLine.eq_of_text {o o' : Outline} (ho : o.OneLine) (ho' : o'.OneLine)
    (h : o.text = o'.text) : o = o' := by
  have hlines : o.lines "" "" = o'.lines "" "" :=
    lines_eq_of_joined (ho.notMem_lines "" "" (by decide) (by decide))
      (ho'.notMem_lines "" "" (by decide) (by decide)) h
  have hend : o.lines "" "" ++ [] = o'.lines "" "" ++ [] := by rw [hlines]
  exact (lines_inj "" "" o o' hend (Clear.nil _) (Clear.nil _)).1

end Outline

end Unnest
