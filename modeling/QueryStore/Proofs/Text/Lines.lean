import Mathlib.Data.List.Forall2
import QueryStore.Text.Slice

/-! Lines and columns as facts about the text before a point. The position of a point, turned
back into an offset, is the length of that text (`offset_position`), also in another text of
the same outline, which has a line end wherever the first has one. -/
namespace QueryStore.Text

/-- The number of line ends in a text. -/
def lineOf (before : List Char) : Nat := before.count '\n'

/-- The number of characters behind the last line end of a text. -/
def columnOf : List Char → Nat
  | [] => 0
  | char :: rest => if char = '\n' ∨ '\n' ∈ rest then columnOf rest else columnOf rest + 1

theorem lineOf_snoc (before : List Char) (char : Char) :
    lineOf (before ++ [char]) = if char = '\n' then lineOf before + 1 else lineOf before := by
  by_cases feed : char = '\n' <;> simp [lineOf, feed]

theorem columnOf_snoc (before : List Char) (char : Char) :
    columnOf (before ++ [char]) = if char = '\n' then 0 else columnOf before + 1 := by
  induction before with
  | nil => by_cases feed : char = '\n' <;> simp [columnOf, feed]
  | cons first before ih =>
    by_cases feed : char = '\n'
    · subst char
      simpa [columnOf] using ih
    · have other : '\n' ≠ char := Ne.symm feed
      simp only [List.cons_append, columnOf, ih, feed, ↓reduceIte, List.mem_append,
        List.mem_singleton, other, or_false]
      split <;> rfl

/-- The position of the point behind a text. -/
def positionAfter (before : List Char) : Position := ⟨lineOf before + 1, columnOf before + 1⟩

private theorem columnOffset_line {before : List Char} (single : '\n' ∉ before)
    (after : List Char) : columnOffset (columnOf before) (before ++ after) = byteLength before := by
  induction before with
  | nil => cases after <;> rfl
  | cons char before ih =>
    simp only [List.mem_cons, not_or] at single
    have other : char ≠ '\n' := Ne.symm single.1
    simp [columnOf, columnOffset, other, single.2, byteLength, ih single.2]

private theorem lineOffset_lines (before after : List Char) :
    lineOffset (lineOf before) (columnOf before) (before ++ after) = byteLength before := by
  induction before with
  | nil => cases after <;> rfl
  | cons char before ih =>
    by_cases feed : char = '\n'
    · subst char
      have line : lineOf ('\n' :: before) = lineOf before + 1 := by simp [lineOf]
      simpa [line, columnOf, lineOffset, byteLength] using ih
    by_cases later : '\n' ∈ before
    · have line : lineOf (char :: before) = lineOf before := by simp [lineOf, feed]
      obtain ⟨less, more⟩ : ∃ less, lineOf before = less + 1 :=
        Nat.exists_eq_succ_of_ne_zero (Nat.ne_of_gt (List.count_pos_iff.mpr later))
      rw [more] at ih line
      simpa [line, columnOf, later, feed, lineOffset, byteLength] using ih
    · have single : '\n' ∉ char :: before := by simp [Ne.symm feed, later]
      have line : lineOf (char :: before) = 0 := List.count_eq_zero.mpr single
      rw [line]
      exact columnOffset_line single after

/-- The position behind a text leads back there. -/
theorem offset_positionAfter (before after : List Char) :
    (positionAfter before).offset (before ++ after) = byteLength before :=
  lineOffset_lines before after

/-- A text that has its line ends where another has them. -/
def Outline (left right : List Char) : Prop :=
  List.Forall₂ (fun char other => char = '\n' ↔ other = '\n') left right

/-- Texts of one outline have the same positions. -/
theorem positionAfter_outline {left right : List Char} (same : Outline left right) :
    positionAfter left = positionAfter right := by
  have both : lineOf left = lineOf right ∧ columnOf left = columnOf right ∧
      ('\n' ∈ left ↔ '\n' ∈ right) := by
    induction same with
    | nil => simp
    | @cons char other left right here _ ih =>
      obtain ⟨lines, columns, within⟩ := ih
      by_cases feed : char = '\n'
      · have feed' := here.mp feed
        subst feed feed'
        simpa [lineOf, columnOf] using ⟨lines, columns⟩
      · have feed' : other ≠ '\n' := fun equal => feed (here.mpr equal)
        have others : '\n' ≠ char ∧ '\n' ≠ other := ⟨Ne.symm feed, Ne.symm feed'⟩
        refine ⟨?_, ?_, ?_⟩
        · simpa [lineOf, feed, feed'] using lines
        · simp only [columnOf, feed, feed', within, columns]
        · simpa [others] using within
  rw [positionAfter, positionAfter, both.1, both.2.1]

end QueryStore.Text
