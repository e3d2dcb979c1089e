import Mathlib.Data.List.Induction
import QueryStore.Proofs.Text.Offsets
import QueryStore.Proofs.Text.Lines

/-! Positions against the lines of a text. A line stands behind a line end or at the beginning, and
before a line end or at the end of the text (`Line`); each number through the count of line ends
and one more is that of a line (`exists_line`). A position in a line leads behind as many of its
characters as the column says, and no further than the line goes (`offset_in_line`). -/
namespace QueryStore.Text

/-- The number of characters behind the last line end, counted from the end of the text. -/
theorem columnOf_eq_takeWhile (before : List Char) :
    columnOf before = (before.reverse.takeWhile (· ≠ '\n')).length := by
  induction before using List.reverseRecOn with
  | nil => rfl
  | append_singleton before char ih =>
    rw [columnOf_snoc, List.reverse_concat]
    by_cases feed : char = '\n'
    · simp [feed]
    · simp [feed, ih]

/-- A line of a text, line ends apart, with what is before and behind it. -/
structure Line (text : List Char) where
  before : List Char
  own : List Char
  after : List Char
  whole : text = before ++ (own ++ after)
  begins : ∀ char ∈ before.getLast?, char = '\n'
  single : '\n' ∉ own
  ends : ∀ char ∈ after.head?, char = '\n'

/-- Lines are counted from one. -/
def Line.number {text : List Char} (line : Line text) : Nat := line.before.count '\n' + 1

/-- The first line of a text. -/
def Line.first (text : List Char) : Line text where
  before := []
  own := text.takeWhile (· ≠ '\n')
  after := text.dropWhile (· ≠ '\n')
  whole := List.takeWhile_append_dropWhile.symm
  begins := by simp
  single member := by
    have run := List.all_eq_true.mp (List.all_takeWhile (p := (· ≠ '\n')) (l := text)) _ member
    simp at run
  ends char member := by
    have head := List.head?_dropWhile_not (· ≠ '\n') text
    rw [Option.mem_def.mp member] at head
    simpa using head

/-- A line behind a character that is a line end, or in front of which a line end is. -/
def Line.behind {char : Char} {text : List Char} (line : Line text)
    (follows : line.before = [] → char = '\n') : Line (char :: text) where
  before := char :: line.before
  own := line.own
  after := line.after
  whole := congrArg (char :: ·) line.whole
  begins := by
    cases front : line.before with
    | nil => simpa using follows front
    | cons first rest =>
      have begins := line.begins
      rw [front] at begins
      simpa using begins
  single := line.single
  ends := line.ends

/-- Each line end ends a line, and one more line goes through the end of the text. -/
theorem exists_line {text : List Char} {feeds : Nat} (within : feeds ≤ text.count '\n') :
    ∃ line : Line text, line.before.count '\n' = feeds := by
  induction text generalizing feeds with
  | nil => exact ⟨.first [], (Nat.le_zero.mp within).symm⟩
  | cons char text ih =>
    cases feeds with
    | zero => exact ⟨.first _, rfl⟩
    | succ feeds =>
      by_cases feed : char = '\n'
      · subst feed
        rw [List.count_cons_self] at within
        obtain ⟨line, same⟩ := ih (Nat.le_of_succ_le_succ within)
        refine ⟨line.behind fun _ => rfl, ?_⟩
        rw [Line.behind, List.count_cons_self, same]
      · rw [List.count_cons_of_ne feed] at within
        obtain ⟨line, same⟩ := ih within
        have follows : line.before = [] → char = '\n' := by
          intro front
          rw [front] at same
          cases same
        refine ⟨line.behind follows, ?_⟩
        rw [Line.behind, List.count_cons_of_ne feed, same]

private theorem lineOffset_zero (columns : Nat) (text : List Char) :
    lineOffset 0 columns text = columnOffset columns text := by
  cases text <;> simp [lineOffset, columnOffset]

/-- Passing the line ends before a line leads to its beginning. -/
private theorem lineOffset_before {before : List Char}
    (begins : ∀ char ∈ before.getLast?, char = '\n') (columns : Nat) (rest : List Char) :
    lineOffset (before.count '\n') columns (before ++ rest) =
      byteLength before + columnOffset columns rest := by
  induction before with
  | nil => simpa [byteLength] using lineOffset_zero columns rest
  | cons char before ih =>
    have begins' : ∀ char ∈ before.getLast?, char = '\n' := by
      intro final last
      exact begins final (by simp [List.getLast?_cons, Option.mem_def.mp last])
    have passed := ih begins'
    by_cases feed : char = '\n'
    · subst feed
      rw [List.count_cons_self, List.cons_append, lineOffset, if_pos rfl, passed, byteLength,
        Nat.add_assoc]
    · -- The line end before the line is still ahead.
      have ahead : '\n' ∈ before := by
        cases last : before.getLast? with
        | none =>
          rw [List.getLast?_eq_none_iff.mp last] at begins
          exact absurd (begins char rfl) feed
        | some final => exact begins' final last ▸ List.mem_of_getLast? last
      obtain ⟨less, more⟩ : ∃ less, before.count '\n' = less + 1 :=
        Nat.exists_eq_succ_of_ne_zero (Nat.ne_of_gt (List.count_pos_iff.mpr ahead))
      rw [more] at passed
      rw [List.count_cons_of_ne feed, more, List.cons_append, lineOffset, if_neg feed, passed,
        byteLength, Nat.add_assoc]

/-- In a line a column counts characters, through the end of the line. -/
private theorem columnOffset_own {own after : List Char} (single : '\n' ∉ own)
    (ends : ∀ char ∈ after.head?, char = '\n') (count : Nat) :
    columnOffset count (own ++ after) = byteLength (own.take count) := by
  induction own generalizing count with
  | nil =>
    rw [List.nil_append, List.take_nil, byteLength]
    cases after with
    | nil => rw [columnOffset]
    | cons char after =>
      rw [ends char rfl]
      cases count <;> rfl
  | cons char own ih =>
    rw [List.mem_cons, not_or] at single
    cases count with
    | zero => rfl
    | succ count =>
      rw [List.cons_append, columnOffset, if_neg (Ne.symm single.1), ih single.2,
        List.take_succ_cons, byteLength]

/-- A position in a line leads behind as many of its characters as stand before the column, be it
beyond the end of the line. -/
theorem offset_in_line {text : List Char} (line : Line text) (column : Nat) :
    Position.offset ⟨line.number, column⟩ text =
      byteLength (line.before ++ line.own.take (column - 1)) := by
  obtain ⟨before, own, after, rfl, begins, single, ends⟩ := line
  rw [byteLength_append, ← columnOffset_own single ends, ← lineOffset_before begins]
  rfl

private theorem lineOffset_past {text : List Char} {lines : Nat} (past : text.count '\n' < lines)
    (columns : Nat) : lineOffset lines columns text = byteLength text := by
  induction text generalizing lines with
  | nil => rw [lineOffset, byteLength]
  | cons char text ih =>
    obtain ⟨lines, rfl⟩ := Nat.exists_eq_succ_of_ne_zero (Nat.ne_zero_of_lt past)
    rw [lineOffset, byteLength]
    by_cases feed : char = '\n'
    · subst feed
      rw [List.count_cons_self] at past
      rw [if_pos rfl, ih (Nat.lt_of_succ_lt_succ past)]
    · rw [List.count_cons_of_ne feed] at past
      rw [if_neg feed, ih past]

/-- Behind the last line is the end of the text. -/
theorem offset_past_lines {position : Position} {text : List Char}
    (past : text.count '\n' + 1 < position.line) : position.offset text = byteLength text :=
  lineOffset_past (Nat.lt_sub_of_add_lt past) _

/-- **Offsets invert the counting of lines and characters.** Any position, zeros included, leads to
a point between characters of the text. From the first line on, positions further on lead no less
far. The point behind any part of the text is found again from the line ends in the part and the
characters behind the last of them. A column past the end of a line leads to the end of that line,
a line past the last to the end of the text, and every number from one through the last is that of
a line. -/
theorem offsets_invert_positions (text : List Char) :
    (∀ position : Position, position.offset text ≤ byteLength text ∧
      Boundary text (position.offset text)) ∧
    (∀ left right : Position, 1 ≤ left.line → left ≤ right →
      left.offset text ≤ right.offset text) ∧
    (∀ before after, text = before ++ after →
      Position.offset ⟨before.count '\n' + 1,
        (before.reverse.takeWhile (· ≠ '\n')).length + 1⟩ text = byteLength before) ∧
    (∀ (line : Line text) (column : Nat), line.own.length < column →
      Position.offset ⟨line.number, column⟩ text = byteLength (line.before ++ line.own)) ∧
    (∀ number, 1 ≤ number → number ≤ text.count '\n' + 1 →
      ∃ line : Line text, line.number = number) ∧
    ∀ position : Position, text.count '\n' + 1 < position.line →
      position.offset text = byteLength text := by
  have boundary (position : Position) := offset_boundary position text
  refine ⟨fun position => ⟨(boundary position).le_length, boundary position⟩,
    fun left right counted ordered => offset_mono counted ordered text, ?_, ?_, ?_,
    fun position past => offset_past_lines past⟩
  · rintro before after rfl
    rw [← columnOf_eq_takeWhile]
    exact offset_positionAfter before after
  · intro line column past
    rw [offset_in_line, List.take_of_length_le (Nat.le_sub_one_of_lt past)]
  · intro number counted within
    obtain ⟨feeds, rfl⟩ := Nat.exists_eq_add_of_le' counted
    obtain ⟨line, same⟩ := exists_line (Nat.le_of_succ_le_succ within)
    exact ⟨line, congrArg (· + 1) same⟩

/-- Positions in lines with wide characters, one of them empty, and beyond them. -/
theorem mixed_lines_measured :
    let text := "é \x7b\n\n\t漢 \x7d\n".toList
    (1 ≤ 1 ∧ (⟨1, 9⟩ : Position) ≤ ⟨2, 0⟩ ∧
      Position.offset ⟨1, 9⟩ text ≤ Position.offset ⟨2, 0⟩ text) ∧
    (text = "é \x7b\n\n\t漢".toList ++ " \x7d\n".toList ∧ Position.offset ⟨3, 3⟩ text = 10) ∧
    (∃ line : Line text, line.own = "é \x7b".toList ∧ line.own.length < 9 ∧
      Position.offset ⟨1, 9⟩ text = 4) ∧
    (1 ≤ 2 ∧ 2 ≤ text.count '\n' + 1 ∧ ∃ line : Line text, line.number = 2) ∧
    text.count '\n' + 1 < 5 ∧ Position.offset ⟨5, 1⟩ text = 13 := by
  intro text
  obtain ⟨-, ordered, inverted, clamped, lines, past⟩ := offsets_invert_positions text
  have follows : (⟨1, 9⟩ : Position) ≤ ⟨2, 0⟩ := Or.inl (by decide)
  refine ⟨⟨by decide, follows, ordered _ _ (by decide) follows⟩,
    ⟨rfl, inverted "é \x7b\n\n\t漢".toList _ rfl⟩, ⟨.first text, rfl, by decide, ?_⟩,
    ⟨by decide, by decide, lines 2 (by decide) (by decide)⟩, by decide, past ⟨5, 1⟩ (by decide)⟩
  exact clamped (.first text) 9 (by decide)

end QueryStore.Text
