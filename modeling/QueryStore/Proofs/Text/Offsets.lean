import QueryStore.Text.Slice

/-! Byte offsets between characters. A slice exists exactly between two of them
(`slice_isSome_iff`). What a position leads to is always one (`offset_boundary`), and positions
further on lead no less far (`offset_mono`). -/
namespace QueryStore.Text

/-- An offset at which a text can be cut in two. -/
def Boundary (text : List Char) (offset : Nat) : Prop :=
  ∃ before after, text = before ++ after ∧ byteLength before = offset

theorem boundary_zero (text : List Char) : Boundary text 0 := ⟨[], text, rfl, rfl⟩

theorem boundary_length (text : List Char) : Boundary text (byteLength text) :=
  ⟨text, [], (List.append_nil text).symm, rfl⟩

theorem Boundary.le_length {text : List Char} {offset : Nat} (boundary : Boundary text offset) :
    offset ≤ byteLength text := by
  obtain ⟨before, after, rfl, rfl⟩ := boundary
  rw [byteLength_append]
  exact Nat.le_add_right ..

/-- Of two cuts of one text the one after fewer bytes comes first. -/
theorem split_of_bytes {left right rest rest' : List Char} (whole : left ++ rest = right ++ rest')
    (bytes : byteLength left ≤ byteLength right) :
    ∃ more, right = left ++ more ∧ rest = more ++ rest' := by
  rcases List.append_eq_append_iff.mp whole with ⟨more, after, behind⟩ | ⟨more, after, behind⟩
  · exact ⟨more, after, behind⟩
  · rw [after, byteLength_append] at bytes
    obtain rfl : more = [] := byteLength_eq_zero.mp (by omega)
    exact ⟨[], by simpa using after.symm, behind.symm⟩

/-- Cuts of one text after the same bytes are the same. -/
theorem cut_of_bytes {left right rest rest' : List Char} (whole : left ++ rest = right ++ rest')
    (bytes : byteLength left = byteLength right) : left = right ∧ rest = rest' := by
  obtain ⟨more, rfl, rfl⟩ := split_of_bytes whole (Nat.le_of_eq bytes)
  rw [byteLength_append] at bytes
  obtain rfl : more = [] := byteLength_eq_zero.mp (by omega)
  simp

/-- Going over a character leads from boundary to boundary. -/
theorem boundary_cons {char : Char} {text : List Char} {offset : Nat} :
    Boundary (char :: text) offset ↔
      offset = 0 ∨ ∃ less, offset = char.utf8Size + less ∧ Boundary text less := by
  constructor
  · rintro ⟨before, after, whole, rfl⟩
    cases before with
    | nil => exact Or.inl rfl
    | cons first before =>
      obtain ⟨rfl, rfl⟩ := List.cons.inj whole
      exact Or.inr ⟨byteLength before, rfl, before, after, rfl, rfl⟩
  · rintro (rfl | ⟨less, rfl, before, after, rfl, rfl⟩)
    · exact boundary_zero _
    · exact ⟨char :: before, after, rfl, rfl⟩

theorem dropBytes_eq_some {text rest : List Char} {count : Nat} :
    dropBytes count text = some rest ↔
      ∃ before, text = before ++ rest ∧ byteLength before = count := by
  constructor
  · intro dropped
    induction text generalizing count with
    | nil =>
      unfold dropBytes at dropped
      split at dropped
      · next none => cases dropped; exact ⟨[], rfl, none.symm⟩
      · cases dropped
    | cons char text ih =>
      unfold dropBytes at dropped
      split at dropped
      · next none => cases dropped; exact ⟨[], rfl, none.symm⟩
      split at dropped
      · cases dropped
      · next reaches =>
        obtain ⟨before, rfl, size⟩ := ih dropped
        exact ⟨char :: before, rfl, by rw [byteLength, size]; omega⟩
  · rintro ⟨before, rfl, rfl⟩
    exact dropBytes_append before rest

theorem takeBytes_eq_some {text before : List Char} {count : Nat} :
    takeBytes count text = some before ↔
      ∃ rest, text = before ++ rest ∧ byteLength before = count := by
  constructor
  · intro taken
    induction text generalizing count before with
    | nil =>
      unfold takeBytes at taken
      split at taken
      · next none => cases taken; exact ⟨[], rfl, none.symm⟩
      · cases taken
    | cons char text ih =>
      unfold takeBytes at taken
      split at taken
      · next none => cases taken; exact ⟨char :: text, rfl, none.symm⟩
      split at taken
      · cases taken
      · next reaches =>
        obtain ⟨others, inner, rfl⟩ := Option.map_eq_some_iff.mp taken
        obtain ⟨rest, rfl, size⟩ := ih inner
        exact ⟨rest, rfl, by rw [byteLength, size]; omega⟩
  · rintro ⟨rest, rfl, rfl⟩
    exact takeBytes_append before rest

/-- Behind a boundary, boundaries are counted from there. -/
theorem boundary_append {before after : List Char} {more : Nat} :
    Boundary (before ++ after) (byteLength before + more) ↔ Boundary after more := by
  induction before with
  | nil => simp [byteLength]
  | cons char before ih =>
    have size := char.utf8Size_pos
    rw [List.cons_append, boundary_cons, ← ih]
    constructor
    · rintro (none | ⟨less, same, boundary⟩)
      · simp only [byteLength] at none
        omega
      · have equal : less = byteLength before + more := by
          simp only [byteLength] at same
          omega
        exact equal ▸ boundary
    · intro boundary
      exact Or.inr ⟨_, by simp only [byteLength, Nat.add_assoc], boundary⟩

/-- What is between two offsets stands behind the bytes of the one, and ends with those of the
other. -/
theorem slice_eq_some {text own : List Char} {start stop : Nat}
    (cut : slice text start stop = some own) : ∃ before after, text = before ++ (own ++ after) ∧
      byteLength before = start ∧ byteLength before + byteLength own = stop := by
  unfold slice at cut
  split at cut
  · next ordered =>
    obtain ⟨rest, dropped, taken⟩ := Option.bind_eq_some_iff.mp cut
    obtain ⟨before, rfl, rfl⟩ := dropBytes_eq_some.mp dropped
    obtain ⟨after, rfl, size⟩ := takeBytes_eq_some.mp taken
    exact ⟨before, after, rfl, rfl, by omega⟩
  · cases cut

/-- There is a text between two offsets exactly when both are boundaries, in order. -/
theorem slice_isSome_iff {text : List Char} {start stop : Nat} :
    (slice text start stop).isSome = true ↔
      start ≤ stop ∧ Boundary text start ∧ Boundary text stop := by
  simp only [Option.isSome_iff_exists]
  constructor
  · rintro ⟨own, cut⟩
    obtain ⟨before, after, rfl, rfl, rfl⟩ := slice_eq_some cut
    exact ⟨Nat.le_add_right .., ⟨before, own ++ after, rfl, rfl⟩, before ++ own, after, by simp,
      byteLength_append ..⟩
  · rintro ⟨ordered, ⟨before, rest, rfl, rfl⟩, stops⟩
    obtain ⟨more, rfl⟩ := Nat.exists_eq_add_of_le ordered
    obtain ⟨own, after, rfl, rfl⟩ := boundary_append.mp stops
    exact ⟨own, by rw [← List.append_assoc]; exact slice_append before own after⟩

/-- A text behind another one and before a third is sliced as it is alone. -/
theorem slice_within (front text back : List Char) {start stop : Nat}
    (bound : stop ≤ byteLength text) :
    slice (front ++ (text ++ back)) (byteLength front + start) (byteLength front + stop) =
      slice text start stop := by
  have inside : ∀ {offset : Nat}, offset ≤ byteLength text →
      Boundary (text ++ back) offset → Boundary text offset := by
    rintro _ before ⟨left, right, split, rfl⟩
    obtain ⟨more, rfl, -⟩ := split_of_bytes split.symm before
    exact ⟨left, more, rfl, rfl⟩
  cases cut : slice text start stop with
  | none =>
    refine Option.not_isSome_iff_eq_none.mp fun found => ?_
    obtain ⟨ordered, begins, ends⟩ := slice_isSome_iff.mp found
    have ordered' : start ≤ stop := by omega
    have held := slice_isSome_iff.mpr ⟨ordered', inside (Nat.le_trans ordered' bound)
      (boundary_append.mp begins), inside bound (boundary_append.mp ends)⟩
    rw [cut] at held
    cases held
  | some own =>
    obtain ⟨before, after, rfl, rfl, rfl⟩ := slice_eq_some cut
    have split := slice_append (front ++ before) own (after ++ back)
    rw [byteLength_append] at split
    simpa only [List.append_assoc, Nat.add_assoc] using split

private theorem columnOffset_boundary (count : Nat) (text : List Char) :
    Boundary text (columnOffset count text) := by
  induction text generalizing count with
  | nil =>
    rw [columnOffset]
    exact boundary_zero []
  | cons char text ih =>
    unfold columnOffset
    split
    · exact boundary_zero _
    · split
      · exact boundary_zero _
      · exact boundary_cons.mpr (Or.inr ⟨_, rfl, ih _⟩)

private theorem lineOffset_boundary (lines columns : Nat) (text : List Char) :
    Boundary text (lineOffset lines columns text) := by
  induction text generalizing lines with
  | nil => exact boundary_zero []
  | cons char text ih =>
    unfold lineOffset
    split
    · exact columnOffset_boundary ..
    · exact boundary_cons.mpr (Or.inr ⟨_, rfl, ih _⟩)

/-- A position leads to a point between characters. -/
theorem offset_boundary (position : Position) (text : List Char) :
    Boundary text (position.offset text) :=
  lineOffset_boundary ..

/-- Positions go by lines, and within a line by columns. -/
instance : LE Position where
  le left right := left.line < right.line ∨ left.line = right.line ∧ left.column ≤ right.column

theorem Position.le_iff {left right : Position} : left ≤ right ↔
    left.line < right.line ∨ left.line = right.line ∧ left.column ≤ right.column :=
  Iff.rfl

theorem Position.le_refl (position : Position) : position ≤ position :=
  Or.inr ⟨rfl, Nat.le_refl _⟩

theorem Position.le_trans {first second third : Position} (left : first ≤ second)
    (right : second ≤ third) : first ≤ third := by
  rw [Position.le_iff] at *
  omega

private theorem columnOffset_mono {count more : Nat} (fewer : count ≤ more) (text : List Char) :
    columnOffset count text ≤ columnOffset more text := by
  induction text generalizing count more with
  | nil => simp only [columnOffset, Nat.le_refl]
  | cons char text ih =>
    cases count with
    | zero => exact Nat.zero_le _
    | succ count =>
      obtain ⟨more, rfl⟩ := Nat.exists_eq_succ_of_ne_zero (Nat.ne_zero_of_lt fewer)
      unfold columnOffset
      simp only
      split
      · exact Nat.le_refl _
      · exact Nat.add_le_add_left (ih (Nat.le_of_succ_le_succ fewer)) _

/-- No column of a line lies behind the line. -/
private theorem columnOffset_le_lineOffset (count lines columns : Nat) (text : List Char) :
    columnOffset count text ≤ lineOffset (lines + 1) columns text := by
  induction text generalizing count with
  | nil => simp only [columnOffset, Nat.zero_le]
  | cons char text ih =>
    cases count with
    | zero => exact Nat.zero_le _
    | succ count =>
      unfold columnOffset lineOffset
      simp only
      by_cases feed : char = '\n'
      · simp [feed]
      · simp only [feed, ↓reduceIte]
        exact Nat.add_le_add_left (ih count) _

private theorem lineOffset_mono {lines more : Nat} (fewer : lines < more)
    (columns columns' : Nat) (text : List Char) :
    lineOffset lines columns text ≤ lineOffset more columns' text := by
  induction text generalizing lines more with
  | nil => exact Nat.le_refl _
  | cons char text ih =>
    obtain ⟨more, rfl⟩ := Nat.exists_eq_succ_of_ne_zero (Nat.ne_zero_of_lt fewer)
    cases lines with
    | zero => exact columnOffset_le_lineOffset ..
    | succ lines =>
      unfold lineOffset
      simp only
      refine Nat.add_le_add_left (ih ?_) _
      split <;> omega

/-- A position behind another leads no less far, lines being counted from one. -/
theorem offset_mono {left right : Position} (counted : 1 ≤ left.line) (ordered : left ≤ right)
    (text : List Char) : left.offset text ≤ right.offset text := by
  rcases ordered with earlier | ⟨same, before⟩
  · exact lineOffset_mono (by omega) _ _ text
  · -- On one line the same line ends are passed, and then no fewer columns.
    have columns : left.column - 1 ≤ right.column - 1 := by omega
    unfold Position.offset
    rw [same]
    generalize right.line - 1 = lines
    induction text generalizing lines with
    | nil => exact Nat.le_refl _
    | cons char text ih =>
      cases lines with
      | zero => exact columnOffset_mono columns _
      | succ lines => exact Nat.add_le_add_left (ih _) _

end QueryStore.Text
