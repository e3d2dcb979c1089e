import QueryStore.Proofs.Fragment.OwnTexts

/-! Blanking out lists of variables keeps the shape of a text. The lists that are cut out stand in
regions of the text (`regions`), and what is left has every character of the text at its place, or
a blank if the place is in a region (`blankedText_getElem?`). So it has the same length and the same
line ends, and every place has its line and column. -/
namespace QueryStore
open Text

/-- A part of a text, by the numbers of characters before it and through its end. -/
structure Region where
  start : Nat
  stop : Nat
deriving DecidableEq, Repr

namespace Region

/-- The places in a region. -/
def Holds (region : Region) (index : Nat) : Prop := region.start ≤ index ∧ index < region.stop

instance (region : Region) (index : Nat) : Decidable (region.Holds index) :=
  inferInstanceAs (Decidable (_ ∧ _))

/-- The part of a text that a region is. -/
def part (text : List Char) (region : Region) : List Char :=
  (text.drop region.start).take (region.stop - region.start)

end Region

/-- The regions of lists that are cut out, behind a number of characters. -/
def regionsFrom (passed : Nat) : List Piece → List Region
  | [] => []
  | .kept text :: rest => regionsFrom (passed + text.length) rest
  | .excised list :: rest =>
    ⟨passed, passed + list.text.length⟩ :: regionsFrom (passed + list.text.length) rest

/-- The regions of a text that lists of variables are cut out of. -/
def regions (found : List Piece) : List Region := regionsFrom 0 found

/-- Whether a place is in a region. -/
def Excised (regions : List Region) (index : Nat) : Prop := ∃ region ∈ regions, region.Holds index

instance (regions : List Region) (index : Nat) : Decidable (Excised regions index) :=
  inferInstanceAs (Decidable (∃ region ∈ regions, region.Holds index))

theorem excised_cons {region : Region} {regions : List Region} {index : Nat} :
    Excised (region :: regions) index ↔ region.Holds index ∨ Excised regions index := by
  simp [Excised]

/-- No region begins before the pieces that it is one of. -/
theorem not_excised_before {found : List Piece} {passed index : Nat} (before : index < passed) :
    ¬ Excised (regionsFrom passed found) index := by
  induction found generalizing passed with
  | nil => simp [regionsFrom, Excised]
  | cons piece found ih =>
    cases piece with
    | kept text => exact ih (Nat.lt_add_right _ before)
    | excised list =>
      rw [regionsFrom, excised_cons, not_or]
      exact ⟨fun holds => Nat.not_lt.mpr holds.1 before, ih (Nat.lt_add_right _ before)⟩

section
variable {piece : Piece} {found : List Piece} {passed index : Nat}

/-- Within the first piece a place is in a region if the piece is cut out. -/
theorem excised_within (within : index < piece.text.length) :
    Excised (regionsFrom passed (piece :: found)) (passed + index) ↔ piece.list?.isSome = true := by
  have later : passed + index < passed + piece.text.length := Nat.add_lt_add_left within passed
  cases piece with
  | kept text =>
    rw [regionsFrom]
    exact iff_of_false (not_excised_before later) Bool.false_ne_true
  | excised list =>
    rw [regionsFrom, excised_cons]
    exact iff_of_true (Or.inl ⟨Nat.le_add_right .., later⟩) rfl

/-- Behind the first piece the regions are those of the other pieces. -/
theorem excised_behind :
    Excised (regionsFrom passed (piece :: found)) (passed + (piece.text.length + index)) ↔
      Excised (regionsFrom (passed + piece.text.length) found)
        (passed + piece.text.length + index) := by
  rw [← Nat.add_assoc]
  cases piece with
  | kept text => rfl
  | excised list =>
    rw [regionsFrom, excised_cons]
    refine or_iff_right fun holds => ?_
    exact Nat.not_lt.mpr (Nat.le_add_right ..) holds.2

end

theorem blanked_length (piece : Piece) : piece.blanked.length = piece.text.length := by
  cases piece with
  | kept text => rfl
  | excised list => exact List.length_map _

/-- A piece that is cut out is blanked, and any other is as it was. -/
theorem blanked_getElem? (piece : Piece) (index : Nat) : piece.blanked[index]? =
    piece.text[index]?.map fun char => if piece.list?.isSome then Piece.blank char else char := by
  cases piece with
  | kept text => exact Option.map_id'.symm
  | excised list => exact List.getElem?_map ..

/-- What is left of a text has a blank at the places in regions, and the characters of the text at
all others. -/
theorem blankedText_getElem? (passed : Nat) (found : List Piece) (index : Nat) :
    (blankedText found)[index]? = (found.flatMap Piece.text)[index]?.map fun char =>
      if Excised (regionsFrom passed found) (passed + index) then Piece.blank char else char := by
  induction found generalizing passed index with
  | nil => rfl
  | cons piece found ih =>
    rw [blankedText, List.flatMap_cons, List.flatMap_cons]
    by_cases within : index < piece.text.length
    · rw [List.getElem?_append_left within,
        List.getElem?_append_left (by rwa [blanked_length]), blanked_getElem?]
      simp only [excised_within within]
    · obtain ⟨index, rfl⟩ := Nat.exists_eq_add_of_le (Nat.not_lt.mp within)
      rw [List.getElem?_append_right (Nat.le_add_right ..),
        List.getElem?_append_right (by rw [blanked_length]; exact Nat.le_add_right ..),
        blanked_length, Nat.add_sub_cancel_left]
      simp only [excised_behind]
      exact ih _ index

/-- The regions are where the lists that are cut out stand in the text. -/
theorem regions_part (before : List Char) (found : List Piece) :
    (regionsFrom before.length found).map
        (Region.part (before ++ found.flatMap Piece.text)) =
      (variableLists found).map VariableList.text := by
  induction found generalizing before with
  | nil => rfl
  | cons piece found ih =>
    have behind := ih (before ++ piece.text)
    rw [List.length_append, List.append_assoc] at behind
    cases piece with
    | kept text => exact behind
    | excised list =>
      have own : Region.part (before ++ (list.text ++ found.flatMap Piece.text))
          ⟨before.length, before.length + list.text.length⟩ = list.text := by
        rw [Region.part, List.drop_left, Nat.add_sub_cancel_left, List.take_left]
      exact List.cons_eq_cons.mpr ⟨own, behind⟩

/-- Blanks are line ends where the text has line ends. -/
theorem blank_eq_feed {char feed : Char} (ends : feed = '\n' ∨ feed = '\r') :
    Piece.blank char = feed ↔ char = feed := by
  have space : ' ' ≠ feed := by rcases ends with rfl | rfl <;> decide
  unfold Piece.blank Chunk.endsLine
  split
  · exact Iff.rfl
  · next plain =>
    refine iff_of_false space ?_
    rintro rfl
    exact plain (by simpa using ends)

/-- **Blanking keeps the shape of a text.** Whenever the lists of variables of a text can be cut
out, they are the parts of the text in certain regions, and what is left has the same number of
characters: those outside of the regions as they were, and in the regions the line ends as they
were and a space for every other character. So there are line ends of either sort at the same
places, every place has the same line and column, and these lead to its offset in the text. -/
theorem blanking_keeps_shape {text : List Char} {found : List Piece}
    (cut : pieces text = .ok found) :
    (regions found).map (Region.part text) = (variableLists found).map VariableList.text ∧
    (blankedText found).length = text.length ∧
    (∀ index, (∀ region ∈ regions found, ¬ region.Holds index) →
      (blankedText found)[index]? = text[index]?) ∧
    (∀ region ∈ regions found, ∀ index, region.Holds index → ∀ char, text[index]? = some char →
      (blankedText found)[index]? = some (if char = '\n' ∨ char = '\r' then char else ' ')) ∧
    (∀ (index : Nat) (feed : Char), feed = '\n' ∨ feed = '\r' →
      ((blankedText found)[index]? = some feed ↔ text[index]? = some feed)) ∧
    (∀ index, positionAfter ((blankedText found).take index) = positionAfter (text.take index)) ∧
    ∀ index, (positionAfter ((blankedText found).take index)).offset text =
      byteLength (text.take index) := by
  have whole := pieces_text cut
  have blanked : Blanked text (blankedText found) := whole ▸ blanked_pieces found
  have each (index : Nat) : (blankedText found)[index]? = text[index]?.map fun char =>
      if Excised (regions found) index then Piece.blank char else char := by
    have shown := blankedText_getElem? 0 found index
    rwa [whole, Nat.zero_add] at shown
  have position (index : Nat) :
      positionAfter ((blankedText found).take index) = positionAfter (text.take index) :=
    (positionAfter_outline (List.forall₂_take index blanked.outline)).symm
  refine ⟨?_, blanked.length_eq.symm, ?_, ?_, ?_, position, ?_⟩
  · have parts := regions_part [] found
    rwa [List.nil_append, whole] at parts
  · intro index outside
    have kept : ¬ Excised (regions found) index := fun ⟨region, member, holds⟩ =>
      outside region member holds
    simp only [each, if_neg kept, Option.map_id']
  · intro region member index holds char here
    rw [each, here, Option.map_some, if_pos ⟨region, member, holds⟩]
    simp [Piece.blank, Chunk.endsLine]
  · intro index feed ends
    rw [each]
    cases text[index]? with
    | none => simp
    | some char =>
      simp only [Option.map_some, Option.some_inj]
      split
      · exact blank_eq_feed ends
      · exact Iff.rfl
  · intro index
    rw [position]
    have found' := offset_positionAfter (text.take index) (text.drop index)
    rwa [List.take_append_drop] at found'

/-- A list with a wide character and a line end is blanked out. What is behind it keeps its line and
column, but has one byte less before it. -/
theorem wide_list_blanked :
    let text := "fragment F($a: S = \"é)\",\r\n $b: I) on T \x7b a \x7d".toList
    ∃ found, pieces text = .ok found ∧ regions found = [⟨10, 33⟩] ∧
      (blankedText found).length = text.length ∧
      String.ofList (blankedText found) =
        "fragment F              \r\n        on T \x7b a \x7d" ∧
      positionAfter ((blankedText found).take 39) = positionAfter (text.take 39) ∧
      positionAfter (text.take 39) = ⟨2, 14⟩ ∧
      byteLength ((blankedText found).take 39) + 1 = byteLength (text.take 39) := by
  intro text
  have given : (pieces text).toOption.map (fun found => (regions found,
      String.ofList (blankedText found), byteLength ((blankedText found).take 39))) =
      some ([⟨10, 33⟩], "fragment F              \r\n        on T \x7b a \x7d", 39) := by
    decide +kernel
  cases cut : pieces text with
  | error name =>
    rw [cut] at given
    cases given
  | ok found =>
    obtain ⟨-, length, -, -, -, positions, -⟩ := blanking_keeps_shape cut
    rw [cut] at given
    obtain ⟨places, others⟩ := Prod.mk.inj (Option.some.inj given)
    obtain ⟨shown, bytes⟩ := Prod.mk.inj others
    exact ⟨found, rfl, places, length, shown, positions 39, by decide, by rw [bytes]; decide⟩

end QueryStore
