import QueryStore.Document.Parse
import Mathlib.Data.List.Forall2

/-! A text is prepared before it is read as a document: with fragment variables enabled,
their lists are blanked out of it. The prepared text has a character for every character of
the source, and line ends where the source has them (`prepare_blanked`). -/
namespace QueryStore
open Text

/-- The text that is read as a document, and the variables that were taken out of it. -/
def Document.prepare (options : ParseOptions) (source : String) :
    Except (Failure SyntaxError) (List Char × VariableTable) :=
  if options.fragmentVariables then separateVariables source.toList
  else .ok (source.toList, [])

/-- A document is read from the prepared text. -/
theorem parse_eq (options : ParseOptions) (source : String) :
    Document.parse options source =
      match Document.prepare options source with
      | .error failure => .error failure
      | .ok (text, table) =>
        match readDefinitions (.ofPositions source) text with
        | .error failure => .error (failure.map .document)
        | .ok found => .ok ⟨attachVariables table found,
            some ⟨0, byteLength source.toList, some source⟩⟩ := by
  unfold Document.parse Document.prepare
  cases options.fragmentVariables with
  | false => rfl
  | true =>
    simp only [↓reduceIte, bind, Except.bind]
    cases separateVariables source.toList <;> rfl

/-- A document is what is read from the prepared text, with the variables. -/
theorem parse_of_read {options : ParseOptions} {source : String} {text : List Char}
    {table : VariableTable} {found : List Definition}
    (prepared : Document.prepare options source = .ok (text, table))
    (read : readDefinitions (.ofPositions source) text = .ok found) :
    Document.parse options source =
      .ok ⟨attachVariables table found, some ⟨0, byteLength source.toList, some source⟩⟩ := by
  rw [parse_eq, prepared]
  simp only [read]

/-- What a document consists of. -/
theorem parse_ok {options : ParseOptions} {source : String} {document : Document}
    (parsed : Document.parse options source = .ok document) :
    ∃ text table found, Document.prepare options source = .ok (text, table) ∧
      readDefinitions (.ofPositions source) text = .ok found ∧
      document = ⟨attachVariables table found, some ⟨0, byteLength source.toList, some source⟩⟩ := by
  rw [parse_eq] at parsed
  split at parsed
  · cases parsed
  · next text table prepared =>
    split at parsed
    · cases parsed
    · next found read =>
      cases parsed
      exact ⟨text, table, found, prepared, read, rfl⟩

/-- A text in which some characters are replaced by blanks. -/
def Blanked (source shown : List Char) : Prop :=
  List.Forall₂ (fun char other => other = char ∨ other = Piece.blank char) source shown

theorem Blanked.refl (text : List Char) : Blanked text text :=
  List.forall₂_same.mpr fun _ _ => Or.inl rfl

private theorem piece_text {front rest chunks : List Chunk} {piece : Piece}
    {others : Except String (List Piece)} {found : List Piece}
    (same : piece.text = Chunk.textOf front) (cut : others.map (piece :: ·) = .ok found)
    (later : ∀ {found}, others = .ok found → found.flatMap Piece.text = Chunk.textOf rest)
    (whole : chunks = front ++ rest) : found.flatMap Piece.text = Chunk.textOf chunks := by
  subst whole
  cases others with
  | error name => cases cut
  | ok others =>
    cases cut
    rw [List.flatMap_cons, same, later rfl, Chunk.textOf, Chunk.textOf, Chunk.textOf,
      List.flatMap_append]

private theorem piecesFrom_text {offset : Nat} {depth : Depth} {recent : RecentNames}
    {chunks : List Chunk} {found : List Piece}
    (cut : piecesFrom offset depth recent chunks = .ok found) :
    found.flatMap Piece.text = Chunk.textOf chunks := by
  have single : ∀ chunk : Chunk, (Piece.kept chunk.text).text = Chunk.textOf [chunk] := by
    simp [Chunk.textOf, Piece.text]
  fun_induction piecesFrom offset depth recent chunks generalizing found with
  | case1 => cases cut; rfl
  | case2 | case3 | case4 | case5 =>
    rename_i ih
    exact piece_text (single _) cut ih rfl
  | case6 =>
    rename_i text _ ih
    exact piece_text (single (.name text)) cut ih rfl
  | case7 =>
    rename_i char _ _ ih
    exact piece_text (single (.mark char)) cut ih rfl
  | case8 => cases cut
  | case9 =>
    rename_i char _ _ opened list after closed _ ih
    have parenthesis : char = '(' := by
      by_contra other
      simp [other] at opened
    refine piece_text ?_ cut ih (?_ : _ = (.mark char :: list) ++ after)
    · rw [parenthesis]
      rfl
    · rw [closingParenthesis_split closed]
      rfl

/-- The pieces of a text make it up. -/
theorem pieces_text {text : List Char} {found : List Piece} (cut : pieces text = .ok found) :
    found.flatMap Piece.text = text := by
  rw [piecesFrom_text cut, Chunk.textOf_ofText]

theorem blanked_pieces (found : List Piece) :
    Blanked (found.flatMap Piece.text) (blankedText found) := by
  induction found with
  | nil => exact .nil
  | cons piece found ih =>
    refine List.rel_append ?_ ih
    cases piece with
    | kept text => exact Blanked.refl text
    | excised list =>
      simp only [Piece.text, Piece.blanked]
      rw [List.forall₂_map_right_iff]
      exact List.forall₂_same.mpr fun _ _ => Or.inr rfl

/-- Preparing a text blanks out parts of it, if any. -/
theorem prepare_blanked {options : ParseOptions} {source : String} {text : List Char}
    {table : VariableTable} (prepared : Document.prepare options source = .ok (text, table)) :
    Blanked source.toList text := by
  unfold Document.prepare at prepared
  split at prepared
  · unfold separateVariables at prepared
    split at prepared
    · cases prepared
    · next found cut =>
      cases lists : (variableLists found).mapM VariableList.parse with
      | error failure => simp [lists, bind, Except.bind] at prepared
      | ok table' =>
        simp only [lists, bind, Except.bind, pure, Except.pure, Except.ok.injEq, Prod.mk.injEq]
          at prepared
        obtain ⟨rfl, -⟩ := prepared
        have shown := blanked_pieces found
        rwa [pieces_text cut] at shown
  · cases prepared
    exact Blanked.refl _

theorem blanked_split {source front back : List Char} (blanked : Blanked source (front ++ back)) :
    ∃ front' back', source = front' ++ back' ∧ Blanked front' front ∧ Blanked back' back :=
  ⟨source.take front.length, source.drop front.length, (List.take_append_drop _ _).symm,
    List.forall₂_take_append _ _ _ blanked, List.forall₂_drop_append _ _ _ blanked⟩

/-- What is not a space stands where it stands in the source. -/
theorem blanked_head {source rest : List Char} {shown : Char} (visible : shown ≠ ' ')
    (blanked : Blanked source (shown :: rest)) :
    ∃ others, source = shown :: others ∧ Blanked others rest := by
  cases blanked with
  | cons here others =>
    rcases here with rfl | blank
    · exact ⟨_, rfl, others⟩
    · unfold Piece.blank at blank
      split at blank
      · exact ⟨_, by rw [blank], others⟩
      · exact absurd blank visible

theorem blanked_mem {source text : List Char} (blanked : Blanked source text) {shown : Char}
    (member : shown ∈ text) (visible : shown ≠ ' ') : shown ∈ source := by
  obtain ⟨before, after, rfl⟩ := List.append_of_mem member
  obtain ⟨front, back, rfl, -, later⟩ := blanked_split blanked
  obtain ⟨others, rfl, -⟩ := blanked_head visible later
  simp

end QueryStore
