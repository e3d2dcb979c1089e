import QueryStore.Proofs.Document.Joined
import QueryStore.Proofs.Fragment.Attached

/-! Lists of variables in a text that stands on a new line behind another one. The cut of the first
text ends outside of all brackets and has no names left over (`Shows.outside`), so that the second
is cut as it is alone, only further on (`Cuts.onward`). So the texts are prepared one by one
(`Prepared.join`). -/
namespace QueryStore
open Text Grammar

/-- Behind the last brace of a whole text stand only gaps, so that it does not end in a string. -/
theorem Whole.last_chunk {text : List Char} (whole : Whole text)
    (calm : Calm (TokenStream.ofText text).tokens) :
    ∀ own, .string own ∉ (Chunk.ofText text).getLast? := by
  intro own last
  obtain ⟨closing, member, closes⟩ := whole.closes
  obtain ⟨inner, tokens⟩ := List.getLast?_eq_some_iff.mp member
  obtain ⟨mark, spelled⟩ := Token.punctuator_spelled closes
  have aligned : Aligned 0 (inner ++ [closing]) (Chunk.ofText text) :=
    tokens ▸ tokens_aligned whole.ended calm
  obtain ⟨inside, rest, cut, -, -, behind⟩ := aligned.up_to mark spelled (by decide)
  rw [cut, List.getLast?_append_cons] at last
  rcases List.mem_cons.mp (List.mem_of_getLast? last) with brace | gap
  · cases brace
  · cases List.all_eq_true.mp behind.behind_last _ gap

/-- Further on in a text. -/
def Spot.onward (distance : Nat) (spot : Spot) : Spot where
  offset := spot.offset + distance
  depth := spot.depth
  recent := spot.recent.map fun name => (name.1 + distance, name.2)

def VariableList.onward (distance : Nat) (list : VariableList) : VariableList :=
  { list with keywordOffset := list.keywordOffset + distance }

def Piece.onward (distance : Nat) : Piece → Piece
  | kept text => kept text
  | excised list => excised (list.onward distance)

/-- A table whose lists stand further on. -/
def onwardTable (distance : Nat) (table : VariableTable) : VariableTable :=
  table.map fun entry => (entry.1 + distance, entry.2)

section
variable (distance : Nat)

/-- Behind a line end a cut is where it is in a text of its own, only further on. -/
theorem Spot.fresh_line : (Spot.fresh distance).past (.ignored '\n') =
    (Spot.fresh 0).onward (distance + 1) := by
  have size : byteLength ['\n'] = 1 := rfl
  simp [Spot.past, Spot.fresh, Spot.onward, Chunk.brackets, Chunk.text, size]

theorem Spot.onward_past (spot : Spot) (chunk : Chunk) :
    (spot.onward distance).past chunk = (spot.past chunk).onward distance := by
  unfold Spot.onward Spot.past
  congr 1
  · exact Nat.add_right_comm ..
  · cases chunk <;> rfl

theorem RecentNames.heading_onward (recent : RecentNames) :
    RecentNames.heading? (recent.map fun name => (name.1 + distance, name.2)) =
      recent.heading?.map fun heading => (heading.1 + distance, heading.2) := by
  match recent with
  | [] | [_] => rfl
  | (_, name) :: (offset, word) :: _ =>
    simp only [List.map_cons, RecentNames.heading?]
    split <;> rfl

theorem Spot.onward_opens (spot : Spot) (chunk : Chunk) :
    (spot.onward distance).opens? chunk =
      (spot.opens? chunk).map fun heading => (heading.1 + distance, heading.2) := by
  have depth : (spot.onward distance).depth = spot.depth := rfl
  unfold Spot.opens? Spot.heading?
  rw [depth]
  split
  · split
    · exact RecentNames.heading_onward distance _
    · rfl
  · rfl

/-- Chunks are cut alike further on in a text. -/
theorem Cuts.onward {spot : Spot} {chunks : List Chunk} {found : List Piece}
    (cuts : Cuts spot chunks found) :
    Cuts (spot.onward distance) chunks (found.map (Piece.onward distance)) := by
  induction cuts with
  | done => exact .done
  | @keep spot chunk chunks found shut later ih =>
    refine .keep ?_ (Spot.onward_past distance spot chunk ▸ ih)
    rw [Spot.onward_opens, shut]
    rfl
  | @excise spot keyword name chunks list rest found opens closed later ih =>
    have opens' : (spot.onward distance).opens? (.mark '(') = some (keyword + distance, name) := by
      rw [Spot.onward_opens, opens]
      rfl
    refine .excise opens' closed ?_
    simp only [Spot.onward, List.map_nil, Nat.add_right_comm _ _ distance] at ih ⊢
    exact ih

omit distance in
theorem blanked_append (found others : List Piece) :
    blankedText (found ++ others) = blankedText found ++ blankedText others :=
  List.flatMap_append

omit distance in
theorem lists_append (found others : List Piece) :
    variableLists (found ++ others) = variableLists found ++ variableLists others :=
  List.filterMap_append

theorem blanked_onward (found : List Piece) :
    blankedText (found.map (Piece.onward distance)) = blankedText found := by
  unfold blankedText
  rw [List.flatMap_map]
  exact List.flatMap_congr fun piece _ => by cases piece <;> rfl

theorem lists_onward (found : List Piece) :
    variableLists (found.map (Piece.onward distance)) =
      (variableLists found).map (VariableList.onward distance) := by
  unfold variableLists
  rw [List.filterMap_map, List.map_filterMap]
  exact List.filterMap_congr fun piece _ => by cases piece <;> rfl

/-- A list is parsed alike further on in a text. -/
theorem VariableList.parse_onward (list : VariableList) :
    (list.onward distance).parse = list.parse.map fun entry => (entry.1 + distance, entry.2) := by
  have query : (list.onward distance).asQuery = list.asQuery := rfl
  unfold VariableList.parse
  rw [query]
  cases readDefinitions .none list.asQuery <;> rfl

end

private theorem closingParenthesis_more {inner : Nat} {chunks list rest : List Chunk}
    (closed : closingParenthesis inner chunks = some (list, rest)) (more : List Chunk) :
    closingParenthesis inner (chunks ++ more) = some (list, rest ++ more) := by
  induction chunks generalizing inner list with
  | nil => cases closed
  | cons chunk chunks ih =>
    unfold closingParenthesis at closed
    rw [List.cons_append, closingParenthesis]
    split at closed
    · next closes =>
      cases closed
      rw [if_pos closes]
    · next other =>
      obtain ⟨⟨found, rest'⟩, later, same⟩ := Option.map_eq_some_iff.mp closed
      cases same
      simp only [other, Bool.false_eq_true, ↓reduceIte, ih later]
      rfl

section
variable {left last : Spot} {chunks shown more : List Chunk} {found others : List Piece}
  (shows' : Shows left chunks found shown last)
include shows'

/-- What stands behind chunks is cut behind them. -/
theorem Shows.cuts (later : Cuts last more others) : Cuts left (chunks ++ more) (found ++ others) := by
  induction shows' with
  | done => exact later
  | keep shut _ ih => exact .keep shut (ih later)
  | excise opens closed _ ih => exact .excise opens (closingParenthesis_more closed more) (ih later)

/-- The cut of a text ends outside of all brackets and behind no names, if that of the text that is
shown does. -/
theorem Shows.outside (start : left = .fresh 0) (fresh : (left.after shown).Fresh) :
    last = .fresh (byteLength (Chunk.textOf chunks)) := by
  subst start
  have begins : Abreast [] [] (.fresh 0) (.fresh 0) := ⟨.nil, rfl, rfl, rfl, [], [], rfl, .nil⟩
  obtain ⟨-, offset, -, depth, latest, earlier, recent, same⟩ := shows'.abreast begins
  rw [fresh.names] at recent
  obtain ⟨rfl, -⟩ := List.append_eq_nil_iff.mp recent.symm
  cases last
  cases same
  simp only [List.nil_append] at offset
  simp only [Spot.fresh, Spot.mk.injEq, and_true]
  exact ⟨offset, depth.symm.trans fresh.outside⟩

end

/-- A text with its definitions, when the lists of variables are apart. -/
structure Prepared (options : ParseOptions) (source : String) (text : List Char)
    (table : VariableTable) (definitions : List Definition) : Prop where
  straight : Straight source.toList
  prepared : Document.prepare options source = .ok (text, table)
  read : readDefinitions (.ofPositions source) text = .ok definitions

section
variable {options : ParseOptions} {source : String} {text : List Char} {table : VariableTable}
  {definitions : List Definition} (here : Prepared options source text table definitions)
include here

theorem Prepared.blanked : Blanked source.toList text := prepare_blanked here.prepared

theorem Prepared.runs : Runs (DefinitionStands (placedBy (.ofPositions source)))
    (TokenStream.ofText text).tokens definitions :=
  (readDefinitions_stand (placedBy_locates _ _) here.read).2

theorem Prepared.calm : Calm (TokenStream.ofText text).tokens :=
  (here.straight.blanked here.blanked).calm

/-- Lists stand behind keywords in the text. -/
theorem Prepared.table_le : ∀ entry ∈ table, entry.1 ≤ byteLength source.toList := by
  intro entry member
  have prepared := here.prepared
  obtain ⟨_ | _⟩ := options
  · obtain ⟨-, rfl⟩ : source.toList = text ∧ [] = table := by
      simpa [Document.prepare] using prepared
    cases member
  · obtain ⟨found, cut, rfl, entered⟩ := prepare_pieces.mp prepared
    obtain ⟨list, listed, parsed⟩ := forall₂_mem_left entered.flip member
    obtain ⟨-, -, -, -, -, -, -, -, before, -, ⟨after, whole⟩, -, -, offset, -⟩ := lists_stand cut
      (whole_of_read here.read).ended here.calm here.runs list listed
    rw [VariableList.parse_offset parsed]
    exact Boundary.le_length ⟨before, after, whole.symm, offset⟩

/-- A text on a new line is cut into the pieces that it is cut into alone, further on. -/
private theorem Prepared.pieces {found found' : List Piece} {second : List Char}
    (cut : pieces source.toList = .ok found) (shown : text = blankedText found)
    (cut' : QueryStore.pieces second = .ok found') :
    QueryStore.pieces (source.toList ++ '\n' :: second) = .ok (found ++
      .kept ['\n'] :: found'.map (Piece.onward (byteLength source.toList + 1))) := by
  subst shown
  have whole := whole_of_read here.read
  obtain ⟨shown, last, shows'⟩ := (cuts_of_pieces cut).shows
  have chunks : Chunk.ofText (blankedText found) = shown := by
    rw [← shows'.text]
    exact (shows'.chunked (Chunk.chunked_ofText _)).1
  obtain ⟨-, fresh⟩ := @text_still (fun _ => True) _ _ _ whole.ended here.calm here.runs
    fun _ _ _ _ _ _ _ => trivial
  have outside := shows'.outside rfl (chunks ▸ fresh)
  have strings : ∀ own, .string own ∉ (Chunk.ofText source.toList).getLast? := fun own string =>
    whole.last_chunk here.calm own (chunks ▸ shows'.last_string string)
  have behind : Cuts last (.ignored '\n' :: Chunk.ofText second)
      (.kept ['\n'] :: found'.map (Piece.onward (byteLength source.toList + 1))) := by
    refine .keep (Spot.opens_other _ (by simp)) ?_
    rw [outside, Chunk.textOf_ofText, Spot.fresh_line]
    exact (cuts_of_pieces cut').onward _
  rw [QueryStore.pieces, Chunk.ofText_line strings]
  exact pieces_of_cuts (shows'.cuts behind)

/-- **Texts on lines of their own are prepared one by one.** -/
theorem Prepared.join {source' : String} {text' : List Char} {table' : VariableTable}
    (there : Document.prepare options source' = .ok (text', table')) :
    Document.prepare options (source ++ "\n" ++ source') = .ok (text ++ '\n' :: text',
      table ++ onwardTable (byteLength source.toList + 1) table') := by
  have joined : (source ++ "\n" ++ source').toList = source.toList ++ '\n' :: source'.toList := by
    simp
  have prepared := here.prepared
  obtain ⟨_ | _⟩ := options
  · simp only [Document.prepare, Bool.false_eq_true, ↓reduceIte, Except.ok.injEq,
      Prod.mk.injEq] at prepared there ⊢
    obtain ⟨rfl, rfl⟩ := prepared
    obtain ⟨rfl, rfl⟩ := there
    exact ⟨joined, rfl⟩
  · obtain ⟨found, cut, shown, entered⟩ := prepare_pieces.mp prepared
    obtain ⟨found', cut', rfl, entered'⟩ := prepare_pieces.mp there
    refine prepare_pieces.mpr ⟨_, joined ▸ here.pieces cut shown cut', ?_, ?_⟩
    · rw [blanked_append, shown]
      exact congrArg (blankedText found ++ '\n' :: ·) (blanked_onward _ found').symm
    · have lists : variableLists (.kept ['\n'] :: found'.map (Piece.onward
          (byteLength source.toList + 1))) =
            (variableLists found').map (VariableList.onward (byteLength source.toList + 1)) :=
        lists_onward _ found'
      rw [lists_append, lists]
      refine List.rel_append entered ?_
      rw [onwardTable, List.forall₂_map_left_iff, List.forall₂_map_right_iff]
      refine entered'.imp fun list entry parsed => ?_
      rw [VariableList.parse_onward, parsed]
      rfl

end
end QueryStore
