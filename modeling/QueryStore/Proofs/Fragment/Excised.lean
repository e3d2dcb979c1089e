import QueryStore.Proofs.Fragment.Cutting
import QueryStore.Proofs.Fragment.Edges
import QueryStore.Proofs.Fragment.Preparation

/-! The text in which the lists of variables are blank, beside the text they were cut out of
(`Shows`). Its chunks are those of the text outside of the lists (`Shows.chunked`), and wherever a
list was cut out it shows the keyword and the name of the fragment that the list was found behind
(`Shows.lists`), though these may be the latest of more names in a row, for a list that is cut out
parts names and its blanks do not. -/
namespace QueryStore
open Text

/-- Byte offsets of the same character in a text and in the text that is shown instead. -/
def Counterparts (source text : List Char) (offset offset' : Nat) : Prop :=
  ∃ before before', before <+: source ∧ before' <+: text ∧ Blanked before before' ∧
    byteLength before = offset ∧ byteLength before' = offset'

theorem Counterparts.extend {source text : List Char} {offset offset' : Nat}
    (counterparts : Counterparts source text offset offset') (more more' : List Char) :
    Counterparts (source ++ more) (text ++ more') offset offset' := by
  obtain ⟨before, before', within, within', blanked, bytes, bytes'⟩ := counterparts
  exact ⟨before, before', within.trans (List.prefix_append ..),
    within'.trans (List.prefix_append ..), blanked, bytes, bytes'⟩

/-- Beginnings of a text are ordered by their bytes as by their characters. -/
private theorem prefix_bytes {text left right : List Char} (begins : left <+: text)
    (begins' : right <+: text) : byteLength left < byteLength right ↔ left.length < right.length := by
  have shorter : ∀ {left right : List Char}, left <+: text → right <+: text →
      left.length ≤ right.length → ∃ more, right = left ++ more :=
    fun begins begins' fewer => (List.prefix_of_prefix_length_le begins begins' fewer).imp
      fun _ whole => whole.symm
  constructor
  · intro bytes
    by_contra fewer
    obtain ⟨more, rfl⟩ := shorter begins' begins (Nat.le_of_not_lt fewer)
    rw [byteLength_append] at bytes
    omega
  · intro fewer
    obtain ⟨more, rfl⟩ := shorter begins begins' (Nat.le_of_lt fewer)
    have filled : more ≠ [] := by
      rintro rfl
      simp at fewer
    rw [byteLength_append]
    exact Nat.lt_add_of_pos_right (byteLength_pos filled)

/-- Offsets are ordered in a text as they are in the text that is shown instead. -/
theorem Counterparts.lt_iff {source text : List Char} {left right left' right' : Nat}
    (here : Counterparts source text left left') (there : Counterparts source text right right') :
    left < right ↔ left' < right' := by
  obtain ⟨before, shown, within, within', blanked, rfl, rfl⟩ := here
  obtain ⟨other, shown', others, others', blanked', rfl, rfl⟩ := there
  rw [prefix_bytes within others, prefix_bytes within' others', blanked.length_eq,
    blanked'.length_eq]

theorem Counterparts.eq_iff {source text : List Char} {left right left' right' : Nat}
    (here : Counterparts source text left left') (there : Counterparts source text right right') :
    left = right ↔ left' = right' := by
  have before := here.lt_iff there
  have behind := there.lt_iff here
  omega

/-- A cut of a text is abreast of a cut of the text that is shown instead, behind the given parts
of the two: it may have forgotten some of the names that the other remembers. -/
structure Abreast (front front' : List Char) (left right : Spot) : Prop where
  blanked : Blanked front front'
  offset : left.offset = byteLength front
  offset' : right.offset = byteLength front'
  depth : right.depth = left.depth
  recent : ∃ latest earlier, right.recent = latest ++ earlier ∧
    List.Forall₂ (fun name name' => name'.2 = name.2 ∧ Counterparts front front' name.1 name'.1)
      left.recent latest

/-- Blanks in the place of a text. -/
def blanks (text : List Char) : List Chunk := (text.map Piece.blank).map .ignored

@[simp] theorem textOf_blanks (text : List Char) :
    Chunk.textOf (blanks text) = text.map Piece.blank := by
  induction text with
  | nil => rfl
  | cons char text ih => exact congrArg (Piece.blank char :: ·) ih

theorem blank_ignored (char : Char) : Chunk.isIgnored (Piece.blank char) = true := by
  unfold Piece.blank
  split
  · next line =>
    simp only [Chunk.endsLine, Bool.or_eq_true, decide_eq_true_eq] at line
    rcases line with rfl | rfl <;> decide
  · decide

theorem blanks_gap (text : List Char) : (blanks text).all Chunk.isGap = true := by
  simp [blanks, Chunk.isGap]

/-- Blanks are chunks whatever follows them. -/
theorem blanks_chunked (text : List Char) {chunks : List Chunk} (chunked : Chunk.Chunked chunks) :
    Chunk.Chunked (blanks text ++ chunks) := by
  induction text with
  | nil => exact chunked
  | cons char text ih =>
    exact Chunk.chunked_cons.mpr ⟨Chunk.ignored_follows (blank_ignored char) _, ih⟩

theorem RecentNames.heading_eq_some {recent : RecentNames} {keyword : Nat} {name : List Char} :
    recent.heading? = some (keyword, name) ↔ ∃ offset word earlier,
      recent = (offset, name) :: (keyword, word) :: earlier ∧ word = "fragment".toList := by
  constructor
  · intro found
    unfold RecentNames.heading? at found
    split at found
    · next offset name' keyword' word earlier =>
      split at found
      · next worded =>
        cases found
        exact ⟨_, _, _, rfl, worded⟩
      · cases found
    · cases found
  · rintro ⟨offset, word, earlier, rfl, worded⟩
    exact if_pos worded

section
variable {front front' : List Char} {left right : Spot}

theorem Abreast.past (abreast : Abreast front front' left right) (chunk : Chunk) :
    Abreast (front ++ chunk.text) (front' ++ chunk.text) (left.past chunk) (right.past chunk) where
  blanked := List.rel_append abreast.blanked (Blanked.refl _)
  offset := by simp [Spot.past, abreast.offset]
  offset' := by simp [Spot.past, abreast.offset']
  depth := by simp [Spot.past, abreast.depth]
  recent := by
    obtain ⟨latest, earlier, recent, same⟩ := abreast.recent
    have same' := same.imp fun _ _ names => (⟨names.1, names.2.extend chunk.text chunk.text⟩ : _ ∧ _)
    cases chunk with
    | ignored | comment => exact ⟨latest, earlier, recent, same'⟩
    | name text =>
      refine ⟨(right.offset, text) :: latest, earlier, congrArg (_ :: ·) recent, .cons ⟨rfl, ?_⟩ same'⟩
      exact ⟨front, front', List.prefix_append .., List.prefix_append .., abreast.blanked,
        abreast.offset.symm, abreast.offset'.symm⟩
    | string | dollar | mark => exact ⟨[], [], rfl, .nil⟩

/-- A list is cut out of the text, and blanks are kept in its place. -/
theorem Abreast.excise (abreast : Abreast front front' left right) (text : List Char) :
    Abreast (front ++ text) (front' ++ text.map Piece.blank)
      ⟨left.offset + byteLength text, left.depth, []⟩ (right.after (blanks text)) := by
  rw [right.after_gap (blanks_gap text), textOf_blanks]
  refine ⟨List.rel_append abreast.blanked ?_, ?_, ?_, abreast.depth, [], right.recent, rfl, .nil⟩
  · exact List.forall₂_map_right_iff.mpr (List.forall₂_same.mpr fun _ _ => Or.inr rfl)
  · rw [abreast.offset, byteLength_append]
  · rw [abreast.offset', byteLength_append]

/-- Where a list may be cut out of the text, the same fragment is behind in the other. -/
theorem Abreast.heading (abreast : Abreast front front' left right) {keyword : Nat}
    {name : List Char} (opens : left.heading? = some (keyword, name)) :
    ∃ offset, right.heading? = some (offset, name) ∧ Counterparts front front' keyword offset := by
  obtain ⟨latest, earlier, recent, same⟩ := abreast.recent
  unfold Spot.heading? at opens ⊢
  split at opens
  · next outside =>
    obtain ⟨offset, word, before, whole, worded⟩ := RecentNames.heading_eq_some.mp opens
    rw [whole] at same
    cases same with
    | @cons _ latestName _ _ first others =>
      cases others with
      | @cons _ latestWord _ _ second others =>
        obtain ⟨latestOffset, name'⟩ := latestName
        obtain ⟨wordOffset, word'⟩ := latestWord
        obtain ⟨rfl, -⟩ := first
        obtain ⟨rfl, place⟩ := second
        refine ⟨wordOffset, ?_, place⟩
        rw [if_pos (abreast.depth.trans outside), recent]
        exact if_pos worded
  · cases opens

end

/-- A cut of chunks, the chunks that are shown instead of them, and the spot behind it. -/
inductive Shows : Spot → List Chunk → List Piece → List Chunk → Spot → Prop
  | done {spot : Spot} : Shows spot [] [] [] spot
  | keep {spot last : Spot} {chunk : Chunk} {chunks shown : List Chunk} {found : List Piece}
    (shut : spot.opens? chunk = none) (later : Shows (spot.past chunk) chunks found shown last) :
    Shows spot (chunk :: chunks) (.kept chunk.text :: found) (chunk :: shown) last
  | excise {spot last : Spot} {keyword : Nat} {name : List Char} {chunks list rest shown : List Chunk}
    {found : List Piece} (opens : spot.opens? (.mark '(') = some (keyword, name))
    (closed : closingParenthesis 0 chunks = some (list, rest))
    (later : Shows ⟨spot.offset + byteLength ('(' :: Chunk.textOf list), spot.depth, []⟩ rest found
      shown last) :
    Shows spot (.mark '(' :: chunks)
      (.excised ⟨String.ofList name, keyword, '(' :: Chunk.textOf list⟩ :: found)
      (blanks ('(' :: Chunk.textOf list) ++ shown) last

theorem Cuts.shows {spot : Spot} {chunks : List Chunk} {found : List Piece}
    (cuts : Cuts spot chunks found) : ∃ shown last, Shows spot chunks found shown last := by
  induction cuts with
  | done => exact ⟨[], _, .done⟩
  | keep shut _ ih =>
    obtain ⟨shown, last, later⟩ := ih
    exact ⟨_, last, .keep shut later⟩
  | excise opens closed _ ih =>
    obtain ⟨shown, last, later⟩ := ih
    exact ⟨_, last, .excise opens closed later⟩

/-- The chunks of a list that is cut out and of what is behind it. -/
theorem textOf_list {chunks list rest : List Chunk}
    (closed : closingParenthesis 0 chunks = some (list, rest)) :
    Chunk.textOf (.mark '(' :: chunks) = ('(' :: Chunk.textOf list) ++ Chunk.textOf rest := by
  rw [closingParenthesis_split closed]
  simp [Chunk.text]

/-- A list that is cut out ends with the parenthesis that closes it. -/
private theorem closingParenthesis_last {inner : Nat} {chunks list rest : List Chunk}
    (closed : closingParenthesis inner chunks = some (list, rest)) :
    ∃ inside, list = inside ++ [.mark ')'] := by
  induction chunks generalizing inner list with
  | nil => cases closed
  | cons chunk chunks ih =>
    unfold closingParenthesis at closed
    split at closed
    · next closes =>
      cases closed
      simp only [Bool.and_eq_true, decide_eq_true_eq] at closes
      exact ⟨[], by rw [closes.1]; rfl⟩
    · obtain ⟨⟨found, rest'⟩, later, same⟩ := Option.map_eq_some_iff.mp closed
      cases same
      obtain ⟨inside, rfl⟩ := ih later
      exact ⟨chunk :: inside, rfl⟩

private theorem textOf_shown (list : List Char) (shown : List Chunk) :
    Chunk.textOf (blanks list ++ shown) = list.map Piece.blank ++ Chunk.textOf shown := by
  rw [Chunk.textOf_append, textOf_blanks]

section
variable {left last : Spot} {chunks shown : List Chunk} {found : List Piece}
  (shows' : Shows left chunks found shown last)
include shows'

/-- What is shown is the text in which the lists are blank. -/
theorem Shows.text : Chunk.textOf shown = blankedText found := by
  induction shows' with
  | done => rfl
  | keep _ _ ih =>
    rw [Chunk.textOf_cons, ih]
    rfl
  | excise _ _ _ ih =>
    rw [textOf_shown, ih]
    rfl

/-- What is shown instead of the chunks of a text are the chunks of the text that is shown. -/
theorem Shows.chunked (chunked : Chunk.Chunked chunks) :
    Chunk.Chunked shown ∧ Chunk.Edge (Chunk.textOf chunks) (Chunk.textOf shown) := by
  induction shows' with
  | done => exact ⟨chunked, .none⟩
  | @keep spot last chunk chunks shown found shut later ih =>
    obtain ⟨follows, chunked'⟩ := Chunk.chunked_cons.mp chunked
    obtain ⟨whole, edge⟩ := ih chunked'
    exact ⟨Chunk.chunked_cons.mpr ⟨Chunk.follows_edge edge follows, whole⟩, edge.append chunk.text⟩
  | @excise spot last keyword name chunks list rest shown found opens closed later ih =>
    have split := closingParenthesis_split closed
    rw [split] at chunked
    obtain ⟨whole, -⟩ := ih (Chunk.chunked_cons.mp chunked).2.suffix
    refine ⟨blanks_chunked _ whole, ?_⟩
    rw [textOf_list closed, textOf_shown]
    exact .some (by decide) (by decide) (by decide)

/-- A cut that is abreast of another one is so behind what is shown. -/
theorem Shows.abreast {front front' : List Char} {right : Spot}
    (abreast : Abreast front front' left right) :
    Abreast (front ++ Chunk.textOf chunks) (front' ++ Chunk.textOf shown) last
      (right.after shown) := by
  induction shows' generalizing front front' right with
  | done => simpa using abreast
  | @keep spot last chunk chunks shown found shut later ih =>
    rw [Chunk.textOf_cons, Chunk.textOf_cons, ← List.append_assoc, ← List.append_assoc]
    exact ih (abreast.past chunk)
  | @excise spot last keyword name chunks list rest shown found opens closed later ih =>
    rw [textOf_list closed, textOf_shown, ← List.append_assoc, ← List.append_assoc,
      Spot.after_append]
    exact ih (abreast.excise ('(' :: Chunk.textOf list))

/-- Every list was found behind a keyword and a name that are shown before its place. -/
theorem Shows.lists {front front' : List Char} {right : Spot}
    (abreast : Abreast front front' left right) :
    ∀ list ∈ variableLists found, ∃ earlier chunk later offset name,
      shown = earlier ++ chunk :: later ∧
      (right.after earlier).heading? = some (offset, name) ∧
      list.fragmentName = String.ofList name ∧
      Counterparts (front ++ Chunk.textOf chunks) (front' ++ Chunk.textOf shown)
        list.keywordOffset offset := by
  induction shows' generalizing front front' right with
  | done => simp [variableLists]
  | @keep spot last chunk chunks shown found shut later ih =>
    intro list member
    obtain ⟨earlier, other, rest, offset, name, rfl, heading, named, place⟩ :=
      ih (abreast.past chunk) list member
    refine ⟨chunk :: earlier, other, rest, offset, name, rfl, heading, named, ?_⟩
    rwa [List.append_assoc, List.append_assoc] at place
  | @excise spot last keyword name chunks list rest shown found opens closed later ih =>
    intro other member
    rw [textOf_list closed, textOf_shown, ← List.append_assoc, ← List.append_assoc]
    have opens' : spot.heading? = some (keyword, name) := opens
    rcases List.mem_cons.mp member with rfl | member'
    · obtain ⟨offset, heading, place⟩ := abreast.heading opens'
      refine ⟨[], .ignored ' ', blanks (Chunk.textOf list) ++ shown, offset, name, rfl, heading,
        rfl, ?_⟩
      rw [List.append_assoc, List.append_assoc]
      exact place.extend _ _
    · obtain ⟨earlier, chunk, others, offset, name', rfl, heading, named, place⟩ :=
        ih (abreast.excise ('(' :: Chunk.textOf list)) other member'
      refine ⟨blanks ('(' :: Chunk.textOf list) ++ earlier, chunk, others, offset, name',
        (List.append_assoc ..).symm, ?_, named, place⟩
      rwa [Spot.after_append]

/-- A string that is the last of the chunks is kept. -/
theorem Shows.last_string {text : List Char} (string : .string text ∈ chunks.getLast?) :
    .string text ∈ shown.getLast? := by
  induction shows' with
  | done => cases string
  | @keep spot last chunk chunks shown found shut later ih =>
    cases chunks with
    | nil =>
      cases later
      exact string
    | cons other chunks =>
      rw [List.getLast?_cons_cons] at string
      exact List.mem_getLast?_cons (ih string)
  | @excise spot last keyword name chunks list rest shown found opens closed later ih =>
    obtain ⟨inside, rfl⟩ := closingParenthesis_last closed
    rw [closingParenthesis_split closed] at string
    cases rest with
    | nil =>
      rw [List.append_nil, ← List.cons_append, List.getLast?_concat] at string
      cases string
    | cons other rest =>
      refine List.mem_getLast?_append_of_mem_getLast? (ih ?_)
      rwa [← List.cons_append, List.getLast?_append_cons] at string

end

end QueryStore
