import QueryStore.Proofs.Fragment.Searching

/-! What the search for lists of variables comes to, for any text (`extract_total`). The search sees
a whole heading from the keyword on, and the coarse cut remembers the names that it has passed; at
every spot in between the two agree on where a list begins (`Left.past`, `Left.shut`). So the
regions and the text without them are those of the pieces (`Found`), by induction on the chunks that
are left (`search_from`). -/
namespace QueryStore
open Text Chunk

/-- A list of variables that is headed in the chunks of a text: the keyword of a fragment, a
heading, and a parenthesis that opens the list. -/
structure Headed (text : List Char) where
  front : List Chunk
  heading : Heading
  behind : List Chunk
  whole : ofText text = front ++ keyword :: (heading.chunks ++ .mark '(' :: behind)

namespace Headed
variable {text : List Char} (headed : Headed text)

/-- Where the keyword begins. -/
def offset : Nat := byteLength (textOf headed.front)

/-- Where the list begins. -/
def start : Nat := headed.offset + byteLength (textOf (keyword :: headed.heading.chunks))

/-- Where the list is, if it is closed. -/
def region (list : List Chunk) : Scanner.Region where
  fragmentName := String.ofList headed.heading.name
  keywordOffset := headed.offset
  start := headed.start
  stop := headed.start + byteLength (textOf (.mark '(' :: list))

theorem cutAt : CutAt text headed.offset
    (keyword :: (headed.heading.chunks ++ .mark '(' :: headed.behind)) :=
  cutAt_behind headed.whole

theorem atList : CutAt text headed.start (.mark '(' :: headed.behind) := by
  have cutAt : CutAt text headed.offset
      ((keyword :: headed.heading.chunks) ++ .mark '(' :: headed.behind) := headed.cutAt
  exact cutAt.skip

/-- A list begins behind its keyword. -/
theorem offset_lt_start : headed.offset < headed.start :=
  Nat.lt_of_lt_of_le (Nat.lt_add_of_pos_right headed.cutAt.long)
    (Nat.add_le_add_left (by rw [textOf_cons, byteLength_append]; exact Nat.le_add_right ..) _)

/-- It is not empty. -/
theorem start_lt_stop (list : List Chunk) : headed.start < (headed.region list).stop :=
  Nat.lt_add_of_pos_right (Nat.lt_of_lt_of_le headed.atList.long
    (by rw [textOf_cons, byteLength_append]; exact Nat.le_add_right ..))

end Headed

/-- The pieces of chunks that open nothing, and of what is behind them. -/
theorem Spot.pieces_append {part : List Chunk} (other : ∀ chunk ∈ part, chunk ≠ .mark '(')
    (spot : Spot) (rest : List Chunk) : spot.pieces (part ++ rest) =
      ((spot.after part).pieces rest).map (part.map (Piece.kept ·.text) ++ ·) := by
  induction part generalizing spot with
  | nil => cases h : spot.pieces rest <;> simp [h, Except.map]
  | cons chunk part ih =>
    have own := spot.opens_other (other chunk List.mem_cons_self)
    rw [List.cons_append, Spot.pieces_keep own, ih fun _ member => other _ (.tail _ member)]
    cases h : ((spot.past chunk).after part).pieces rest <;> simp [h, Except.map]

/-- Behind the keyword of a fragment and a heading a parenthesis opens a list. -/
theorem Heading.opens (heading : Heading) {spot : Spot} (outside : spot.depth = ⟨0, 0⟩) :
    let behind := spot.after (keyword :: heading.chunks)
    behind.opens? (.mark '(') = some (spot.offset, heading.name) ∧ behind.depth = ⟨0, 0⟩ := by
  have within : (spot.past keyword).depth = ⟨0, 0⟩ := outside
  have behind : spot.after (keyword :: heading.chunks) =
      ⟨(spot.after (keyword :: heading.chunks)).offset, ⟨0, 0⟩,
        (((spot.past keyword).after heading.before).offset, heading.name) ::
          (spot.offset, "fragment".toList) :: spot.recent⟩ := by
    simp only [Heading.chunks, Spot.after_cons, Spot.after_append, Spot.after_gap heading.blank,
      Spot.after_gap heading.blank', within]
    rfl
  rw [behind]
  exact ⟨rfl, rfl⟩

/-- Neither a heading nor the keyword has a parenthesis in it. -/
theorem Heading.plain (heading : Heading) :
    ∀ chunk ∈ keyword :: heading.chunks, chunk ≠ .mark '(' := by
  have gaps {gap : List Chunk} (blank : gap.all isGap = true) : .mark '(' ∉ gap := fun member => by
    cases List.all_eq_true.mp blank _ member
  rintro chunk member rfl
  simp [Heading.chunks, keyword, gaps heading.blank, gaps heading.blank'] at member

/-- The pieces from the keyword before a heading on. -/
theorem Headed.pieces {text : List Char} (headed : Headed text) {recent : RecentNames} :
    Spot.pieces ⟨headed.offset, ⟨0, 0⟩, recent⟩
        (keyword :: (headed.heading.chunks ++ .mark '(' :: headed.behind)) =
      match closingParenthesis 0 headed.behind with
      | none => .error (String.ofList headed.heading.name)
      | some (list, after) =>
        (Spot.pieces ⟨(headed.region list).stop, ⟨0, 0⟩, []⟩ after).map
          ((keyword :: headed.heading.chunks).map (Piece.kept ·.text) ++
            .excised ⟨String.ofList headed.heading.name, headed.offset, '(' :: textOf list⟩ :: ·) := by
  obtain ⟨opens, depth⟩ := headed.heading.opens
    (show (Spot.mk headed.offset ⟨0, 0⟩ recent).depth = ⟨0, 0⟩ from rfl)
  rw [← List.cons_append, Spot.pieces_append headed.heading.plain, Spot.pieces_open opens,
    Spot.after_offset, depth]
  cases closingParenthesis 0 headed.behind with
  | none => rfl
  | some read =>
    obtain ⟨list, after⟩ := read
    let behind := Spot.pieces ⟨(headed.region list).stop, ⟨0, 0⟩, []⟩ after
    change Except.map _ (Except.map _ behind) = Except.map _ behind
    cases behind <;> rfl

namespace Scanner

/-- What is left of a text where the search is: the rest of its chunks. No heading was seen by
halves: where a list is opened, the names before it are no heading of it, and the name before a
heading is not the keyword. -/
structure Left (text : List Char) (spot : Spot) (chunks : List Chunk) : Prop where
  placed : ∃ passed, ofText text = passed ++ chunks ∧ spot.offset = byteLength (textOf passed)
  opens : spot.depth = ⟨0, 0⟩ → ∀ gap rest, gap.all isGap = true →
    chunks = gap ++ .mark '(' :: rest → spot.recent.heading? = none
  heads : spot.depth = ⟨0, 0⟩ → ∀ heading rest,
    chunks = Heading.chunks heading ++ .mark '(' :: rest →
    ∀ name ∈ spot.recent.head?, name.2 ≠ "fragment".toList

section
variable {text : List Char} {spot : Spot} {chunk : Chunk} {chunks : List Chunk}

theorem Left.cutAt (left : Left text spot chunks) : CutAt text spot.offset chunks := by
  obtain ⟨passed, whole, place⟩ := left.placed
  rw [place]
  exact cutAt_behind whole

/-- Behind no names at all no heading is seen by halves. -/
theorem left_fresh {offset : Nat} {depth : Depth} {passed : List Chunk}
    (whole : ofText text = passed ++ chunks) (place : offset = byteLength (textOf passed)) :
    Left text ⟨offset, depth, []⟩ chunks :=
  ⟨⟨passed, whole, place⟩, fun _ _ _ _ _ => rfl, fun _ _ _ _ _ member => by cases member⟩

/-- **What is left behind a chunk**, if the chunk is not the keyword before a heading. -/
theorem Left.past (left : Left text spot (chunk :: chunks)) (other : ¬(spot.depth = ⟨0, 0⟩ ∧
    chunk = keyword ∧ ∃ heading after, chunks = Heading.chunks heading ++ .mark '(' :: after)) :
    Left text (spot.past chunk) chunks := by
  obtain ⟨passed, whole, place⟩ := left.placed
  have whole' : ofText text = (passed ++ [chunk]) ++ chunks := by simpa using whole
  have place' : (spot.past chunk).offset = byteLength (textOf (passed ++ [chunk])) := by
    simp [Spot.past, place]
  cases chunk with
  | string | dollar => exact left_fresh whole' place'
  | mark char =>
    rw [Spot.past_mark] at place' ⊢
    exact left_fresh whole' place'
  | ignored | comment =>
    refine ⟨⟨_, whole', place'⟩, fun outside gap rest blank gaps => ?_,
      fun outside heading rest headed => ?_⟩
    · refine left.opens outside (_ :: gap) rest ?_ (congrArg (List.cons _) gaps)
      exact blank
    · refine left.heads outside ⟨_ :: heading.before, heading.name, heading.behind, ?_,
        heading.blank'⟩ rest (congrArg (List.cons _) headed)
      exact heading.blank
  | name name =>
    refine ⟨⟨_, whole', place'⟩, fun outside gap rest blank gaps => ?_,
      fun outside heading rest headed => ?_⟩
    · have first := left.heads outside ⟨[], name, gap, rfl, blank⟩ rest (by rw [gaps]; rfl)
      change RecentNames.heading? ((spot.offset, name) :: spot.recent) = none
      cases recent : spot.recent with
      | nil => rfl
      | cons latest others =>
        rw [recent] at first
        exact if_neg (first latest rfl)
    · rintro latest member
      obtain rfl : (spot.offset, name) = latest := by simpa [Spot.past] using member
      exact fun word => other ⟨outside, congrArg Chunk.name word, heading, rest, headed⟩

/-- Where no heading ends a chunk opens no list. -/
theorem Left.shut (left : Left text spot (chunk :: chunks)) : spot.opens? chunk = none := by
  unfold Spot.opens? Spot.heading?
  split
  · next opening =>
    split
    · next outside => exact left.opens outside [] chunks rfl (by rw [opening]; rfl)
    · rfl
  · rfl

end

/-! ### Regions -/

/-- Where a list of variables is: behind the keyword of a fragment and a heading, up to the first
parenthesis that closes it. -/
def Placed (text : List Char) (region : Region) : Prop :=
  ∃ (headed : Headed text) (list : List Chunk),
    list <+: headed.behind ∧ Closes 0 list ∧ region = headed.region list

/-- A list that is headed where the search is, outside of everything, and that no parenthesis
closes. -/
def Unclosed (text : List Char) (state : Search) (name : String) : Prop :=
  ∃ headed : Headed text, state.index = headed.offset ∧ state.depth = ⟨0, 0⟩ ∧
    name = String.ofList headed.heading.name ∧ ∀ list, list <+: headed.behind → ¬Closes 0 list

/-- A region is where a list of variables is. -/
structure Region.Shows (text : List Char) (region : Region) (list : VariableList) : Prop where
  fragmentName : region.fragmentName = list.fragmentName
  keywordOffset : region.keywordOffset = list.keywordOffset
  text : slice text region.start region.stop = some list.text

/-- The regions that are found from an index on, and the pieces that the text is cut into there. -/
structure Found (text : List Char) (index : Nat) (found : List Piece) (regions : List Region) :
    Prop where
  blanked : stitch text index regions = .ok (blankedText found)
  lists : List.Forall₂ (Region.Shows text) regions (variableLists found)
  apart : regions.Pairwise fun region later => region.stop ≤ later.keywordOffset
  behind : ∀ region ∈ regions, index ≤ region.keywordOffset
  placed : ∀ region ∈ regions, Placed text region

section
variable {text front rest : List Char} {index : Nat}

/-- A cut that begins earlier has more of the text. -/
theorem cut_ahead (here : At text index (front ++ rest)) {stop : Nat} {part : List Char}
    (behind : cut text (index + byteLength front) stop = .ok part) :
    cut text index stop = .ok (front ++ part) := by
  unfold cut at behind
  split at behind
  · next found =>
    cases behind
    obtain ⟨before, after, whole, place, ends⟩ := slice_eq_some found
    obtain ⟨before', whole', place'⟩ := here.skip
    obtain ⟨rfl, rfl⟩ := cut_of_bytes (whole'.symm.trans whole) (place'.symm.trans place.symm)
    have whole : At text index ((front ++ part) ++ after) := by
      rw [List.append_assoc]
      exact here
    have stops : stop = index + byteLength (front ++ part) := by
      rw [byteLength_append, ← ends, place, Nat.add_assoc]
    rw [stops]
    exact cut_at whole
  · cases behind

/-- What is stitched together at a region. -/
theorem stitch_cons_iff {region : Region} {regions : List Region} {part : List Char} :
    stitch text index (region :: regions) = .ok part ↔ ∃ kept list later,
      cut text index region.start = .ok kept ∧ cut text region.start region.stop = .ok list ∧
        stitch text region.stop regions = .ok later ∧
        kept ++ list.map Piece.blank ++ later = part := by
  rw [stitch]
  cases cut text index region.start <;> cases cut text region.start region.stop <;>
    cases stitch text region.stop regions <;> simp [bind, Except.bind, pure, Except.pure]

theorem stitch_ahead (here : At text index (front ++ rest)) {regions : List Region}
    {part : List Char} (behind : stitch text (index + byteLength front) regions = .ok part) :
    stitch text index regions = .ok (front ++ part) := by
  cases regions with
  | nil => exact cut_ahead here behind
  | cons region regions =>
    obtain ⟨kept, list, later, before, own, others, rfl⟩ := stitch_cons_iff.mp behind
    exact stitch_cons_iff.mpr ⟨_, list, later, cut_ahead here before, own, others, by simp⟩

theorem found_done (here : At text index []) : Found text index [] [] := by
  have length : byteLength text = index := by
    rw [← encode_length, here.length]
    rfl
  refine ⟨?_, .nil, .nil, by simp, by simp⟩
  have nothing : At text index ([] ++ []) := here
  rw [stitch, length]
  exact cut_at nothing

theorem Found.keep {part chunks : List Chunk} (cutAt : CutAt text index (part ++ chunks))
    {found : List Piece} {regions : List Region}
    (later : Found text (index + byteLength (textOf part)) found regions) :
    Found text index (part.map (Piece.kept ·.text) ++ found) regions := by
  have here := cutAt.here
  rw [textOf_append] at here
  obtain ⟨shown, lists⟩ := kept_append part found
  refine ⟨?_, ?_, later.apart, fun region member => ?_, later.placed⟩
  · rw [shown]
    exact stitch_ahead here later.blanked
  · rw [lists]
    exact later.lists
  · exact Nat.le_trans (Nat.le_add_right ..) (later.behind region member)

/-- A list that is closed comes before the regions that are found behind it. -/
theorem Found.excise {headed : Headed text} {list after : List Chunk}
    (closes : headed.behind = list ++ after ∧ Closes 0 list) {found : List Piece}
    {regions : List Region} (later : Found text (headed.region list).stop found regions) :
    Found text headed.offset ((keyword :: headed.heading.chunks).map (Piece.kept ·.text) ++
      .excised ⟨String.ofList headed.heading.name, headed.offset, '(' :: textOf list⟩ :: found)
      (headed.region list :: regions) := by
  have start := headed.cutAt.here
  have list' := headed.atList.here
  obtain ⟨whole, closes⟩ := closes
  have spelled :
      textOf (.mark '(' :: headed.behind) = textOf (.mark '(' :: list) ++ textOf after := by
    rw [whole, ← textOf_append]
    rfl
  rw [← List.cons_append, textOf_append] at start
  rw [spelled] at list'
  obtain ⟨shown, lists⟩ := kept_append (keyword :: headed.heading.chunks) (.excised
    ⟨String.ofList headed.heading.name, headed.offset, '(' :: textOf list⟩ :: found)
  refine ⟨?_, ?_, ?_, ?_, ?_⟩
  · rw [shown]
    exact stitch_cons_iff.mpr
      ⟨_, _, _, cut_at start, cut_at list', later.blanked, List.append_assoc ..⟩
  · rw [lists]
    exact .cons ⟨rfl, rfl, list'.slice⟩ later.lists
  · exact .cons later.behind later.apart
  · intro region member
    rcases List.mem_cons.mp member with rfl | member
    · exact Nat.le_refl _
    · refine Nat.le_trans ?_ (later.behind region member)
      exact Nat.le_trans (Nat.le_add_right ..) (Nat.le_add_right ..)
  · intro region member
    rcases List.mem_cons.mp member with rfl | member
    · exact ⟨headed, list, ⟨after, whole.symm⟩, closes, rfl⟩
    · exact later.placed region member

/-- What a last turn comes to, with the regions found before an index and the pieces from there. -/
inductive Ends (text : List Char) (index : Nat) (regions : List Region) (last : Search) :
    Except String (List Piece) → Prop
  | found {found : List Piece} {later : List Region}
    (turned : searchTurn text last = .ok (.done (.ok (regions ++ later))))
    (behind : Found text index found later) : Ends text index regions last (.ok found)
  | unclosed {name : String}
    (turned : searchTurn text last = .ok (.done (.error (.unterminatedVariables name))))
    (reached : Unclosed text last name) : Ends text index regions last (.error name)

theorem Ends.keep {chunk : Chunk} {chunks : List Chunk} (cutAt : CutAt text index (chunk :: chunks))
    {regions : List Region} {last : Search} {result : Except String (List Piece)}
    (ends : Ends text (index + byteLength chunk.text) regions last result) :
    Ends text index regions last (result.map (.kept chunk.text :: ·)) := by
  cases ends with
  | found turned behind =>
    have own : CutAt text index ([chunk] ++ chunks) := cutAt
    have size : byteLength (textOf [chunk]) = byteLength chunk.text := by simp
    rw [← size] at behind
    exact .found turned (behind.keep own)
  | unclosed turned reached => exact .unclosed turned reached

/-- From a spot on the search ends, with what the coarse cut finds there. -/
def Through (text : List Char) (spot : Spot) (chunks : List Chunk) (regions : List Region) : Prop :=
  ∃ last, Leads (searchTurn text) Search.index ⟨spot.offset, spot.depth, regions⟩ last ∧
    last.index ≤ (encodeUtf8 text).length ∧ Ends text spot.offset regions last (spot.pieces chunks)

/-- From a list on, if the search ends from behind the list on. -/
theorem through_headed (headed : Headed text) {recent : RecentNames} {regions : List Region}
    (later : ∀ list after, headed.behind = list ++ after → Through text
      ⟨(headed.region list).stop, ⟨0, 0⟩, []⟩ after (regions ++ [headed.region list])) :
    Through text ⟨headed.offset, ⟨0, 0⟩, recent⟩
      (keyword :: (headed.heading.chunks ++ .mark '(' :: headed.behind)) regions := by
  have turned := search_heading headed.cutAt regions
  unfold Through
  rw [headed.pieces]
  cases closed : closingParenthesis 0 headed.behind with
  | none =>
    rw [closed] at turned
    refine ⟨_, .here, headed.cutAt.here.le_length, .unclosed turned ⟨headed, rfl, rfl, rfl, ?_⟩⟩
    rintro list ⟨rest, begins⟩ closes
    rw [closing_iff.mpr ⟨begins.symm, closes⟩] at closed
    cases closed
  | some read =>
    obtain ⟨list, after⟩ := read
    rw [closed] at turned
    obtain ⟨begins, closes⟩ := closing_iff.mp closed
    obtain ⟨last, leads, bound, ends⟩ := later list after begins
    have further := headed.offset_lt_start.trans (headed.start_lt_stop list)
    refine ⟨last, .on turned further leads, bound, ?_⟩
    simp only
    generalize Spot.pieces _ _ = result at ends
    cases ends with
    | found turned behind =>
      rw [List.append_assoc] at turned
      exact .found turned (behind.excise ⟨begins, closes⟩)
    | unclosed turned reached => exact .unclosed turned reached

/-- **The search from a spot on.** -/
theorem search_from {spot : Spot} {chunks : List Chunk} (left : Left text spot chunks)
    (regions : List Region) : Through text spot chunks regions := by
  induction same : chunks.length using Nat.strong_induction_on generalizing spot chunks regions with
  | _ count ih =>
  have cutAt := left.cutAt
  cases chunks with
  | nil =>
    have length := cutAt.here.length
    refine ⟨_, .here, cutAt.here.le_length, ?_⟩
    rw [Spot.pieces, piecesFrom]
    refine .found ?_ (found_done cutAt.here)
    simp [searchTurn, length, byteLength]
  | cons chunk chunks =>
    by_cases headed : spot.depth = ⟨0, 0⟩ ∧ chunk = keyword ∧
      ∃ heading after, chunks = Heading.chunks heading ++ .mark '(' :: after
    · obtain ⟨outside, rfl, heading, behind, rfl⟩ := headed
      obtain ⟨passed, whole, place⟩ := left.placed
      obtain ⟨offset, depth, recent⟩ := spot
      obtain rfl : depth = ⟨0, 0⟩ := outside
      obtain rfl : offset = byteLength (textOf passed) := place
      let headed : Headed text := ⟨passed, heading, behind, whole⟩
      refine through_headed headed fun list after split => ?_
      have shorter : after.length < count := by
        rw [← same, show behind = list ++ after from split]
        simp
        omega
      have whole' : ofText text =
          (passed ++ keyword :: (heading.chunks ++ .mark '(' :: list)) ++ after := by
        rw [whole, show behind = list ++ after from split]
        simp
      refine ih after.length shorter (left_fresh whole' ?_) _ rfl
      simp [Headed.region, Headed.start, Headed.offset, headed, Nat.add_assoc]
    · obtain ⟨last, leads, bound, ends⟩ := ih _ (by simp [← same]) (left.past headed) regions rfl
      refine ⟨last, (search_chunk cutAt spot.depth regions headed).trans leads, bound, ?_⟩
      rw [Spot.pieces_keep left.shut]
      exact ends.keep cutAt

/-- A region begins with the keyword of a fragment, and then comes a list that is not empty. -/
structure Region.WellFormed (text : List Char) (region : Region) : Prop where
  keyword : slice text region.keywordOffset (region.keywordOffset + byteLength "fragment".toList) =
    some "fragment".toList
  before : region.keywordOffset < region.start
  filled : region.start < region.stop
  enclosed : ∃ inside, slice text region.start region.stop = some ('(' :: inside ++ [')'])
  placed : Placed text region

theorem Placed.wellFormed {region : Region} (placed : Placed text region) :
    region.WellFormed text := by
  obtain ⟨headed, list, ⟨after, whole⟩, closes, rfl⟩ := id placed
  obtain ⟨inside, rfl, -⟩ := closes
  have list' :
      At text headed.start (textOf (.mark '(' :: (inside ++ [.mark ')'])) ++ textOf after) := by
    rw [← textOf_append, List.cons_append, whole]
    exact headed.atList.here
  have spelled : '(' :: textOf inside ++ [')'] = textOf (.mark '(' :: (inside ++ [.mark ')'])) := by
    rw [textOf_cons, textOf_append]
    rfl
  refine ⟨At.slice headed.cutAt.here, headed.offset_lt_start, headed.start_lt_stop _,
    ⟨textOf inside, ?_⟩, placed⟩
  rw [spelled]
  exact list'.slice

/-- **The search for variables of fragments never fails by a fault.** For any text, a query or not,
it ends with at most one turn more than the text has bytes, no index and no slice is outside of the
text or inside of a character, and no more parentheses are closed than were opened. It finds what
the coarse cut finds, in order and apart from each other: each list in parentheses that match,
behind the keyword of its fragment. It refuses a text only where it has reached the keyword of a
fragment with a heading and a list that no parenthesis closes. -/
theorem extract_total (text : List Char) :
    (∃ found extraction, pieces text = .ok found ∧ extract text = .ok (.ok extraction) ∧
      extraction.blanked = blankedText found ∧
      List.Forall₂ (Region.Shows text) extraction.regions (variableLists found) ∧
      extraction.regions.Pairwise (fun region later => region.stop ≤ later.keywordOffset) ∧
      ∀ region ∈ extraction.regions, region.WellFormed text) ∨
    ∃ name, pieces text = .error name ∧
      extract text = .ok (.error (.unterminatedVariables name)) ∧
      ∃ state, Leads (searchTurn text) Search.index .start state ∧ Unclosed text state name := by
  have whole : ofText text = [] ++ ofText text := rfl
  obtain ⟨last, leads, bound, ends⟩ := search_from (left_fresh whole rfl) []
  have room : last.index ≤ 0 + (encodeUtf8 text).length := Nat.le_add_left_of_le bound
  generalize same : Spot.pieces _ _ = result at ends
  cases ends with
  | @found found regions turned behind =>
    refine .inl ⟨found, ⟨blankedText found, regions⟩, same, ?_, rfl, behind.lists, behind.apart,
      fun region member => (behind.placed region member).wellFormed⟩
    have through : loopOver (encodeUtf8 text) (searchTurn text) .start = .ok (.ok regions) :=
      loopOver_done leads turned room
    have stitched : stitch text 0 regions = .ok (blankedText found) := behind.blanked
    simp only [extract, through, stitched, bind, Except.bind, pure, Except.pure]
  | @unclosed name turned reached =>
    refine .inr ⟨name, same, ?_, last, leads, reached⟩
    have through : loopOver (encodeUtf8 text) (searchTurn text) .start =
        .ok (.error (.unterminatedVariables name)) := loopOver_done leads turned room
    simp only [extract, through, bind, Except.bind, pure, Except.pure]

/-- Parentheses in comments and strings do not count. -/
example : extract "fragment F # (\n($a: String = \")\") on T".toList =
    .ok (.ok ⟨"fragment F # (\n                   on T".toList, [⟨"F", 0, 15, 33⟩]⟩) := by
  decide +kernel

/-- A backslash at the end leads out of the text. -/
example : extract "fragment F(\"\\".toList = .ok (.error (.unterminatedVariables "F")) := by
  decide +kernel

end

end Scanner
end QueryStore
