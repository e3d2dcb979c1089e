import QueryStore.Proofs.Text.Lines
import QueryStore.Proofs.Token.Cuts

/-! The positions of tokens. In a straight text the line and the column of every token are
those of the text before it (`places_accurate`). A tab, a byte-order mark, or a carriage
return that does not belong to a line end would move the column, and a carriage return in a
comment the line, otherwise than the text before a token says. -/
namespace QueryStore
open Text

/-- A text without tabs and byte-order marks, whose carriage returns stand before line feeds;
if there are any, there are no comments. -/
structure Straight (text : List Char) : Prop where
  marks : ∀ char ∈ text, char ≠ '\t' ∧ char ≠ '\uFEFF'
  pairs : ∀ before after, text = before ++ '\r' :: after → after.head? = some '\n'
  apart : '\r' ∈ text → '#' ∉ text

/-- A text without tabs, carriage returns and byte-order marks is straight. -/
theorem straight_of_unmarked {text : List Char}
    (unmarked : ∀ char ∈ text, char ≠ '\t' ∧ char ≠ '\r' ∧ char ≠ '\uFEFF') : Straight text where
  marks char member := ⟨(unmarked char member).1, (unmarked char member).2.2⟩
  pairs before after split := by
    have member : '\r' ∈ text := by simp [split]
    exact absurd rfl (unmarked '\r' member).2.1
  apart held := absurd rfl (unmarked '\r' held).2.1

/-- A place whose position and offset are those of the text before it. -/
structure Accurate (before : List Char) (place : Place) : Prop where
  position : place.position = positionAfter before
  offset : place.offset = byteLength before

/-- A place whose line and offset are those of the text before it. -/
structure OnLine (before : List Char) (place : Place) : Prop where
  line : place.position.line = lineOf before + 1
  offset : place.offset = byteLength before

theorem Straight.suffix {first rest : List Char} (straight : Straight (first ++ rest)) :
    Straight rest where
  marks char member := straight.marks char (List.mem_append_right _ member)
  pairs before after split :=
    straight.pairs (first ++ before) after (by rw [split, List.append_assoc])
  apart held := fun comment =>
    straight.apart (List.mem_append_right _ held) (List.mem_append_right _ comment)

section
variable {before : List Char} {place : Place}

theorem Accurate.onLine (accurate : Accurate before place) : OnLine before place :=
  ⟨by rw [accurate.position]; rfl, accurate.offset⟩

theorem OnLine.down (near : OnLine before place) : Accurate (before ++ ['\n']) (place.down '\n') where
  position := by simp [Place.down, positionAfter, lineOf_snoc, columnOf_snoc, near.line]
  offset := by simp [Place.down, near.offset, byteLength]

theorem OnLine.right (near : OnLine before place) {char : Char} (other : char ≠ '\n')
    (columns : Nat) : OnLine (before ++ [char]) (place.right columns char) where
  line := by simp [Place.right, lineOf_snoc, near.line, other]
  offset := by simp [Place.right, near.offset, byteLength]

theorem Accurate.right (accurate : Accurate before place) {char : Char} (other : char ≠ '\n') :
    Accurate (before ++ [char]) (place.right 1 char) where
  position := by
    simp [Place.right, positionAfter, accurate.position, lineOf_snoc, columnOf_snoc, other]
  offset := by simp [Place.right, accurate.offset, byteLength]

theorem Accurate.past (accurate : Accurate before place) (text : List Char) :
    Accurate (before ++ text) (place.past text) := by
  induction text generalizing before place with
  | nil => simpa [Place.past] using accurate
  | cons char text ih =>
    have step : Accurate (before ++ [char]) (place.next char) := by
      unfold Place.next
      by_cases feed : char = '\n'
      · subst char
        exact accurate.onLine.down
      · rw [if_neg feed]
        exact accurate.right feed
    have later := ih step
    rwa [List.append_assoc] at later

/-- Going over what stands between tokens, a place may leave its column behind inside a
comment, or between the two characters of a line end, and nowhere else. -/
structure Tracks (before text : List Char) (inComment : Bool) (place : Place) : Prop where
  near : OnLine before place
  state : Accurate before place ∨ inComment = true ∨ text.head? = some '\n'
  calm : inComment = true → '\r' ∉ text

theorem Accurate.tracks (accurate : Accurate before place) (text : List Char) :
    Tracks before text false place :=
  ⟨accurate.onLine, Or.inl accurate, by simp⟩

/-- Outside of comments and line ends a place is accurate. -/
theorem Tracks.accurate {text : List Char} {char : Char}
    (tracks : Tracks before (char :: text) false place) (other : char ≠ '\n') :
    Accurate before place := by
  rcases tracks.state with accurate | inside | stands
  · exact accurate
  · cases inside
  · exact absurd (Option.some.inj stands) other

theorem tracks_step {inComment inside : Bool} {char : Char} {text : List Char} {next : Place}
    (tracks : Tracks before (char :: text) inComment place) (straight : Straight (char :: text))
    (passes : Passes place inComment char inside next) :
    Tracks (before ++ [char]) text inside next := by
  cases passes with
  | feed => exact tracks.near.down.tracks text
  | closing => exact absurd List.mem_cons_self (tracks.calm rfl)
  | remark other =>
    have silent := tracks.calm rfl
    simp only [List.mem_cons, not_or] at silent
    exact ⟨tracks.near.right (not_or.mp other).1 0, Or.inr (Or.inl rfl), fun _ => silent.2⟩
  | space blank =>
    have feed : char ≠ '\n' := by rcases blank with rfl | rfl <;> decide
    exact ((tracks.accurate feed).right feed).tracks text
  | tab => exact absurd rfl (straight.marks '\t' List.mem_cons_self).1
  | unseen silent =>
    rcases silent with carriage | mark
    · have pair := straight.pairs [] text (by rw [carriage]; rfl)
      have feed : char ≠ '\n' := by
        rw [carriage]
        decide
      exact ⟨tracks.near.right feed 0, Or.inr (Or.inr pair), by simp⟩
    · exact absurd mark (straight.marks char List.mem_cons_self).2
  | comment =>
    refine ⟨tracks.near.right (by decide) 0, Or.inr (Or.inl rfl), fun _ held => ?_⟩
    exact straight.apart (List.mem_cons_of_mem _ held) List.mem_cons_self

/-- Behind what stands between tokens a place is accurate. -/
theorem skip_accurate {inComment : Bool} {text rest : List Char} {first : Char} {start : Place}
    (tracks : Tracks before text inComment place) (straight : Straight text)
    (skipped : skipIgnored inComment place text = (start, first :: rest)) :
    ∃ gap, text = gap ++ first :: rest ∧ Accurate (before ++ gap) start := by
  induction text generalizing inComment before place with
  | nil => simp [skipIgnored] at skipped
  | cons char text ih =>
    have whole : Straight ([char] ++ text) := straight
    rcases passes_or_stops place inComment char with ⟨inside, next, passes⟩ | ⟨rfl, feed, stops⟩
    · rw [passes.skip] at skipped
      obtain ⟨gap, rfl, accurate⟩ :=
        ih (tracks_step tracks straight passes) whole.suffix skipped
      exact ⟨char :: gap, rfl, by rwa [List.append_assoc] at accurate⟩
    · rw [stops] at skipped
      cases skipped
      exact ⟨[], rfl, by simpa using tracks.accurate feed⟩

end

/-- Every token of a straight text stands where its place says. -/
theorem places_accurate {budget : Nat} {before text : List Char} {place : Place}
    (accurate : Accurate before place) (straight : Straight text) :
    ∀ token ∈ (tokensFrom budget place text).tokens, ∃ gap behind,
      text = gap ++ (token.text.toList ++ behind) ∧ Accurate (before ++ gap) token.place := by
  induction budget, place, text using stream_induction generalizing before with
  | ended budget place text stop =>
    generalize tokensFrom budget place text = stream at stop
    cases stop <;> simp
  | step budget place text start first rest read remaining reads ih =>
    obtain ⟨gap, rfl, here⟩ := skip_accurate (accurate.tracks text) straight reads.skipped
    obtain ⟨more, spelled, rfl⟩ := lexeme_split reads.found
    have whole : gap ++ first :: (more ++ read.rest) = (gap ++ read.text) ++ read.rest := by
      simp [spelled]
    rw [tokens_read reads]
    intro token member
    rcases List.mem_cons.mp member with rfl | later
    · refine ⟨gap, read.rest, ?_, here⟩
      simp [Lexeme.token, spelled]
    · rw [whole] at straight
      obtain ⟨gap', behind, split, there⟩ := ih (here.past read.text) straight.suffix token later
      refine ⟨gap ++ (read.text ++ gap'), behind, ?_, ?_⟩
      · rw [whole, split]
        simp
      · simpa using there

/-- In a straight text the position of a token leads to the token. -/
theorem position_offset {text : List Char} (straight : Straight text) {token : Token}
    (member : token ∈ (TokenStream.ofText text).tokens) :
    token.place.position.offset text = token.place.offset := by
  have origin : Accurate [] .origin := ⟨rfl, rfl⟩
  obtain ⟨gap, behind, rfl, accurate⟩ := places_accurate origin straight token member
  rw [accurate.position, accurate.offset, List.nil_append, offset_positionAfter]

end QueryStore
