import QueryStore.Proofs.Document.Derivation
import QueryStore.Proofs.Document.Segments
import QueryStore.Proofs.Fragment.Preparation
import QueryStore.Proofs.Text.Offsets
import QueryStore.Proofs.Token.Places
import QueryStore.Proofs.Token.Spans
import QueryStore.Session

/-! The own text of a fragment goes from its keyword through the brace that closes it. Its
tokens are those of the fragment (`fragment_stands`). In a straight text a session finds it
(`straight_key`), since there lines and columns lead back to the keyword and the brace. -/
namespace QueryStore
open Text Grammar

/-- Where a fragment stands in a text: what is before its keyword, its own text through the
closing brace, and what is behind that. -/
structure Stretch (text : List Char) where
  first : List Token
  taken : List Token
  keyword : Token
  closing : Token
  before : List Char
  inner : List Char
  after : List Char
  span : Span .origin text first taken
  whole : text = before ++ ((inner ++ ['\x7d']) ++ after)
  own : span.own = inner ++ ['\x7d']
  begins : keyword.place.offset = byteLength before
  closes : closing.place.offset = byteLength (before ++ inner)
  split : ∃ others, (TokenStream.ofText text).tokens = first ++ (taken ++ others)
  head : taken.head? = some keyword
  last : taken.getLast? = some closing

/-- The tokens of a fragment, from its keyword through its brace. -/
theorem fragment_tokens {locator : Locator} {size : Nat} {taken others : List Token}
    {fragment : Fragment}
    (read : definition locator size (taken ++ others) = .ok (.fragment fragment, others)) :
    ∃ keyword inner closing, taken = keyword :: (inner ++ [closing]) ∧ closing.text = "\x7d" ∧
      fragment.location = locator.node keyword closing := by
  obtain ⟨run, split, stands⟩ := definition_stands
    (placedBy_locates locator (taken ++ others)) _ _ _ (List.suffix_refl _) read
  obtain rfl := List.append_cancel_right split
  cases stands with
  | fragment _ _ _ _ _ _ placed =>
    obtain ⟨keyword, first, closing, last, closes, location⟩ := placed
    obtain ⟨front, whole⟩ := List.getLast?_eq_some_iff.mp last
    cases front with
    | nil => cases whole
    | cons other inner =>
      rw [whole] at first ⊢
      cases first
      simp only [Token.isPunctuator, Bool.and_eq_true, decide_eq_true_eq] at closes
      exact ⟨keyword, inner, closing, rfl, closes.2, location⟩

/-- Tokens from a keyword through a brace stand somewhere in their text. -/
theorem tokens_stand {text : List Char} {first others inner : List Token} {keyword closing : Token}
    (brace : closing.text = "\x7d")
    (split : (TokenStream.ofText text).tokens =
      first ++ ((keyword :: (inner ++ [closing])) ++ others)) :
    ∃ stretch : Stretch text, stretch.first = first ∧
      stretch.taken = keyword :: (inner ++ [closing]) ∧ stretch.keyword = keyword ∧
      stretch.closing = closing := by
  obtain ⟨span⟩ := tokens_span (by simp) split
  have begins : keyword.place = span.start := span.head keyword rfl
  have bytes := span.start_offset
  have last : (keyword :: (inner ++ [closing])).getLast? = some closing := by
    rw [← List.cons_append, List.getLast?_concat]
  obtain ⟨initial, ends, offset⟩ := span.last closing last
  have spelled : closing.text.toList = ['\x7d'] := by
    rw [brace]
    rfl
  rw [spelled] at ends
  refine ⟨⟨first, _, keyword, closing, span.lead ++ span.gap, initial, span.after, span, ?_, ends,
    ?_, ?_, ⟨others, split⟩, rfl, last⟩, rfl, rfl, rfl, rfl⟩
  · rw [← ends, List.append_assoc]
    exact span.whole
  · rw [begins, bytes]
  · rw [offset, bytes, byteLength_append (span.lead ++ span.gap)]

/-- The part of a source that stands where a part of its prepared text does. -/
def counterpart (source text : List Char) (start stop : Nat) : List Char :=
  match takeBytes start text, slice text start stop with
  | some before, some own => (source.drop before.length).take own.length
  | _, _ => []

/-- The own text of a fragment that was read from a prepared text and located exactly. -/
def ownText (source text : List Char) (fragment : Fragment) : List Char :=
  match fragment.location with
  | none => []
  | some location => counterpart source text location.start location.stop

section
variable {text before inner after : List Char}

private theorem through_brace (whole : text = before ++ ((inner ++ ['\x7d']) ++ after))
    (name : String) :
    Location.through name (byteLength text) (byteLength before) (byteLength (before ++ inner)) =
      ⟨byteLength before, byteLength before + byteLength (inner ++ ['\x7d']), some name⟩ := by
  have brace : byteLength ['\x7d'] = 1 := by decide
  subst whole
  simp only [Location.through, byteLength_append, brace, Location.mk.injEq, true_and, and_true]
  omega

private theorem slice_brace (whole : text = before ++ ((inner ++ ['\x7d']) ++ after)) :
    slice text (byteLength before) (byteLength before + byteLength (inner ++ ['\x7d'])) =
      some (inner ++ ['\x7d']) := by
  rw [whole, ← List.append_assoc]
  exact slice_append before _ after

private theorem cut_brace (whole : text = before ++ ((inner ++ ['\x7d']) ++ after)) :
    (text.drop before.length).take (inner ++ ['\x7d']).length = inner ++ ['\x7d'] := by
  rw [whole, List.drop_left, List.take_left]

end

section
variable {text : List Char} (stretch : Stretch text)

theorem Stretch.within : ∀ token ∈ stretch.taken, token ∈ (TokenStream.ofText text).tokens := by
  intro token member
  obtain ⟨others, split⟩ := stretch.split
  rw [split]
  exact List.mem_append_right _ (List.mem_append_left _ member)

/-- The part of a source that stands where a stretch of its prepared text does. -/
def Stretch.ownIn (source : List Char) : List Char :=
  (source.drop stretch.before.length).take (stretch.inner ++ ['\x7d']).length

/-- In the text itself that is the own text. -/
theorem Stretch.ownIn_self : stretch.ownIn text = stretch.span.own := by
  rw [stretch.own]
  exact cut_brace stretch.whole

theorem Stretch.own_sublist : stretch.span.own.Sublist text := by
  rw [stretch.own]
  have within := (List.sublist_append_left (stretch.inner ++ ['\x7d']) stretch.after).trans
    (List.sublist_append_right stretch.before _)
  rwa [← stretch.whole] at within

/-- An exactly located fragment has the own text that stands in its source. -/
theorem ownText_eq (source : List Char) {fragment : Fragment}
    (location : fragment.location =
      (Locator.exact (String.ofList text)).node stretch.keyword stretch.closing) :
    ownText source text fragment = stretch.ownIn source := by
  have found : fragment.location = some ⟨byteLength stretch.before,
      byteLength stretch.before + byteLength (stretch.inner ++ ['\x7d']),
      some (String.ofList text)⟩ := by
    rw [location]
    simp only [Locator.exact, String.toList_ofList, stretch.begins, stretch.closes,
      through_brace stretch.whole]
  have front : takeBytes (byteLength stretch.before) text = some stretch.before := by
    have taken := takeBytes_append stretch.before ((stretch.inner ++ ['\x7d']) ++ stretch.after)
    rwa [← stretch.whole] at taken
  simp only [ownText, found, counterpart, front, slice_brace stretch.whole, Stretch.ownIn]

theorem Blanked.outline {source shown : List Char} (blanked : Blanked source shown) :
    Outline source shown := by
  apply blanked.imp
  rintro char other (rfl | rfl)
  · exact Iff.rfl
  · unfold Piece.blank
    split
    · exact Iff.rfl
    · next plain =>
      constructor
      · rintro rfl
        exact absurd rfl plain
      · intro feed
        exact absurd feed (by decide)

/-- A token that is found by its position in a straight text is found where it stands. -/
theorem offset_found {source before after : List Char} {token : Token}
    (straight : Straight text) (member : token ∈ (TokenStream.ofText text).tokens)
    (whole : text = before ++ after) (offset : token.place.offset = byteLength before)
    {before' after' : List Char} (split : source = before' ++ after')
    (blanked : Blanked before' before) : token.offsetByPosition source = byteLength before' := by
  have origin : Accurate [] .origin := ⟨rfl, rfl⟩
  obtain ⟨gap, behind, whole', accurate⟩ := places_accurate origin straight token member
  have same : gap = before := by
    refine (cut_of_bytes (whole'.symm.trans whole) ?_).1
    rw [← offset, accurate.offset, List.nil_append]
  have position := accurate.position
  rw [List.nil_append, same, ← positionAfter_outline blanked.outline] at position
  rw [Token.offsetByPosition, position, split]
  exact offset_positionAfter before' after'

/-- Blanking keeps a text straight. -/
theorem Straight.blanked {source : List Char} (straight : Straight source)
    (blanked : Blanked source text) : Straight text where
  marks char member := by
    by_cases visible : char = ' '
    · rw [visible]
      decide
    · exact straight.marks char (blanked_mem blanked member visible)
  pairs before after split := by
    subst split
    obtain ⟨front, back, rfl, -, later⟩ := blanked_split blanked
    obtain ⟨others, rfl, behind⟩ := blanked_head (by decide) later
    have feed := straight.pairs front others rfl
    cases behind with
    | nil => cases feed
    | cons here _ =>
      cases feed
      rcases here with rfl | blank
      · rfl
      · rw [blank]
        rfl
  apart held comment :=
    straight.apart (blanked_mem blanked held (by decide)) (blanked_mem blanked comment (by decide))

/-- In a straight text a fragment is known by its own text. -/
theorem straight_key {source : String} (blanked : Blanked source.toList text)
    (straight : Straight text) {fragment : Fragment}
    (location : fragment.location =
      (Locator.ofPositions source).node stretch.keyword stretch.closing) :
    fragment.key? = some (String.ofList (canonical (stretch.ownIn source.toList))) := by
  have parts : Blanked source.toList
      (stretch.before ++ ((stretch.inner ++ ['\x7d']) ++ stretch.after)) :=
    stretch.whole ▸ blanked
  obtain ⟨before, rest, split, front, shown⟩ := blanked_split parts
  obtain ⟨own, after, rfl, middle, -⟩ := blanked_split shown
  obtain ⟨inner, brace, rfl, inside, end'⟩ := blanked_split middle
  have closed : brace = ['\x7d'] := by
    obtain ⟨others, rfl, none⟩ := blanked_head (by decide) end'
    cases none
    rfl
  subst closed
  have start : stretch.keyword.offsetByPosition source.toList = byteLength before :=
    offset_found straight (stretch.within _ (List.mem_of_head? stretch.head)) stretch.whole
      stretch.begins split front
  have stop : stretch.closing.offsetByPosition source.toList = byteLength (before ++ inner) := by
    have here : text =
        (stretch.before ++ stretch.inner) ++ (['\x7d'] ++ stretch.after) := by
      rw [← List.append_assoc, List.append_assoc _ _ ['\x7d'], List.append_assoc]
      exact stretch.whole
    have there : source.toList = (before ++ inner) ++ (['\x7d'] ++ after) := by
      rw [split]
      simp
    exact offset_found straight (stretch.within _ (List.mem_of_getLast? stretch.last)) here
      stretch.closes there (List.rel_append front inside)
  have found : fragment.location = some ⟨byteLength before,
      byteLength before + byteLength (inner ++ ['\x7d']), some source⟩ := by
    rw [location]
    simp only [Locator.ofPositions, start, stop, through_brace split]
  have lengths : stretch.before.length = before.length ∧
      (stretch.inner ++ ['\x7d']).length = (inner ++ ['\x7d']).length :=
    ⟨front.length_eq.symm, middle.length_eq.symm⟩
  simp only [Fragment.key?, found, Option.bind_some, Location.text?, slice_brace split,
    Option.map_some, Text.normalize, String.toList_ofList, Stretch.ownIn]
  rw [lengths.1, lengths.2, cut_brace split]

end

end QueryStore
