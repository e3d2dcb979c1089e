import QueryStore.Proofs.Token.Cuts
import QueryStore.Proofs.Token.Spacing

/-! The part of a text that a run of its tokens takes up. Read on its own it has just these
tokens (`tokens_span`). In plain texts with the same glyphs, corresponding runs of tokens
take up parts with the same glyphs (`spans_side_by_side`): every significant character
belongs to a token, so counting characters finds the same cuts in both. -/
namespace QueryStore
open Text

variable {budget : Nat} {place : Place} {text : List Char}

/-- The part of a text that the tokens `middle` of its stream take up, from the first
through the last of them, behind the tokens `first` and a gap. -/
structure Span (place : Place) (text : List Char) (first middle : List Token) where
  lead : List Char
  gap : List Char
  own : List Char
  after : List Char
  start : Place
  whole : text = lead ++ (gap ++ (own ++ after))
  earlier : ∃ budget, (tokensFrom budget place lead).tokens = first ∧
    (tokensFrom budget place lead).ending = .endOfInput
  skipped : ∃ place', skipIgnored false place' (gap ++ (own ++ after)) = (start, own ++ after)
  inside : ∃ budget, (tokensFrom budget start own).tokens = middle ∧
    (tokensFrom budget start own).ending = .endOfInput
  offset : start.offset = place.offset + byteLength lead + byteLength gap
  head : ∀ token ∈ middle.head?, token.place = start
  last : ∀ token ∈ middle.getLast?, ∃ initial, own = initial ++ token.text.toList ∧
    token.place.offset = start.offset + byteLength initial

/-- In a whole text the part begins where what is before it ends. -/
theorem Span.start_offset {first middle : List Token} (span : Span .origin text first middle) :
    span.start.offset = byteLength (span.lead ++ span.gap) := by
  rw [span.offset, byteLength_append]
  simp [Place.origin]

/-- Tokens in a row take up a part of the text. -/
theorem tokens_span {first middle others : List Token} (filled : middle ≠ [])
    (split : (tokensFrom budget place text).tokens = first ++ (middle ++ others)) :
    Nonempty (Span place text first middle) := by
  obtain ⟨cut⟩ := tokens_cut split
  have remain := cut.remain
  rcases tokens_cases cut.budgetBehind cut.placeBehind cut.behind with
    stop | ⟨start, letter, rest, read, remaining, reads⟩
  · generalize tokensFrom cut.budgetBehind cut.placeBehind cut.behind = stream at stop remain
    have none : ([] : List Token) = middle ++ others := by cases stop <;> exact remain
    exact absurd (List.append_eq_nil_iff.mp none.symm).1 filled
  · obtain ⟨gap, whole, offset, skips, settled⟩ := skip_gap reads.skipped
    have reads' : Reads cut.budgetBehind start (letter :: rest) start letter rest read remaining :=
      ⟨settled rest, reads.found, reads.budget⟩
    have here : (tokensFrom cut.budgetBehind start (letter :: rest)).tokens = middle ++ others := by
      rw [tokens_read reads', ← tokens_read reads, remain]
    obtain ⟨inner⟩ := tokens_cut here
    refine ⟨cut.before, gap, inner.before, inner.behind, start, ?_,
      ⟨budget, cut.tokens, cut.ended⟩, ⟨cut.placeBehind, ?_⟩,
      ⟨cut.budgetBehind, inner.tokens, inner.ended⟩, ?_, ?_, inner.last⟩
    · rw [← inner.whole, ← whole]
      exact cut.whole
    · rw [← inner.whole, ← whole, reads.skipped]
    · rw [offset, cut.offset]
    · intro token isHead
      rw [tokens_read reads'] at here
      cases middle with
      | nil => exact absurd rfl filled
      | cons head middle =>
        simp only [TokenStream.cons, List.cons_append, List.cons.injEq] at here
        cases isHead
        rw [← here.1]
        rfl

/-- Every significant character of a plain text is a character of one of its tokens. -/
theorem glyphs_count (apart : Bool) (plain : Plain text)
    (ended : (tokensFrom budget place text).ending = .endOfInput) :
    (glyphs apart text).length =
      ((tokensFrom budget place text).tokens.flatMap fun token => token.text.toList).length := by
  induction budget, place, text using stream_induction generalizing apart with
  | ended budget place text stop =>
    generalize equal : tokensFrom budget place text = stream at stop ended
    cases stop with
    | exhausted skipped =>
      have gone : text.dropWhile isInsignificant = [] := by
        rw [← skipIgnored_plain plain place, skipped]
      have same : glyphs true (text.dropWhile isInsignificant) = glyphs true text := by
        rw [glyphs_dropWhile apart, loosen_glyphs]
      rw [← loosen_length, loosen_glyphs, ← same, gone]
      rfl
    | unreadable skipped failed => cases ended
    | tooDeep skipped found spent => cases ended
  | step budget place text start first rest read remaining reads ih =>
    obtain ⟨more, spelled, whole⟩ := lexeme_split reads.found
    have behind : text.dropWhile isInsignificant = read.text ++ read.rest := by
      rw [← skipIgnored_plain plain place, reads.skipped, spelled, whole]
      rfl
    have inner : Plain (read.text ++ read.rest) :=
      plain.of_sublist (behind ▸ List.dropWhile_sublist isInsignificant)
    have solid : ∀ char ∈ read.text, isInsignificant char = false := by
      refine lexeme_significant ?_ reads.found
      rw [whole]
      rwa [spelled] at inner
    have later := ih (endsApart true read.text)
      (inner.of_sublist (List.sublist_append_right _ _)) (by rwa [tokens_read reads] at ended)
    have front : (glyphs apart text).length = (glyphs true (read.text ++ read.rest)).length := by
      rw [← behind, glyphs_dropWhile apart, loosen_length]
    rw [front, glyphs_append, List.length_append, glyphs_solid solid, later, tokens_read reads]
    simp [TokenStream.cons, Lexeme.token]

/-- The glyphs of the part that a run of tokens takes up do not depend on how far the text
goes before or behind it. -/
private theorem span_glyphs {first middle : List Token} (plain : Plain text)
    (span : Span place text first middle) :
    ∃ apart behind, glyphs true text =
        glyphs true span.lead ++ glyphs apart (span.gap ++ (span.own ++ span.after)) ∧
      glyphs true (span.gap ++ (span.own ++ span.after)) = glyphs true span.own ++ behind ∧
      (glyphs true span.lead).length = (first.flatMap fun token => token.text.toList).length ∧
      (glyphs true span.own).length = (middle.flatMap fun token => token.text.toList).length := by
  obtain ⟨lead, gap, own, after, start, rfl, ⟨budget, front, ended⟩, ⟨place', skipped⟩,
    ⟨budget', middle', ended'⟩, -, -, -⟩ := span
  have later : Plain (gap ++ (own ++ after)) := plain.of_sublist (List.sublist_append_right _ _)
  have inner : Plain own := later.of_sublist
    ((List.sublist_append_left own after).trans (List.sublist_append_right gap _))
  have passed : glyphs true (gap ++ (own ++ after)) = glyphs true (own ++ after) := by
    have dropped := skipIgnored_plain later place'
    rw [skipped] at dropped
    have kept := glyphs_dropWhile true (gap ++ (own ++ after))
    rw [← dropped, loosen_glyphs] at kept
    exact kept.symm
  refine ⟨endsApart true lead, glyphs (endsApart true own) after, glyphs_append .., ?_, ?_, ?_⟩
  · rw [passed, glyphs_append]
  · rw [glyphs_count true (plain.of_sublist (List.sublist_append_left lead _)) ended, front]
  · rw [glyphs_count true inner ended', middle']

private theorem alike_texts {left right : List Token} (alike : List.Forall₂ Token.Alike left right) :
    (left.flatMap fun token => token.text.toList) =
      right.flatMap fun token => token.text.toList := by
  induction alike with
  | nil => rfl
  | cons head _ ih => simp only [List.flatMap_cons, head.text, ih]

/-- Corresponding runs of tokens of plain texts with the same glyphs take up parts with the
same glyphs. -/
theorem spans_side_by_side {left right : List Char} {place place' : Place} (plain : Plain left)
    (plain' : Plain right) (same : glyphs true left = glyphs true right)
    {first first' middle middle' : List Token} (earlier : List.Forall₂ Token.Alike first first')
    (inside : List.Forall₂ Token.Alike middle middle')
    (span : Span place left first middle) (span' : Span place' right first' middle') :
    glyphs true span.own = glyphs true span'.own := by
  obtain ⟨apart, behind, whole, part, count, size⟩ := span_glyphs plain span
  obtain ⟨apart', behind', whole', part', count', size'⟩ := span_glyphs plain' span'
  rw [whole, whole'] at same
  obtain ⟨-, later⟩ := List.append_inj same (by rw [count, count', alike_texts earlier])
  have loose := congrArg loosen later
  rw [loosen_glyphs, loosen_glyphs, part, part'] at loose
  exact (List.append_inj loose (by rw [size, size', alike_texts inside])).1

end QueryStore
