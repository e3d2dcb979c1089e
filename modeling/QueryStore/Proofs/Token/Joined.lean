import QueryStore.Proofs.Token.Resume

/-! A text on a new line behind another one. What stands behind the last token of the first text, a
comment for instance, ends with the line, and if the brackets of the first text match, as many may
be opened in the second as in a text of its own. So the tokens are those of the two texts, one
behind the other (`tokens_join`). -/
namespace QueryStore
open Text

/-- What can be passed over to the end of a text can be passed over to the end of the line, too,
when a new line follows. -/
theorem skip_line {inComment : Bool} {place start : Place} {text : List Char}
    (skipped : skipIgnored inComment place text = (start, [])) (tail : List Char) :
    ∃ start', start'.offset = place.offset + byteLength text + 1 ∧
      skipIgnored inComment place (text ++ '\n' :: tail) = skipIgnored false start' tail := by
  induction text generalizing inComment place with
  | nil =>
    have passes : Passes place inComment '\n' false _ := .feed inComment
    exact ⟨_, passes.offset, passes.skip tail⟩
  | cons char text ih =>
    rcases passes_or_stops place inComment char with ⟨inside, next, passes⟩ | ⟨rfl, -, stops⟩
    · rw [passes.skip] at skipped
      obtain ⟨start', offset, same⟩ := ih skipped
      refine ⟨start', ?_, (passes.skip _).trans same⟩
      rw [offset, passes.offset, byteLength, Nat.add_assoc place.offset]
    · rw [stops] at skipped
      cases skipped

/-- A text whose last token is a closing brace, with brackets that match. -/
structure Whole (text : List Char) : Prop where
  ended : (TokenStream.ofText text).ending = .endOfInput
  balanced : Balanced (bracketsOf (TokenStream.ofText text).tokens)
  closes : ∃ closing ∈ (TokenStream.ofText text).tokens.getLast?,
    closing.isPunctuator "\x7d" = true

/-- A whole text goes up to its last brace, behind which any text is read as it would be alone.
Behind the brace of the whole text there is nothing to read. -/
private theorem Whole.up_to_brace {text : List Char} (whole : Whole text) :
    ∃ before rest, text = before ++ rest ∧
      (∃ place start, skipIgnored false place rest = (start, [])) ∧
      ∀ tail, ∃ front place, place.offset = byteLength before ∧
        (TokenStream.ofText (before ++ tail)).tokens =
          front ++ (tokensFrom nestingLimit place tail).tokens ∧
        (TokenStream.ofText (before ++ tail)).ending =
          (tokensFrom nestingLimit place tail).ending ∧
        List.Forall₂ (Token.Along 0 0) (TokenStream.ofText text).tokens front := by
  obtain ⟨ended, balanced, closing, last, closes⟩ := whole
  obtain ⟨cut⟩ := tokens_cut (List.append_nil (TokenStream.ofText text).tokens).symm
  obtain ⟨initial, ends, begins⟩ := cut.last closing last
  have mark : closing.kind = .punctuator ∧ closing.text = "\x7d" := by
    simpa [Token.isPunctuator] using closes
  have final : ∀ tail, closing.Stops tail := fun tail =>
    Or.inl ⟨'\x7d', by decide, mark.1, by rw [mark.2]; rfl⟩
  have stop : closing.stop = Place.origin.offset + byteLength cut.before := by
    rw [Token.stop, begins, ends, byteLength_append, Nat.add_assoc]
  have member : closing ∈ (tokensFrom nestingLimit .origin (cut.before ++ cut.behind)).tokens := by
    rw [← cut.whole]
    exact List.mem_of_getLast? last
  obtain ⟨-, -, remaining, place, spent, -, tokens, ending, resumes⟩ :=
    tokens_behind member (final []) stop
  rw [← cut.whole, cut.tokens] at tokens
  rw [cut.tokens] at spent
  obtain rfl := balanced.spend spent
  refine ⟨cut.before, cut.behind, cut.whole, ⟨place, ?_⟩, fun tail => ?_⟩
  · have none : (tokensFrom nestingLimit place cut.behind).tokens = [] :=
      List.append_right_eq_self.mp tokens.symm
    have ended' : (tokensFrom nestingLimit place cut.behind).ending = .endOfInput := by
      rw [← ending, ← cut.whole]
      exact ended
    rcases tokens_cases nestingLimit place cut.behind with
      stop | ⟨start, first, rest, read, remaining, reads⟩
    · generalize tokensFrom nestingLimit place cut.behind = stream at stop ended'
      cases stop with
      | exhausted skipped => exact ⟨_, skipped⟩
      | unreadable | tooDeep => cases ended'
    · rw [tokens_read reads] at none
      cases none
  · obtain ⟨front, place', offset, tokens', ending', along⟩ := resumes .origin tail (final tail)
    rw [cut.tokens] at along
    exact ⟨front, place', by simpa [Place.origin] using offset, tokens', ending', along⟩

/-- **Texts on lines of their own are read one after the other.** A text behind a whole text and a
line end is read as it is alone, only further on. -/
theorem tokens_join {first : List Char} (whole : Whole first) (second : List Char) :
    ∃ front back, (TokenStream.ofText (first ++ '\n' :: second)).tokens = front ++ back ∧
      (TokenStream.ofText (first ++ '\n' :: second)).ending =
        (TokenStream.ofText second).ending ∧
      List.Forall₂ (Token.Along 0 0) (TokenStream.ofText first).tokens front ∧
      List.Forall₂ (Token.Along 0 (byteLength first + 1)) (TokenStream.ofText second).tokens
        back := by
  obtain ⟨before, rest, rfl, ⟨_, _, skipped⟩, resumes⟩ := whole.up_to_brace
  obtain ⟨front, place, offset, tokens, ending, along⟩ := resumes (rest ++ '\n' :: second)
  obtain ⟨start, skipped', -⟩ := skip_elsewhere skipped place
  obtain ⟨place', offset', same⟩ := skip_line skipped' second
  rw [← List.append_assoc, tokens_skipped same] at tokens ending
  obtain ⟨ending', along'⟩ := tokens_elsewhere nestingLimit .origin place' second
  rw [offset', offset, ← byteLength_append] at along'
  exact ⟨front, _, tokens, ending.trans ending', along, along'⟩

end QueryStore
