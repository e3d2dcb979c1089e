import QueryStore.Proofs.Text.Offsets
import QueryStore.Proofs.Token.Cuts

/-! The positions of tokens never go back. Neither what stands between tokens nor a token itself
moves a place back, so every token stands behind those before it (`tokens_ordered`). In bytes the
tokens stand apart (`tokens_apart`), so that a token is known by its offset (`next_unique`). -/
namespace QueryStore
open Text

variable {place next start : Place} {inComment inside : Bool} {char : Char} {text : List Char}

theorem Passes.forward (passes : Passes place inComment char inside next) :
    place.position ≤ next.position := by
  cases passes with
  | feed | closing => exact Or.inl (Nat.lt_succ_self _)
  | remark | space | tab | unseen | comment => exact Or.inr ⟨rfl, Nat.le_add_right ..⟩

theorem skip_forward {rest : List Char}
    (skipped : skipIgnored inComment place text = (start, rest)) :
    place.position ≤ start.position := by
  induction text generalizing inComment place with
  | nil =>
    cases skipped
    exact Position.le_refl _
  | cons char text ih =>
    rcases passes_or_stops place inComment char with ⟨inside, next, passes⟩ | ⟨rfl, -, stops⟩
    · rw [passes.skip] at skipped
      exact Position.le_trans passes.forward (ih skipped)
    · rw [stops] at skipped
      cases skipped
      exact Position.le_refl _

theorem Place.past_forward (place : Place) (text : List Char) :
    place.position ≤ (place.past text).position := by
  induction text generalizing place with
  | nil => exact Position.le_refl _
  | cons char text ih =>
    have step : place.position ≤ (place.next char).position := by
      unfold Place.next
      split
      · exact Or.inl (Nat.lt_succ_self _)
      · exact Or.inr ⟨rfl, Nat.le_add_right ..⟩
    exact Position.le_trans step (ih (place.next char))

/-- The tokens of a text stand behind the place where it begins, each behind those before it. -/
theorem tokens_ordered (budget : Nat) (place : Place) (text : List Char) :
    (tokensFrom budget place text).tokens.Pairwise
        (fun left right => left.place.position ≤ right.place.position) ∧
      ∀ token ∈ (tokensFrom budget place text).tokens,
        place.position ≤ token.place.position := by
  induction budget, place, text using stream_induction with
  | ended budget place text stop =>
    generalize tokensFrom budget place text = stream at stop
    cases stop <;> simp
  | step budget place text start first rest read remaining reads ih =>
    obtain ⟨ordered, behind⟩ := ih
    have begins := skip_forward reads.skipped
    have follows : ∀ token ∈ (tokensFrom remaining (start.past read.text) read.rest).tokens,
        start.position ≤ token.place.position :=
      fun token member =>
        Position.le_trans (start.past_forward read.text) (behind token member)
    rw [tokens_read reads]
    exact ⟨List.pairwise_cons.mpr ⟨follows, ordered⟩, List.forall_mem_cons.mpr
      ⟨begins, fun token member => Position.le_trans begins (follows token member)⟩⟩

/-- The offset behind a token. -/
def Token.stop (token : Token) : Nat := token.place.offset + byteLength token.text.toList

/-- The tokens of a text take up bytes of their own behind its beginning, one behind the
other. -/
theorem tokens_apart (budget : Nat) (place : Place) (text : List Char) :
    (tokensFrom budget place text).tokens.Pairwise
        (fun left right => left.stop ≤ right.place.offset) ∧
      ∀ token ∈ (tokensFrom budget place text).tokens,
        place.offset ≤ token.place.offset ∧ token.place.offset < token.stop := by
  induction budget, place, text using stream_induction with
  | ended budget place text stop =>
    generalize tokensFrom budget place text = stream at stop
    cases stop <;> simp
  | step budget place text start first rest read remaining reads ih =>
    obtain ⟨apart, behind⟩ := ih
    obtain ⟨more, spelled, split⟩ := lexeme_split reads.found
    obtain ⟨gap, -, begins, -, -⟩ := skip_gap reads.skipped
    have stop : (read.token start).stop = start.offset + byteLength read.text := by
      simp [Token.stop, Lexeme.token]
    have filled : 0 < byteLength read.text := byteLength_pos (spelled ▸ List.cons_ne_nil first more)
    rw [Place.past_offset] at behind
    rw [tokens_read reads]
    refine ⟨List.pairwise_cons.mpr ⟨fun token member => ?_, apart⟩,
      List.forall_mem_cons.mpr ⟨⟨?_, ?_⟩, fun token member => ?_⟩⟩
    · rw [stop]
      exact (behind token member).1
    · exact begins ▸ Nat.le_add_right ..
    · rw [stop]
      exact Nat.lt_add_of_pos_right filled
    · obtain ⟨after, wide⟩ := behind token member
      exact ⟨by omega, wide⟩

/-- A token is a part of the text. -/
theorem token_within (budget : Nat) (place : Place) (text : List Char) :
    ∀ token ∈ (tokensFrom budget place text).tokens, ∃ gap behind,
      text = gap ++ (token.text.toList ++ behind) ∧
        token.place.offset = place.offset + byteLength gap := by
  induction budget, place, text using stream_induction with
  | ended budget place text stop =>
    generalize tokensFrom budget place text = stream at stop
    cases stop <;> simp
  | step budget place text start first rest read remaining reads ih =>
    obtain ⟨more, spelled, rfl⟩ := lexeme_split reads.found
    obtain ⟨gap, rfl, begins, -, -⟩ := skip_gap reads.skipped
    rw [tokens_read reads]
    refine List.forall_mem_cons.mpr ⟨⟨gap, read.rest, ?_, begins⟩, fun token member => ?_⟩
    · simp [Lexeme.token, spelled]
    · obtain ⟨inner, behind, whole, offset⟩ := ih token member
      refine ⟨gap ++ (first :: (more ++ inner)), behind, by simp [whole], ?_⟩
      rw [offset, Place.past_offset, begins, spelled]
      simp only [byteLength_append, byteLength]
      omega

/-- A token is not empty, and stands between the ends of the text. -/
theorem token_bounds {budget : Nat} {place : Place} {text : List Char} {token : Token}
    (member : token ∈ (tokensFrom budget place text).tokens) :
    place.offset ≤ token.place.offset ∧ token.place.offset < token.stop ∧
      token.stop ≤ place.offset + byteLength text := by
  obtain ⟨begins, ends⟩ := (tokens_apart _ _ _).2 token member
  obtain ⟨gap, more, rfl, offset⟩ := token_within _ _ _ token member
  refine ⟨begins, ends, ?_⟩
  simp only [Token.stop, offset, byteLength_append]
  omega

/-- The offsets of the tokens of a text rise. -/
theorem tokens_rise (text : List Char) :
    (TokenStream.ofText text).tokens.Pairwise
      fun left right => left.place.offset < right.place.offset := by
  obtain ⟨apart, behind⟩ := tokens_apart nestingLimit .origin text
  refine apart.imp_of_mem fun here _ ordered => ?_
  exact Nat.lt_of_lt_of_le (behind _ here).2 ordered

/-- A token and the one behind it are known by the offset of the first. -/
theorem next_unique {tokens : List Token}
    (rise : tokens.Pairwise fun left right => left.place.offset < right.place.offset)
    {first second first' second' : Token} (within : [first, second] <:+: tokens)
    (within' : [first', second'] <:+: tokens)
    (same : first.place.offset = first'.place.offset) : second = second' := by
  obtain ⟨front, back, split⟩ := within
  obtain ⟨front', back', split'⟩ := within'
  have later : ∀ {front front' back back' : List Token} {first second first' second' : Token},
      front ++ [first, second] ++ back = tokens → front' ++ [first', second'] ++ back' = tokens →
      front.length < front'.length → first.place.offset < first'.place.offset := by
    intro front front' back back' first second first' second' split split' shorter
    have here : tokens[front.length]? = some first := by simp [← split]
    have there : tokens[front'.length]? = some first' := by simp [← split']
    obtain ⟨bound, held⟩ := List.getElem?_eq_some_iff.mp here
    obtain ⟨bound', held'⟩ := List.getElem?_eq_some_iff.mp there
    have ordered := List.pairwise_iff_getElem.mp rise _ _ bound bound' shorter
    rwa [held, held'] at ordered
  have lengths : front.length = front'.length := by
    rcases Nat.lt_trichotomy front.length front'.length with shorter | equal | longer
    · exact absurd same (Nat.ne_of_lt (later split split' shorter))
    · exact equal
    · exact absurd same.symm (Nat.ne_of_lt (later split' split longer))
  have whole := split.trans split'.symm
  simp only [List.append_assoc] at whole
  obtain ⟨-, tails⟩ := List.append_inj whole lengths
  simp only [List.cons_append, List.cons.injEq] at tails
  exact tails.2.1

end QueryStore
