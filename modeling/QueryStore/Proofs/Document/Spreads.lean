import QueryStore.Document.Node
import QueryStore.Proofs.Document.Derivation
import QueryStore.Proofs.Text.Offsets
import QueryStore.Proofs.Token.Cuts

/-! The three dots before an inline fragment. They are looked for in front of the next token, over
spaces, commas and line ends, and so they are found unless a comment stands between
(`dotsBefore_between`). Tokens in a row have nothing else between them (`gap_between`), and an
inline fragment at any depth is read from a run of tokens of its own (`SetStands.preorder`). -/
namespace QueryStore
open Text Grammar

theorem insignificant_of_passes {place next : Place} {char : Char} {inside : Bool}
    (passes : Passes place false char inside next) :
    char = '#' ∨ inside = false ∧ isInsignificant char = true := by
  cases passes with
  | feed => exact .inr ⟨rfl, by decide⟩
  | space blank => exact .inr ⟨rfl, by rcases blank with rfl | rfl <;> decide⟩
  | tab => exact .inr ⟨rfl, by decide⟩
  | unseen silent => exact .inr ⟨rfl, by rcases silent with rfl | rfl <;> decide⟩
  | comment => exact .inl rfl

/-- Text that is passed over up to a token. -/
def PassedOver (gap : List Char) : Prop :=
  ∃ place start rest, skipIgnored false place (gap ++ rest) = (start, rest)

/-- What is passed over is insignificant, up to the first comment. -/
theorem PassedOver.shape {gap : List Char} (passed : PassedOver gap) :
    gap.all isInsignificant = true ∨
      ∃ blank behind, gap = blank ++ '#' :: behind ∧ blank.all isInsignificant = true := by
  obtain ⟨place, start, rest, skipped⟩ := passed
  induction gap generalizing place with
  | nil => exact .inl rfl
  | cons char gap ih =>
    rcases passes_or_stops place false char with ⟨inside, next, passes⟩ | ⟨-, -, stops⟩
    · rcases insignificant_of_passes passes with rfl | ⟨rfl, here⟩
      · exact .inr ⟨[], gap, rfl, rfl⟩
      · rw [List.cons_append, passes.skip] at skipped
        rcases ih _ skipped with all | ⟨blank, behind, rfl, all⟩
        · exact .inl (by rw [List.all_cons, here, all]; rfl)
        · exact .inr ⟨char :: blank, behind, rfl, by rw [List.all_cons, here, all]; rfl⟩
    · rw [List.cons_append, stops] at skipped
      have length := congrArg (List.length ∘ Prod.snd) skipped
      simp at length
      omega

/-- What stands between two tokens in a row. -/
theorem gap_between {text : List Char} {first second : Token}
    (row : [first, second] <:+: (TokenStream.ofText text).tokens) :
    ∃ front gap behind, text = front ++ (first.text.toList ++ (gap ++ behind)) ∧
      first.place.offset = byteLength front ∧
      second.place.offset = byteLength (front ++ (first.text.toList ++ gap)) ∧
      PassedOver gap := by
  obtain ⟨before, after, split⟩ := row
  have split' : (TokenStream.ofText text).tokens = (before ++ [first]) ++ (second :: after) := by
    rw [← split]
    simp
  obtain ⟨cut⟩ := tokens_cut split'
  obtain ⟨front, spelled, offset⟩ := cut.last first (by simp)
  have remain := cut.remain
  rcases tokens_cases cut.budgetBehind cut.placeBehind cut.behind with
    stop | ⟨start, letter, rest, read, remaining, reads⟩
  · generalize tokensFrom cut.budgetBehind cut.placeBehind cut.behind = stream at stop remain
    cases stop <;> cases remain
  · rw [tokens_read reads] at remain
    obtain ⟨rfl, -⟩ := List.cons.inj remain
    obtain ⟨gap, whole, begins, -, -⟩ := skip_gap reads.skipped
    have skipped := reads.skipped
    rw [whole] at skipped
    refine ⟨front, gap, letter :: rest, ?_, ?_, ?_, cut.placeBehind, start, _, skipped⟩
    · rw [← whole, ← List.append_assoc, ← spelled]
      exact cut.whole
    · rw [offset]
      exact Nat.zero_add _
    · rw [← List.append_assoc, ← spelled, byteLength_append]
      refine begins.trans ?_
      rw [cut.offset]
      exact congrArg (· + byteLength gap) (Nat.zero_add _)

theorem byteLength_reverse (text : List Char) : byteLength text.reverse = byteLength text := by
  induction text with
  | nil => rfl
  | cons char text ih =>
    rw [List.reverse_cons, byteLength_append, ih, byteLength, byteLength, byteLength]
    omega

/-- Over insignificant characters the dots are found. -/
theorem dotsBefore_blank (front behind : List Char) {gap : List Char}
    (blank : gap.all isInsignificant = true) :
    dotsBefore (front ++ ("...".toList ++ (gap ++ behind)))
      (byteLength (front ++ ("...".toList ++ gap))) = byteLength front := by
  have taken : takeBytes (byteLength (front ++ ("...".toList ++ gap)))
      (front ++ ("...".toList ++ (gap ++ behind))) = some (front ++ ("...".toList ++ gap)) :=
    takeBytes_eq_some.mpr ⟨behind, by simp, rfl⟩
  have dot : isInsignificant '.' = false := by decide
  have dropped : (front ++ ("...".toList ++ gap)).reverse.dropWhile isInsignificant =
      '.' :: '.' :: '.' :: front.reverse := by
    rw [← List.append_assoc, List.reverse_append,
      List.dropWhile_append_of_pos (by simpa using blank)]
    simp [dot]
  rw [dotsBefore, taken, Option.getD_some, dropped]
  exact byteLength_reverse front

/-- Behind a comment the dots before the comment are not found. What is found, if anything, stands
in the comment. -/
theorem dotsBefore_comment (front comment behind : List Char) :
    let offset := byteLength (front ++ '#' :: comment)
    byteLength front < dotsBefore (front ++ '#' :: (comment ++ behind)) offset ∧
      dotsBefore (front ++ '#' :: (comment ++ behind)) offset ≤ offset := by
  intro offset
  have taken : takeBytes offset (front ++ '#' :: (comment ++ behind)) =
      some (front ++ '#' :: comment) := takeBytes_eq_some.mpr ⟨behind, by simp, rfl⟩
  have sign : isInsignificant '#' = false := by decide
  have size : '#'.utf8Size = 1 := by decide
  have whole : byteLength comment = byteLength (comment.reverse.takeWhile isInsignificant) +
      byteLength (comment.reverse.dropWhile isInsignificant) := by
    rw [← byteLength_append, List.takeWhile_append_dropWhile, byteLength_reverse]
  have dropped : (front ++ '#' :: comment).reverse.dropWhile isInsignificant =
      comment.reverse.dropWhile isInsignificant ++ '#' :: front.reverse := by
    have turned : (front ++ '#' :: comment).reverse = comment.reverse ++ '#' :: front.reverse := by
      simp
    rw [turned, List.dropWhile_append]
    split
    · next none => simp [List.isEmpty_iff.mp none, sign]
    · rfl
  have length : offset = byteLength front + (1 + byteLength comment) := by
    simp only [offset, byteLength_append, byteLength, size]
  rw [dotsBefore, taken, Option.getD_some, dropped]
  generalize comment.reverse.dropWhile isInsignificant = last at whole
  split
  · next before found =>
    -- The sign that opens the comment is not a dot, so that all three stand behind it.
    rcases last with _ | ⟨first, _ | ⟨second, _ | ⟨third, last⟩⟩⟩
    · simp at found
    · simp at found
    · simp at found
    · simp only [List.cons_append, List.cons.injEq] at found
      obtain ⟨-, -, -, rfl⟩ := found
      simp only [byteLength, byteLength_append, byteLength_reverse, size] at whole ⊢
      omega
  · omega

/-- Where an inline fragment begins by the token behind its dots: at the dots if no comment stands
between, and otherwise behind them. -/
theorem dotsBefore_between (front behind : List Char) {gap : List Char} (passed : PassedOver gap) :
    let found := dotsBefore (front ++ ("...".toList ++ (gap ++ behind)))
      (byteLength (front ++ ("...".toList ++ gap)))
    (found = byteLength front ↔ '#' ∉ gap) ∧ byteLength front ≤ found ∧
      found ≤ byteLength (front ++ ("...".toList ++ gap)) := by
  intro found
  rcases passed.shape with blank | ⟨blank, comment, rfl, -⟩
  · have here : found = byteLength front := dotsBefore_blank front behind blank
    refine ⟨iff_of_true here fun sign => ?_, Nat.le_of_eq here.symm, ?_⟩
    · exact absurd (List.all_eq_true.mp blank _ sign) (by decide)
    · rw [here, byteLength_append]
      exact Nat.le_add_right ..
  · obtain ⟨later, bound⟩ := dotsBefore_comment (front ++ ("...".toList ++ blank)) comment behind
    have lead : byteLength front ≤ byteLength (front ++ ("...".toList ++ blank)) := by
      rw [byteLength_append]
      exact Nat.le_add_right ..
    simp only [List.append_assoc] at later bound lead
    simp only [found, List.append_assoc, List.cons_append]
    exact ⟨iff_of_false (by omega) (by simp), by omega, bound⟩

section
variable {placement : Placement} {entry : Nat × Selection}

mutual
/-- A selection at any depth below another one stands in a part of its tokens. -/
theorem Grammar.SelectionStands.preorder :
    ∀ {selection : Selection} {depth : Nat} {run : List Token},
      SelectionStands placement run selection → entry ∈ selection.preorder depth →
      ∃ own, own <:+: run ∧ SelectionStands placement own entry.2
  | .field ⟨_, _, _, _, none, _⟩, _, run, stands, member => by
    obtain rfl := List.mem_singleton.mp member
    exact ⟨run, List.infix_rfl, stands⟩
  | .field ⟨_, _, _, _, some set, _⟩, _, run, stands, member => by
    rcases List.mem_cons.mp member with rfl | later
    · exact ⟨run, List.infix_rfl, stands⟩
    · cases stands with
      | @branch label given annotated below _ _ _ _ _ _ _ _ _ selected _ =>
        obtain ⟨own, within, found⟩ := selected.preorder later
        have below : below <:+ label ++ (given ++ (annotated ++ below)) :=
          ⟨label ++ (given ++ annotated), by simp⟩
        exact ⟨own, within.trans below.isInfix, found⟩
  | .fragmentSpread _, _, run, stands, member => by
    obtain rfl := List.mem_singleton.mp member
    exact ⟨run, List.infix_rfl, stands⟩
  | .inlineFragment ⟨_, _, set, _⟩, _, run, stands, member => by
    rcases List.mem_cons.mp member with rfl | later
    · exact ⟨run, List.infix_rfl, stands⟩
    · cases stands with
      | @inlineFragment dots typed annotated below _ _ _ _ _ _ _ selected _ =>
        obtain ⟨own, within, found⟩ := selected.preorder later
        have below : below <:+ dots :: (typed ++ (annotated ++ below)) :=
          ⟨dots :: (typed ++ annotated), by simp⟩
        exact ⟨own, within.trans below.isInfix, found⟩

/-- A selection at any depth below a set stands in a part of its tokens. -/
theorem Grammar.SetStands.preorder : ∀ {set : SelectionSet} {depth : Nat} {run : List Token},
    SetStands placement run set → entry ∈ set.preorder depth →
      ∃ own, own <:+: run ∧ SelectionStands placement own entry.2
  | ⟨selections, _⟩, _, run, stands, member => by
    cases stands with
    | @braces opening closing inner _ _ _ _ _ inside _ =>
      obtain ⟨own, within, found⟩ := runs_preorder inside member
      exact ⟨own, within.trans ⟨[opening], [closing], by simp⟩, found⟩

/-- A selection at any depth below selections in a row stands in a part of their tokens. -/
theorem runs_preorder : ∀ {selections : List Selection} {depth : Nat} {run : List Token},
    Runs (SelectionStands placement) run selections →
      entry ∈ Selection.listPreorder depth selections →
      ∃ own, own <:+: run ∧ SelectionStands placement own entry.2
  | [], _, _, _, member => by cases member
  | selection :: rest, depth, _, stands, member => by
    cases stands with
    | @cons run others _ _ first later =>
      rcases List.mem_append.mp member with here | behind
      · obtain ⟨own, within, found⟩ := first.preorder here
        exact ⟨own, within.trans (List.prefix_append run others).isInfix, found⟩
      · obtain ⟨own, within, found⟩ := runs_preorder later behind
        exact ⟨own, within.trans (List.suffix_append run others).isInfix, found⟩
end

end

/-- The tokens of an inline fragment: its dots, the token that follows these, and at the end the
brace that closes its selections. -/
structure Introduced (run : List Token) (dots following closing : Token) : Prop where
  head : run.head? = some dots
  next : run.tail.head? = some following
  last : run.getLast? = some closing
  dotted : dots.isPunctuator "..." = true
  closes : closing.isPunctuator "\x7d" = true

/-- The places that a locator gives to inline fragments by the tokens that introduce and close
them. -/
def dottedBy (locator : Locator) : Placement where
  node _ _ := True
  inlineFragment run location := ∃ dots following closing,
    Introduced run dots following closing ∧ location = locator.inlineFragment dots following closing

theorem dottedBy_locates (locator : Locator) (stream : List Token) :
    Locates locator (dottedBy locator) stream where
  node := by
    intros
    trivial
  inlineFragment _ dots following closing _ head next last dotted closes :=
    ⟨dots, following, closing, ⟨head, next, last, dotted, closes⟩, rfl⟩

theorem Grammar.SelectionStands.placed {placement : Placement} {run : List Token}
    {fragment : InlineFragment}
    (stands : SelectionStands placement run (.inlineFragment fragment)) :
    placement.inlineFragment run fragment.location := by
  cases stands with
  | inlineFragment _ _ _ _ placed => exact placed

/-- The selections of a definition stand at its end. -/
theorem Grammar.DefinitionStands.selected {placement : Placement} {run : List Token}
    {definition : Definition} (stands : DefinitionStands placement run definition) :
    ∃ below, below <:+ run ∧ SetStands placement below definition.selectionSet := by
  cases stands with
  | shorthand selected _ => exact ⟨run, List.suffix_rfl, selected⟩
  | @operation keyword label declared annotated below _ _ _ _ _ _ _ _ _ _ selected _ =>
    exact ⟨below, ⟨keyword :: (label.toList ++ (declared ++ annotated)), by simp⟩, selected⟩
  | @fragment keyword name on type annotated below _ _ _ _ _ _ _ _ selected _ =>
    exact ⟨below, ⟨keyword :: name :: on :: type :: annotated, by simp⟩, selected⟩

end QueryStore
