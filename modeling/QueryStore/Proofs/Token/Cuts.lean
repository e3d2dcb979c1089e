import QueryStore.Proofs.Token.Stream

/-! A stream can be cut behind any of its tokens. The text up to the end of that token has
the tokens before the cut and ends there, and the text behind it has the others
(`tokens_cut`): reading a token looks at most one character ahead, and only to see that
the token does not go on (`lexeme_again`). -/
namespace QueryStore
open Text

private theorem closeString_cut {escaped : Bool} {text inner rest : List Char}
    (closed : closeString escaped text = some (inner, rest)) (tail : List Char) :
    closeString escaped (inner ++ tail) = some (inner, tail) := by
  induction text generalizing escaped inner with
  | nil => simp [closeString] at closed
  | cons char text ih =>
    unfold closeString at closed
    split at closed
    · simp at closed
    · next notFeed =>
      split at closed
      · next quote =>
        cases closed
        simp [closeString, notFeed, quote]
      · next open' =>
        obtain ⟨read, found, same⟩ := Option.map_eq_some_iff.mp closed
        cases same
        simp [closeString, notFeed, open', ih found]

private theorem closeBlock_long {previous : Char} {text : List Char}
    {read : List Char × List Char} (closed : closeBlock previous text = some read) :
    ∃ first second inside, read.1 = first :: second :: inside := by
  fun_induction closeBlock previous text generalizing read with
  | case1 => simp at closed
  | case2 rest ih =>
    obtain ⟨inner, found, rfl⟩ := Option.map_eq_some_iff.mp closed
    exact ⟨_, _, _, rfl⟩
  | case3 =>
    cases closed
    exact ⟨_, _, _, rfl⟩
  | case4 _ char rest _ ih =>
    obtain ⟨inner, found, rfl⟩ := Option.map_eq_some_iff.mp closed
    obtain ⟨first, second, inside, long⟩ := ih found
    exact ⟨char, first, second :: inside, by rw [long]⟩

private theorem closeBlock_cut {previous : Char} {text : List Char}
    {read : List Char × List Char} (closed : closeBlock previous text = some read)
    (tail : List Char) : closeBlock previous (read.1 ++ tail) = some (read.1, tail) := by
  fun_induction closeBlock previous text generalizing read with
  | case1 => simp at closed
  | case2 rest ih =>
    obtain ⟨inner, found, rfl⟩ := Option.map_eq_some_iff.mp closed
    simp [tripleQuote, closeBlock, ih found]
  | case3 previous rest unescaped =>
    cases closed
    simp [tripleQuote, closeBlock, unescaped]
  | case4 previous char rest apart ih =>
    obtain ⟨inner, found, rfl⟩ := Option.map_eq_some_iff.mp closed
    obtain ⟨second, third, inside, long⟩ := closeBlock_long found
    have whole := closeBlock_split found
    have apart' : ∀ others, char = '\x22' → inner.1 ++ tail = '\x22' :: '\x22' :: others → False := by
      intro others quote equal
      rw [long] at equal whole
      simp only [List.cons_append, List.cons.injEq] at equal
      obtain ⟨rfl, rfl, -⟩ := equal
      exact apart _ quote whole
    simp only [List.cons_append]
    rw [closeBlock.eq_3 _ _ _ apart', ih found]
    rfl

/-- What a token is does not depend on the text behind it, if that is left out or begins with the
same character. -/
theorem lexeme_again {first : Char} {rest tail : List Char} {read : Lexeme}
    (found : lexeme first rest = .ok read) (same : ∀ char ∈ tail.head?, char ∈ read.rest.head?) :
    ∃ more, read.text = first :: more ∧ rest = more ++ read.rest ∧
      lexeme first (more ++ tail) = .ok { read with rest := tail } := by
  obtain ⟨more, text, whole⟩ := lexeme_split found
  refine ⟨more, text, whole, lexeme_iff.mpr ?_⟩
  have runs : ∀ p : Char → Bool, rest.takeWhile p = more →
      (more ++ tail).takeWhile p = more ∧ (more ++ tail).dropWhile p = tail := by
    intro p taken
    obtain ⟨goes, ends⟩ := run_taken (whole ▸ taken)
    exact run_stops goes fun char head => ends char (same char head)
  cases lexeme_iff.mp found with
  | mark mark =>
    obtain rfl : more = [] := (List.cons.inj text).2.symm
    exact .mark mark
  | dots dot _ =>
    obtain rfl : more = ['.', '.'] := (List.cons.inj text).2.symm
    exact .dots dot rfl
  | name noMark noDot letter =>
    obtain ⟨taken, dropped⟩ := runs isNameChar (List.cons.inj text).2
    have lexes : Lexes first (more ++ tail) _ := .name noMark noDot letter
    rw [taken, dropped] at lexes
    rwa [(List.cons.inj text).2]
  | number noMark noDot noLetter digit number =>
    obtain ⟨taken, dropped⟩ := runs (!endsNumber ·) (List.cons.inj text).2
    rw [(List.cons.inj text).2, ← taken] at number
    have lexes : Lexes first (more ++ tail) _ := .number noMark noDot noLetter digit number
    rw [taken, dropped] at lexes
    rwa [(List.cons.inj text).2]
  | @block inner read quote opens closed =>
    obtain rfl : more = '\x22' :: '\x22' :: read.1 := (List.cons.inj text).2.symm
    exact .block quote rfl (closeBlock_cut closed tail)
  | @string read quote single closed =>
    obtain rfl : read.1 = more := (List.cons.inj text).2
    refine .string quote ?_ (closeString_cut closed tail)
    -- A block string would begin with the empty string and a quote behind it.
    intro inner opens
    match read with
    | ([], _) => cases closeString_cut closed []
    | ([quote], behind) =>
      cases opens
      obtain ⟨others, behind⟩ := List.head?_eq_some_iff.mp (Option.mem_def.mp (same _ rfl))
      exact single others (by rw [whole, behind]; rfl)
    | (_ :: _ :: more, behind) =>
      cases opens
      exact single (more ++ behind) whole

/-- A name goes as far as it can. -/
theorem name_ends {first : Char} {rest : List Char} {read : Lexeme}
    (found : lexeme first rest = .ok read) (named : read.kind = .name) :
    ∀ char ∈ read.rest.head?, isNameChar char = false := by
  cases lexeme_iff.mp found with
  | mark | dots | block | string => cases named
  | name =>
    intro char head
    have stop := List.head?_dropWhile_not isNameChar rest
    rw [Option.mem_def.mp head] at stop
    simpa using stop
  | number _ _ _ _ number =>
    rcases numberKind_kind number with rfl | rfl <;> cases named

/-- Nothing is lost of a text when what stands before a token is passed over. -/
theorem skip_bytes {inComment : Bool} {place start : Place} {text rest : List Char}
    (skipped : skipIgnored inComment place text = (start, rest)) :
    start.offset + byteLength rest = place.offset + byteLength text := by
  induction text generalizing inComment place with
  | nil =>
    cases skipped
    rfl
  | cons char text ih =>
    rcases passes_or_stops place inComment char with ⟨inside, next, passes⟩ | ⟨rfl, -, stops⟩
    · rw [passes.skip] at skipped
      rw [ih skipped, passes.offset, byteLength, Nat.add_assoc]
    · rw [stops] at skipped
      cases skipped
      rfl

/-- What stands between tokens is passed over in the same way whatever follows it, and then
nothing more is. -/
theorem skip_gap {inComment : Bool} {place start : Place} {text rest : List Char}
    {first : Char} (skipped : skipIgnored inComment place text = (start, first :: rest)) :
    ∃ gap, text = gap ++ first :: rest ∧ start.offset = place.offset + byteLength gap ∧
      (∀ tail, skipIgnored inComment place (gap ++ first :: tail) = (start, first :: tail)) ∧
      ∀ tail, skipIgnored false start (first :: tail) = (start, first :: tail) := by
  induction text generalizing inComment place with
  | nil => simp [skipIgnored] at skipped
  | cons char text ih =>
    rcases passes_or_stops place inComment char with ⟨inside, next, passes⟩ | ⟨rfl, -, stops⟩
    · rw [passes.skip] at skipped
      obtain ⟨gap, rfl, offset, same, settled⟩ := ih skipped
      refine ⟨char :: gap, rfl, ?_, ?_, settled⟩
      · rw [offset, passes.offset]
        simp [byteLength, Nat.add_assoc]
      · intro tail
        rw [List.cons_append, passes.skip, same]
    · rw [stops] at skipped
      cases skipped
      exact ⟨[], rfl, rfl, stops, stops⟩

/-- A place moves over a text by the bytes of the text. -/
theorem Place.past_offset (place : Place) (text : List Char) :
    (place.past text).offset = place.offset + byteLength text := by
  induction text generalizing place with
  | nil => rfl
  | cons char text ih =>
    have step : (place.next char).offset = place.offset + char.utf8Size := by
      unfold Place.next
      split <;> rfl
    have later := ih (place.next char)
    rw [step] at later
    simpa [Place.past, byteLength, Nat.add_assoc] using later

variable {budget : Nat} {place : Place} {text : List Char}

/-- No byte is lost when a token is read. -/
theorem Reads.bytes {start : Place} {first : Char} {rest : List Char} {read : Lexeme}
    {remaining : Nat} (reads : Reads budget place text start first rest read remaining) :
    (start.past read.text).offset + byteLength read.rest = place.offset + byteLength text := by
  obtain ⟨more, spelled, split⟩ := lexeme_split reads.found
  rw [← skip_bytes reads.skipped, Place.past_offset, Nat.add_assoc, ← byteLength_append, spelled,
    List.cons_append, ← split]

/-- A text that is cut behind the tokens `first` of its stream: these are the tokens of the
text before the cut, the last one ends right there, and `others` are the tokens of the text
behind it. -/
structure Cut (budget : Nat) (place : Place) (text : List Char) (first others : List Token) where
  before : List Char
  behind : List Char
  budgetBehind : Nat
  placeBehind : Place
  whole : text = before ++ behind
  tokens : (tokensFrom budget place before).tokens = first
  ended : (tokensFrom budget place before).ending = .endOfInput
  remain : (tokensFrom budgetBehind placeBehind behind).tokens = others
  offset : placeBehind.offset = place.offset + byteLength before
  last : ∀ token ∈ first.getLast?, ∃ initial, before = initial ++ token.text.toList ∧
    token.place.offset = place.offset + byteLength initial
  none : first = [] → before = []
  ends : ∀ token ∈ first.getLast?, token.kind = .name →
    ∀ char ∈ behind.head?, isNameChar char = false

/-- A text is cut behind its first token and others where the text behind that token is. -/
private theorem Reads.cut {start : Place} {letter : Char} {rest : List Char} {read : Lexeme}
    {remaining : Nat} {first others : List Token}
    (reads : Reads budget place text start letter rest read remaining)
    (cut : Cut remaining (start.past read.text) read.rest first others) :
    Nonempty (Cut budget place text (read.token start :: first) others) := by
  obtain ⟨gap, rfl, start', skips, -⟩ := skip_gap reads.skipped
  have begins : ∀ char ∈ cut.before.head?, char ∈ read.rest.head? := by
    intro char head
    rw [cut.whole, List.head?_append, Option.mem_def.mp head]
    rfl
  obtain ⟨more, spelled, rfl, again⟩ := lexeme_again reads.found begins
  have reads' : Reads budget place (gap ++ letter :: (more ++ cut.before)) start letter
      (more ++ cut.before) { read with rest := cut.before } remaining :=
    ⟨skips _, again, reads.budget⟩
  refine ⟨gap ++ letter :: (more ++ cut.before), cut.behind, cut.budgetBehind,
    cut.placeBehind, ?_, ?_, ?_, cut.remain, cut.offset.trans reads'.bytes, ?_, by simp, ?_⟩
  · conv => lhs; rw [cut.whole]
    simp
  · rw [tokens_read reads']
    simp only [TokenStream.cons, cut.tokens]
    rfl
  · rw [tokens_read reads']
    exact cut.ended
  · intro last isLast
    cases first with
    | nil =>
      obtain rfl : read.token start = last := by simpa using isLast
      refine ⟨gap, ?_, start'⟩
      simp [cut.none rfl, Lexeme.token, spelled]
    | cons next first =>
      obtain ⟨initial, ends, offset⟩ := cut.last last (by simpa using isLast)
      refine ⟨gap ++ letter :: (more ++ initial), by simp [ends], ?_⟩
      rw [offset, Place.past_offset, start', spelled]
      simp only [byteLength_append, byteLength]
      omega
  · intro last isLast named char head
    cases first with
    | nil =>
      obtain rfl : read.token start = last := by simpa using isLast
      refine name_ends reads.found named char ?_
      rw [cut.whole, cut.none rfl]
      exact head
    | cons next first => exact cut.ends last (by simpa using isLast) named char head

/-- Tokens can be cut where their text can. -/
theorem tokens_cut {first others : List Token}
    (split : (tokensFrom budget place text).tokens = first ++ others) :
    Nonempty (Cut budget place text first others) := by
  induction first generalizing budget place text with
  | nil =>
    have ended : tokensFrom budget place [] = ⟨[], .endOfInput, place.position⟩ :=
      tokens_ended (.exhausted rfl)
    exact ⟨[], text, budget, place, rfl, by rw [ended], by rw [ended], split, rfl, by simp,
      fun _ => rfl, by simp⟩
  | cons token first ih =>
    rcases tokens_cases budget place text with
      stop | ⟨start, letter, rest, read, remaining, reads⟩
    · generalize tokensFrom budget place text = stream at stop split
      cases stop <;> cases split
    · rw [tokens_read reads] at split
      simp only [TokenStream.cons, List.cons_append, List.cons.injEq] at split
      obtain ⟨rfl, split⟩ := split
      obtain ⟨cut⟩ := ih split
      exact reads.cut cut

/-- A text that ends within some budget has the same tokens within a greater one. -/
theorem tokens_budget (more : Nat)
    (ended : (tokensFrom budget place text).ending = .endOfInput) :
    tokensFrom (budget + more) place text = tokensFrom budget place text := by
  induction budget, place, text using stream_induction with
  | ended budget place text stop =>
    generalize equal : tokensFrom budget place text = stream at stop ended
    cases stop with
    | exhausted skipped => exact tokens_ended (.exhausted skipped)
    | unreadable skipped failed => cases ended
    | tooDeep skipped found spent => cases ended
  | step budget place text start first rest read remaining reads ih =>
    have lifted : budgetAfter (budget + more) read.text = some (remaining + more) := by
      have spent := reads.budget
      unfold budgetAfter at spent ⊢
      split at spent <;> grind
    have reads' : Reads (budget + more) place text start first rest read (remaining + more) :=
      ⟨reads.skipped, reads.found, lifted⟩
    rw [tokens_read reads] at ended ⊢
    rw [tokens_read reads', ih ended]

end QueryStore
