import QueryStore.Token.Scan

/-! The tokens of a text, one at a time. What stands before a token is passed over character
by character (`Passes`). A stream either ends, for one of three reasons, or reads a token and
goes on behind it; `tokens_ended` and `tokens_read` say so without the recursion, and every
proof about streams starts from them. -/
namespace QueryStore

/-- An ignored character is passed over, in a comment or outside of one: whether the text
behind it is in a comment, and the place there. -/
inductive Passes (place : Place) : Bool → Char → Bool → Place → Prop
  | feed (inComment : Bool) : Passes place inComment '\n' false (place.down '\n')
  | closing : Passes place true '\r' false (place.down '\r')
  | remark {char : Char} (other : ¬ (char = '\n' ∨ char = '\r')) :
    Passes place true char true (place.right 0 char)
  | space {char : Char} (blank : char = ' ' ∨ char = ',') :
    Passes place false char false (place.right 1 char)
  | tab : Passes place false '\t' false (place.right 8 '\t')
  | unseen {char : Char} (silent : char = '\r' ∨ char = '\uFEFF') :
    Passes place false char false (place.right 0 char)
  | comment : Passes place false '#' true (place.right 0 '#')

section
variable {place next : Place} {inComment inside : Bool} {char : Char}

theorem Passes.skip (passes : Passes place inComment char inside next) (tail : List Char) :
    skipIgnored inComment place (char :: tail) = skipIgnored inside next tail := by
  cases passes with
  | feed => cases inComment <;> simp [skipIgnored]
  | closing => simp [skipIgnored]
  | remark other => simp [skipIgnored, other]
  | space blank => rcases blank with rfl | rfl <;> simp [skipIgnored]
  | tab => simp [skipIgnored]
  | unseen silent => rcases silent with rfl | rfl <;> simp [skipIgnored]
  | comment => simp [skipIgnored]

theorem Passes.offset (passes : Passes place inComment char inside next) :
    next.offset = place.offset + char.utf8Size := by
  cases passes <;> rfl

/-- A character is passed over, or it begins a token. -/
theorem passes_or_stops (place : Place) (inComment : Bool) (char : Char) :
    (∃ inside next, Passes place inComment char inside next) ∨
    (inComment = false ∧ char ≠ '\n' ∧
      ∀ tail, skipIgnored false place (char :: tail) = (place, char :: tail)) := by
  by_cases feed : char = '\n'
  · subst feed
    exact Or.inl ⟨_, _, .feed inComment⟩
  cases inComment with
  | true =>
    by_cases carriage : char = '\r'
    · subst carriage
      exact Or.inl ⟨_, _, .closing⟩
    · exact Or.inl ⟨_, _, .remark (not_or.mpr ⟨feed, carriage⟩)⟩
  | false =>
    by_cases blank : char = ' ' ∨ char = ','
    · exact Or.inl ⟨_, _, .space blank⟩
    by_cases tab : char = '\t'
    · subst tab
      exact Or.inl ⟨_, _, .tab⟩
    by_cases silent : char = '\r' ∨ char = '\uFEFF'
    · exact Or.inl ⟨_, _, .unseen silent⟩
    by_cases comment : char = '#'
    · subst comment
      exact Or.inl ⟨_, _, .comment⟩
    · refine Or.inr ⟨rfl, feed, fun tail => ?_⟩
      simp [skipIgnored, feed, blank, tab, silent, comment]

end

/-- A run of characters goes up to where it stops. -/
theorem run_stops {p : Char → Bool} {run tail : List Char} (goes : ∀ char ∈ run, p char = true)
    (ends : ∀ char ∈ tail.head?, p char = false) :
    (run ++ tail).takeWhile p = run ∧ (run ++ tail).dropWhile p = tail := by
  rw [List.takeWhile_append_of_pos goes, List.dropWhile_append_of_pos goes]
  cases tail with
  | nil => simp
  | cons char tail => simp [ends char rfl]

/-- A run of characters that is taken is taken whole, and stops. -/
theorem run_taken {p : Char → Bool} {run tail : List Char} (taken : (run ++ tail).takeWhile p = run) :
    (∀ char ∈ run, p char = true) ∧ ∀ char ∈ tail.head?, p char = false := by
  have goes : ∀ char ∈ run, p char = true := by
    have all := List.all_takeWhile (p := p) (l := run ++ tail)
    rw [taken] at all
    exact List.all_eq_true.mp all
  refine ⟨goes, fun char head => ?_⟩
  obtain ⟨others, rfl⟩ := List.head?_eq_some_iff.mp (Option.mem_def.mp head)
  rw [List.takeWhile_append_of_pos goes] at taken
  have stopped : (char :: others).takeWhile p = [] := List.append_right_eq_self.mp taken
  cases further : p char with
  | false => rfl
  | true => simp [further] at stopped

theorem map_eq_ok {ε α β : Type} {change : α → β} {result : Except ε α} {value : β} :
    result.map change = .ok value ↔ ∃ inner, result = .ok inner ∧ change inner = value := by
  cases result <;> simp [Except.map]

/-- A token is read from a text: a punctuator, a name, a number or one of the two kinds of
strings, tried in this order. -/
inductive Lexes (first : Char) (rest : List Char) : Lexeme → Prop
  | mark (mark : isPunctuator first = true) : Lexes first rest ⟨.punctuator, [first], rest⟩
  | dots {behind : List Char} (dot : first = '.') (whole : rest = '.' :: '.' :: behind) :
    Lexes first rest ⟨.punctuator, ['.', '.', '.'], behind⟩
  | name (noMark : isPunctuator first = false) (noDot : first ≠ '.')
    (letter : isNameStart first = true) :
    Lexes first rest ⟨.name, first :: rest.takeWhile isNameChar, rest.dropWhile isNameChar⟩
  | number {kind : TokenKind} (noMark : isPunctuator first = false) (noDot : first ≠ '.')
    (noLetter : isNameStart first = false) (digit : (first = '-' || first.isDigit) = true)
    (number : numberKind (first :: rest.takeWhile (!endsNumber ·)) = .ok kind) :
    Lexes first rest
      ⟨kind, first :: rest.takeWhile (!endsNumber ·), rest.dropWhile (!endsNumber ·)⟩
  | block {inner : List Char} {read : List Char × List Char} (quote : first = '\x22')
    (opens : rest = '\x22' :: '\x22' :: inner) (closed : closeBlock '\x22' inner = some read) :
    Lexes first rest ⟨.blockString, tripleQuote ++ read.1, read.2⟩
  | string {read : List Char × List Char} (quote : first = '\x22')
    (single : ∀ inner, rest ≠ '\x22' :: '\x22' :: inner)
    (closed : closeString false rest = some read) :
    Lexes first rest ⟨.stringValue, '\x22' :: read.1, read.2⟩

theorem lexeme_iff {first : Char} {rest : List Char} {read : Lexeme} :
    lexeme first rest = .ok read ↔ Lexes first rest read := by
  constructor
  · intro found
    unfold lexeme at found
    split at found
    · next mark =>
      cases found
      exact .mark mark
    next noMark =>
    rw [Bool.not_eq_true] at noMark
    split at found
    · next dot =>
      split at found
      · cases found
        exact .dots dot rfl
      · cases found
    next noDot =>
    split at found
    · next letter =>
      cases found
      exact .name noMark noDot letter
    next noLetter =>
    rw [Bool.not_eq_true] at noLetter
    split at found
    · next digit =>
      obtain ⟨kind, number, same⟩ := map_eq_ok.mp found
      cases same
      exact .number noMark noDot noLetter digit number
    split at found
    · next quote =>
      split at found
      · next inner =>
        cases closed : closeBlock '\x22' inner with
        | none => simp [closed] at found
        | some read' =>
          simp only [closed, Except.ok.injEq] at found
          subst found
          exact .block quote rfl closed
      · next single =>
        cases closed : closeString false rest with
        | none => simp [closed] at found
        | some read' =>
          simp only [closed, Except.ok.injEq] at found
          subst found
          exact .string quote single closed
    · cases found
  · intro lexes
    cases lexes with
    | mark mark => simp [lexeme, mark]
    | dots dot whole =>
      have noMark : isPunctuator '.' = false := by decide
      simp [lexeme, noMark, dot, whole]
    | name noMark noDot letter => simp [lexeme, noMark, noDot, letter]
    | number noMark noDot noLetter digit number =>
      simp only [lexeme, noMark, noDot, noLetter, digit, Bool.false_eq_true, ↓reduceIte]
      exact map_eq_ok.mpr ⟨_, number, rfl⟩
    | block quote opens closed =>
      subst quote opens
      have quote : isPunctuator '\x22' = false ∧ isNameStart '\x22' = false := by decide
      simp [lexeme, quote, closed]
    | string quote single closed =>
      subst quote
      have quote : isPunctuator '\x22' = false ∧ isNameStart '\x22' = false := by decide
      simp [lexeme, quote, closed]

theorem numberKind_kind {text : List Char} {kind : TokenKind} (number : numberKind text = .ok kind) :
    kind = .floatValue ∨ kind = .intValue := by
  unfold numberKind at number
  split at number <;> split at number <;> cases number <;> simp

/-- The stream of a text in which no token can be read, and why. -/
inductive Ended (budget : Nat) (place : Place) (text : List Char) : TokenStream → Prop
  | exhausted {start : Place} (skipped : skipIgnored false place text = (start, [])) :
    Ended budget place text ⟨[], .endOfInput, start.position⟩
  | unreadable {start : Place} {first : Char} {rest : List Char} {error : LexicalError}
    (skipped : skipIgnored false place text = (start, first :: rest))
    (failed : lexeme first rest = .error error) :
    Ended budget place text ⟨[], .failure error, start.position⟩
  | tooDeep {start : Place} {first : Char} {rest : List Char} {read : Lexeme}
    (skipped : skipIgnored false place text = (start, first :: rest))
    (found : lexeme first rest = .ok read) (spent : budgetAfter budget read.text = none) :
    Ended budget place text ⟨[], .failure .tooDeep, start.position⟩

/-- The token that a text begins with, where it begins, and what goes on behind it. -/
structure Reads (budget : Nat) (place : Place) (text : List Char) (start : Place)
    (first : Char) (rest : List Char) (read : Lexeme) (remaining : Nat) : Prop where
  skipped : skipIgnored false place text = (start, first :: rest)
  found : lexeme first rest = .ok read
  budget : budgetAfter budget read.text = some remaining

/-- The token that is read. -/
def Lexeme.token (read : Lexeme) (start : Place) : Token :=
  ⟨read.kind, String.ofList read.text, start⟩

variable {budget : Nat} {place : Place} {text : List Char}

theorem tokens_ended {stream : TokenStream} (ended : Ended budget place text stream) :
    tokensFrom budget place text = stream := by
  cases ended with
  | exhausted skipped =>
    unfold tokensFrom
    split
    · next again => rw [skipped] at again; cases again; rfl
    · next again => rw [skipped] at again; cases again
  | unreadable skipped failed =>
    unfold tokensFrom
    split
    · next again => rw [skipped] at again; cases again
    · next again =>
      rw [skipped] at again
      cases again
      split
      · next same => rw [failed] at same; cases same; rfl
      · next same => rw [failed] at same; cases same
  | tooDeep skipped found spent =>
    unfold tokensFrom
    split
    · next again => rw [skipped] at again; cases again
    · next again =>
      rw [skipped] at again
      cases again
      split
      · next same => rw [found] at same; cases same
      · next same => rw [found] at same; cases same; rw [spent]

theorem tokens_read {start : Place} {first : Char} {rest : List Char} {read : Lexeme}
    {remaining : Nat} (reads : Reads budget place text start first rest read remaining) :
    tokensFrom budget place text =
      (tokensFrom remaining (start.past read.text) read.rest).cons (read.token start) := by
  obtain ⟨skipped, found, spent⟩ := reads
  conv => lhs; unfold tokensFrom
  split
  · next again => rw [skipped] at again; cases again
  · next again =>
    rw [skipped] at again
    cases again
    split
    · next same => rw [found] at same; cases same
    · next same =>
      rw [found] at same
      cases same
      rw [spent]
      rfl

/-- A stream ends, or reads a token and goes on behind it. -/
theorem tokens_cases (budget : Nat) (place : Place) (text : List Char) :
    Ended budget place text (tokensFrom budget place text) ∨
    ∃ start first rest read remaining,
      Reads budget place text start first rest read remaining := by
  rcases skipped : skipIgnored false place text with ⟨start, behind⟩
  cases behind with
  | nil =>
    have ended : Ended budget place text _ := .exhausted skipped
    exact Or.inl (tokens_ended ended ▸ ended)
  | cons first rest =>
    cases found : lexeme first rest with
    | error error =>
      have ended : Ended budget place text _ := .unreadable skipped found
      exact Or.inl (tokens_ended ended ▸ ended)
    | ok read =>
      cases spent : budgetAfter budget read.text with
      | none =>
        have ended : Ended budget place text _ := .tooDeep skipped found spent
        exact Or.inl (tokens_ended ended ▸ ended)
      | some remaining => exact Or.inr ⟨start, first, rest, read, remaining, skipped, found, spent⟩

/-- What is behind a token is shorter than the text. -/
theorem Reads.shorter {start : Place} {first : Char} {rest : List Char} {read : Lexeme}
    {remaining : Nat} (reads : Reads budget place text start first rest read remaining) :
    read.rest.length < text.length := by
  have behind := lexeme_rest_length_lt reads.found
  have within := skipIgnored_length_le false place text
  rw [reads.skipped] at within
  exact Nat.lt_of_lt_of_le behind within

/-- The tokens of a text from any place can be gone through by induction on the text: it
ends, or a token is read and the property holds behind it. -/
theorem stream_induction {motive : Nat → Place → List Char → Prop}
    (ended : ∀ budget place text, Ended budget place text (tokensFrom budget place text) →
      motive budget place text)
    (step : ∀ budget place text start first rest read remaining,
      Reads budget place text start first rest read remaining →
      motive remaining (start.past read.text) read.rest → motive budget place text)
    (budget : Nat) (place : Place) (text : List Char) : motive budget place text := by
  rcases tokens_cases budget place text with stop | ⟨start, first, rest, read, remaining, reads⟩
  · exact ended budget place text stop
  · have shorter := reads.shorter
    exact step _ _ _ _ _ _ _ _ reads
      (stream_induction ended step remaining (start.past read.text) read.rest)
termination_by text.length

end QueryStore
