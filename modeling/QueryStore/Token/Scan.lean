import QueryStore.Token.Basic
import QueryStore.Number

/-! Reading tokens. Between tokens stand ignored characters and comments; a token is a
punctuator, a name, a number, a string or a block string. Every step takes at least one
character off the text, which is why the reading ends. -/
namespace QueryStore

/-- Passes over ignored characters. Inside a comment nothing moves the position but the
line end that closes it, be it a carriage return or a line feed; outside, a carriage return
and a byte-order mark do not move it. -/
def skipIgnored (inComment : Bool) (place : Place) : List Char → Place × List Char
  | [] => (place, [])
  | char :: rest =>
    if inComment then
      if char = '\n' || char = '\r' then skipIgnored false (place.down char) rest
      else skipIgnored true (place.right 0 char) rest
    else if char = '\n' then skipIgnored false (place.down char) rest
    else if char = ' ' || char = ',' then skipIgnored false (place.right 1 char) rest
    else if char = '\t' then skipIgnored false (place.right 8 char) rest
    else if char = '\r' || char = '\uFEFF' then skipIgnored false (place.right 0 char) rest
    else if char = '#' then skipIgnored true (place.right 0 char) rest
    else (place, char :: rest)

theorem skipIgnored_length_le (inComment : Bool) (place : Place) (text : List Char) :
    (skipIgnored inComment place text).2.length ≤ text.length := by
  induction text generalizing inComment place with
  | nil => simp [skipIgnored]
  | cons char rest ih =>
    unfold skipIgnored
    repeat' split
    all_goals first
      | exact Nat.le_refl _
      | exact Nat.le_trans (ih _ _) (Nat.le_succ _)

/-- The punctuators of one character. -/
def isPunctuator (char : Char) : Bool := "()[]\x7b\x7d!$:=@|&".toList.contains char

/-- Names begin with an ASCII letter or an underscore. -/
def isNameStart (char : Char) : Bool := char = '_' || char.isAlpha

/-- Names go on with ASCII letters, digits and underscores. -/
def isNameChar (char : Char) : Bool := isNameStart char || char.isDigit

/-- A number runs on through letters, dots and quotes up to one of these. -/
def endsNumber (char : Char) : Bool := " \n\r\t,#!$:=@|&()[]\x7b\x7d".toList.contains char

/-- What remains of a string after its opening quote, through the first quote that no
backslash escapes, and the text after it. A line feed may not stand inside. -/
def closeString (escaped : Bool) : List Char → Option (List Char × List Char)
  | [] => none
  | char :: rest =>
    if char = '\n' then none
    else if char = '\x22' && !escaped then some ([char], rest)
    else (closeString (char = '\\' && !escaped) rest).map fun read => (char :: read.1, read.2)

/-- Three quotes, which open and close a block string. -/
def tripleQuote : List Char := ['\x22', '\x22', '\x22']

/-- What remains of a block string after its opening quotes, through the first three quotes
that no backslash stands right before, and the text after it. Three quotes that do not
close it are passed as a whole. -/
def closeBlock (previous : Char) : List Char → Option (List Char × List Char)
  | [] => none
  | '\x22' :: '\x22' :: '\x22' :: rest =>
    if previous = '\\' then
      (closeBlock '\x22' rest).map fun read => (tripleQuote ++ read.1, read.2)
    else some (tripleQuote, rest)
  | char :: rest => (closeBlock char rest).map fun read => (char :: read.1, read.2)

/-- The kind of a number. -/
def numberKind (text : List Char) : Except LexicalError TokenKind :=
  if text.any fun char => char = '.' || Number.isExponentMark char then
    if Number.isFloat text then .ok .floatValue else .error (.unsupportedFloat text)
  else if Number.isInteger text then .ok .intValue
  else .error (.unsupportedInteger text)

/-- A token without its place, and the text after it. -/
structure Lexeme where
  kind : TokenKind
  text : List Char
  rest : List Char

/-- The token that a text begins with. -/
def lexeme (first : Char) (rest : List Char) : Except LexicalError Lexeme :=
  if isPunctuator first then .ok ⟨.punctuator, [first], rest⟩
  else if first = '.' then
    match rest with
    | '.' :: '.' :: rest => .ok ⟨.punctuator, ['.', '.', '.'], rest⟩
    | _ => .error .bareDot
  else if isNameStart first then
    .ok ⟨.name, first :: rest.takeWhile isNameChar, rest.dropWhile isNameChar⟩
  else if first = '-' || first.isDigit then
    let text := first :: rest.takeWhile (!endsNumber ·)
    (numberKind text).map fun kind => ⟨kind, text, rest.dropWhile (!endsNumber ·)⟩
  else if first = '\x22' then
    match rest with
    | '\x22' :: '\x22' :: rest =>
      match closeBlock '\x22' rest with
      | none => .error .unterminatedBlockString
      | some read => .ok ⟨.blockString, tripleQuote ++ read.1, read.2⟩
    | rest =>
      match closeString false rest with
      | none => .error .unterminatedString
      | some read => .ok ⟨.stringValue, '\x22' :: read.1, read.2⟩
  else .error (.unexpectedCharacter first)

theorem closeString_split {escaped : Bool} {text : List Char} {read : List Char × List Char}
    (closed : closeString escaped text = some read) : text = read.1 ++ read.2 := by
  induction text generalizing escaped read with
  | nil => simp [closeString] at closed
  | cons char rest ih =>
    unfold closeString at closed
    split at closed
    · simp at closed
    · split at closed
      · cases closed; rfl
      · obtain ⟨inner, found, rfl⟩ := Option.map_eq_some_iff.1 closed
        simp [ih found]

theorem closeBlock_split {previous : Char} {text : List Char} {read : List Char × List Char}
    (closed : closeBlock previous text = some read) : text = read.1 ++ read.2 := by
  fun_induction closeBlock previous text generalizing read with
  | case1 => simp at closed
  | case2 rest ih =>
    obtain ⟨inner, found, rfl⟩ := Option.map_eq_some_iff.1 closed
    simp [tripleQuote, ih found]
  | case3 => cases closed; rfl
  | case4 _ char rest _ ih =>
    obtain ⟨inner, found, rfl⟩ := Option.map_eq_some_iff.1 closed
    simp [ih found]

/-- A lexeme is not empty, and what follows it is the rest of the text. -/
theorem lexeme_split {first : Char} {rest : List Char} {read : Lexeme}
    (found : lexeme first rest = .ok read) :
    ∃ more, read.text = first :: more ∧ rest = more ++ read.rest := by
  unfold lexeme at found
  split at found
  · cases found; exact ⟨[], rfl, rfl⟩
  split at found
  · split at found
    · rename_i dot _ _
      cases found
      exact ⟨['.', '.'], by rw [dot], rfl⟩
    · simp at found
  split at found
  · cases found; exact ⟨_, rfl, (List.takeWhile_append_dropWhile ..).symm⟩
  split at found
  · simp only [] at found
    cases kind : numberKind (first :: rest.takeWhile (!endsNumber ·)) with
    | error => simp [kind, Except.map] at found
    | ok kind' =>
      simp only [kind, Except.map, Except.ok.injEq] at found
      cases found
      exact ⟨_, rfl, (List.takeWhile_append_dropWhile ..).symm⟩
  split at found
  · next quote =>
    split at found
    · split at found
      · simp at found
      · next closed =>
        cases found
        exact ⟨_, by rw [quote]; rfl, by simp [closeBlock_split closed]⟩
    · split at found
      · simp at found
      · next closed =>
        cases found
        exact ⟨_, by rw [quote], closeString_split closed⟩
  · simp at found

theorem lexeme_rest_length_lt {first : Char} {rest : List Char} {read : Lexeme}
    (found : lexeme first rest = .ok read) : read.rest.length < (first :: rest).length := by
  obtain ⟨more, -, split⟩ := lexeme_split found
  simp only [split, List.length_cons, List.length_append]
  omega

/-- How many brackets may be open at once. -/
def nestingLimit : Nat := 50

/-- How many more brackets may be opened after a token: an opening one takes from the budget
and may find it empty, a closing one gives back. -/
def budgetAfter (budget : Nat) (text : List Char) : Option Nat :=
  match text with
  | ['('] | ['['] | ['\x7b'] => if budget = 0 then none else some (budget - 1)
  | [')'] | [']'] | ['\x7d'] => some (budget + 1)
  | _ => some budget

set_option linter.unusedVariables false in
/-- The tokens of a text that begins at a place. -/
def tokensFrom (budget : Nat) (place : Place) (text : List Char) : TokenStream :=
  match skipped : skipIgnored false place text with
  | (start, []) => ⟨[], .endOfInput, start.position⟩
  | (start, first :: rest) =>
    match found : lexeme first rest with
    | .error error => ⟨[], .failure error, start.position⟩
    | .ok read =>
      match budgetAfter budget read.text with
      | none => ⟨[], .failure .tooDeep, start.position⟩
      | some remaining =>
        (tokensFrom remaining (start.past read.text) read.rest).cons
          ⟨read.kind, String.ofList read.text, start⟩
termination_by text.length
decreasing_by
  have shorter := lexeme_rest_length_lt found
  have bound := skipIgnored_length_le false place text
  rw [skipped] at bound
  exact Nat.lt_of_lt_of_le shorter bound

/-- The tokens of a text. -/
def TokenStream.ofText (text : List Char) : TokenStream :=
  tokensFrom nestingLimit .origin text

end QueryStore
