import QueryStore.Token.Scan

/-! A coarse cut of any text into chunks, whether it is a query or not: comments, strings,
names, variables, and single characters. Nothing is refused and nothing is lost, so the
chunks put together are the text. -/
namespace QueryStore

/-- A chunk of text; `dollar` is a dollar sign and the name after it. -/
inductive Chunk
  | ignored (char : Char)
  | comment (text : List Char)
  | string (text : List Char)
  | name (text : List Char)
  | dollar (text : List Char)
  | mark (char : Char)
deriving DecidableEq, Repr

namespace Chunk

/-- The part of the text that a chunk is. -/
def text : Chunk → List Char
  | ignored char => [char]
  | comment text => text
  | string text => text
  | name text => text
  | dollar text => text
  | mark char => [char]

/-- Characters that may stand between a name and what belongs to it. -/
def isIgnored (char : Char) : Bool :=
  char = ' ' || char = '\t' || char = '\n' || char = '\r' || char = ',' || char = '\uFEFF'

/-- A carriage return ends a line as well as a line feed. -/
def endsLine (char : Char) : Bool := char = '\n' || char = '\r'

/-- The rest of a string after its opening quote and the text after it. A string that is not
closed ends before the line end, or with the text; a backslash takes the next character
with it, even a line end. -/
def stringRest : List Char → List Char × List Char
  | [] => ([], [])
  | '\\' :: char :: rest => let read := stringRest rest; ('\\' :: char :: read.1, read.2)
  | char :: rest =>
    if char = '\x22' then (['\x22'], rest)
    else if endsLine char then ([], char :: rest)
    else let read := stringRest rest; (char :: read.1, read.2)

/-- The rest of a block string after its opening quotes and the text after it; three quotes
after a backslash do not close it, and one that is not closed ends with the text. -/
def blockRest : List Char → List Char × List Char
  | [] => ([], [])
  | '\\' :: '\x22' :: '\x22' :: '\x22' :: rest =>
    let read := blockRest rest; ('\\' :: tripleQuote ++ read.1, read.2)
  | '\x22' :: '\x22' :: '\x22' :: rest => (tripleQuote, rest)
  | char :: rest => let read := blockRest rest; (char :: read.1, read.2)

/-- The chunk that a text begins with, and the text after it. -/
def first (char : Char) (rest : List Char) : Chunk × List Char :=
  if char = '#' then
    (.comment ('#' :: rest.takeWhile (!endsLine ·)), rest.dropWhile (!endsLine ·))
  else if char = '\x22' then
    match rest with
    | '\x22' :: '\x22' :: rest =>
      let read := blockRest rest; (.string (tripleQuote ++ read.1), read.2)
    | rest => let read := stringRest rest; (.string ('\x22' :: read.1), read.2)
  else if char = '$' then
    (.dollar ('$' :: rest.takeWhile isNameChar), rest.dropWhile isNameChar)
  else if isNameStart char then
    (.name (char :: rest.takeWhile isNameChar), rest.dropWhile isNameChar)
  else if isIgnored char then (.ignored char, rest)
  else (.mark char, rest)

theorem stringRest_split (text : List Char) :
    (stringRest text).1 ++ (stringRest text).2 = text := by
  fun_induction stringRest text <;> simp_all +zetaDelta

theorem blockRest_split (text : List Char) :
    (blockRest text).1 ++ (blockRest text).2 = text := by
  fun_induction blockRest text <;> simp_all +zetaDelta [tripleQuote]

/-- The first chunk and the text after it make up the text. -/
theorem first_split (char : Char) (rest : List Char) :
    (first char rest).1.text ++ (first char rest).2 = char :: rest := by
  unfold first
  repeat' split
  all_goals simp_all [text, stringRest_split, blockRest_split, tripleQuote]

theorem first_text_ne_nil (char : Char) (rest : List Char) :
    (first char rest).1.text ≠ [] := by
  unfold first
  repeat' split
  all_goals simp [text, tripleQuote]

theorem first_length_lt (char : Char) (rest : List Char) :
    (first char rest).2.length < (char :: rest).length := by
  have split := congrArg List.length (first_split char rest)
  have filled := List.length_pos_iff.2 (first_text_ne_nil char rest)
  rw [List.length_append] at split
  omega

/-- The chunks of a text. -/
def ofText : List Char → List Chunk
  | [] => []
  | char :: rest => (first char rest).1 :: ofText (first char rest).2
termination_by text => text.length
decreasing_by exact first_length_lt char rest

/-- The text that chunks make up. -/
def textOf (chunks : List Chunk) : List Char := chunks.flatMap text

theorem textOf_ofText (text : List Char) : textOf (ofText text) = text := by
  fun_induction ofText text with
  | case1 => rfl
  | case2 char rest ih =>
    simp only [textOf, List.flatMap_cons] at ih ⊢
    rw [ih, first_split]

end Chunk
end QueryStore
