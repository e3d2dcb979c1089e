import QueryStore.Text.Slice

/-! Tokens of the query language. A token knows its text and where it begins, both as a
position, which is how errors count, and as a byte offset. -/
namespace QueryStore

/-- A point of the text. The two counts are kept apart because a position passes over some
characters without moving, and over a tab by eight columns. -/
structure Place where
  position : Text.Position
  offset : Nat
deriving DecidableEq, Repr

namespace Place

/-- The beginning of a text. -/
def origin : Place := ⟨⟨1, 1⟩, 0⟩

/-- Moves over a character by the given number of columns. -/
def right (place : Place) (columns : Nat) (char : Char) : Place :=
  ⟨{ place.position with column := place.position.column + columns },
    place.offset + char.utf8Size⟩

/-- Moves over a character that ends a line. -/
def down (place : Place) (char : Char) : Place :=
  ⟨⟨place.position.line + 1, 1⟩, place.offset + char.utf8Size⟩

/-- Moves over a character of a token. -/
def next (place : Place) (char : Char) : Place :=
  if char = '\n' then place.down char else place.right 1 char

/-- Moves over the text of a token. -/
def past (place : Place) (text : List Char) : Place := text.foldl next place

end Place

/-- What a token is. -/
inductive TokenKind
  | punctuator
  | name
  | intValue
  | floatValue
  | stringValue
  | blockString
deriving DecidableEq, Repr

/-- The name of a kind in messages. -/
def TokenKind.label : TokenKind → String
  | punctuator => "Punctuator"
  | name => "Name"
  | intValue => "IntValue"
  | floatValue => "FloatValue"
  | stringValue => "StringValue"
  | blockString => "BlockString"

/-- A token with its text, quotes included, and the place where it begins. -/
structure Token where
  kind : TokenKind
  text : String
  place : Place
deriving DecidableEq, Repr

/-- What keeps the next token from being read. -/
inductive LexicalError
  | bareDot
  | unsupportedInteger (text : List Char)
  | unsupportedFloat (text : List Char)
  | unterminatedString
  | unterminatedBlockString
  | unexpectedCharacter (char : Char)
  | tooDeep
deriving DecidableEq, Repr

/-- How the reading of tokens ends. -/
inductive Ending
  | endOfInput
  | failure (error : LexicalError)
deriving DecidableEq, Repr

/-- The tokens of a text up to its end or to the first place where none can be read. -/
structure TokenStream where
  tokens : List Token
  ending : Ending
  stopped : Text.Position
deriving DecidableEq, Repr

/-- Puts a token in front of a stream. -/
def TokenStream.cons (token : Token) (stream : TokenStream) : TokenStream :=
  { stream with tokens := token :: stream.tokens }

end QueryStore
