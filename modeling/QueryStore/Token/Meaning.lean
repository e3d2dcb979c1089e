import QueryStore.Token.Basic
import QueryStore.Number
import QueryStore.Text.Words

/-! What the text of a value token stands for. A string has escapes; a block string is cut
by the indent that its lines share. -/
namespace QueryStore

/-- Why a value token has no meaning. -/
inductive ValueError
  | tooLarge
  | tooSmall
  | invalidFloat
  | badEscape (char : Char)
  | shortUnicodeEscape (found : List Char)
  | notCodePoint (digits : List Char)
deriving DecidableEq, Repr

/-- Integers are those of 64 bits. -/
def intValue (text : List Char) : Except ValueError Int :=
  let value := Number.integer text
  let bound : Int := Nat.pow 2 63
  if bound ≤ value then .error .tooLarge
  else if value < -bound then .error .tooSmall
  else .ok value

/-- The double that a float literal stands for. -/
def floatValue (text : List Char) : Except ValueError Number.Binary64 :=
  match Number.float? text with
  | none => .error .invalidFloat
  | some value => .ok value

/-- The value of a hexadecimal digit of either case. -/
def hexDigit? (char : Char) : Option Nat :=
  if char.isDigit then some (char.toNat - '0'.toNat)
  else if 'a' ≤ char && char ≤ 'f' then some (char.toNat - 'a'.toNat + 10)
  else if 'A' ≤ char && char ≤ 'F' then some (char.toNat - 'A'.toNat + 10)
  else none

/-- The number of hexadecimal digits, which a plus sign may precede. -/
def hexValue? (text : List Char) : Option Nat :=
  let digits := if text.head? = some '+' then text.tail else text
  digits.foldlM (fun value char => (hexDigit? char).map (value * 16 + ·)) 0

/-- The character that four hexadecimal digits name; surrogates name none. -/
def unicodeEscape (digits : List Char) : Except ValueError Char :=
  match hexValue? digits with
  | none => .error (.notCodePoint digits)
  | some value =>
    if 0xD800 ≤ value && value ≤ 0xDFFF then .error (.notCodePoint digits)
    else .ok (Char.ofNat value)

/-- The character that a letter after a backslash stands for. -/
def simpleEscape (char : Char) : Except ValueError Char :=
  if char = '\x22' || char = '\\' || char = '/' then .ok char
  else if char = 'b' then .ok '\x10'
  else if char = 'f' then .ok '\x0c'
  else if char = 'n' then .ok '\n'
  else if char = 'r' then .ok '\r'
  else if char = 't' then .ok '\t'
  else .error (.badEscape char)

/-- The text between the quotes of a string, its escapes resolved; the first faulty one
decides the error. -/
def unescape : List Char → Except ValueError (List Char)
  | [] => .ok []
  | '\\' :: 'u' :: a :: b :: c :: d :: rest => do
    let char ← unicodeEscape [a, b, c, d]
    return char :: (← unescape rest)
  | '\\' :: 'u' :: rest => .error (.shortUnicodeEscape rest)
  | '\\' :: char :: rest => do
    let char ← simpleEscape char
    return char :: (← unescape rest)
  | char :: rest => do return char :: (← unescape rest)

/-- A text without the given numbers of characters at its two ends. -/
def inside (first last : Nat) (text : List Char) : List Char :=
  (text.drop first).take (text.length - first - last)

/-- The value of a string token. -/
def stringValue (text : List Char) : Except ValueError String :=
  (unescape (inside 1 1 text)).map String.ofList

namespace BlockString

/-- The lines of a text: a carriage return before a line feed belongs to the line end, and
nothing after the last line feed is no line. -/
def lines : List Char → List (List Char)
  | [] => []
  | '\n' :: rest => [] :: lines rest
  | '\r' :: '\n' :: rest => [] :: lines rest
  | char :: rest =>
    match lines rest with
    | [] => [[char]]
    | line :: others => (char :: line) :: others

/-- A line of white space alone is blank. -/
def isBlankLine (line : List Char) : Bool := line.all Text.isBlank

/-- The bytes of white space that a line begins with. -/
def indent (line : List Char) : Nat := Text.byteLength (line.takeWhile Text.isBlank)

/-- The least indent of the lines that are not blank. -/
def commonIndent (lines : List (List Char)) : Option Nat :=
  ((lines.filter (!isBlankLine ·)).map indent).min?

/-- A line without the common indent; a shorter line stays whole. There is no result when
the indent ends inside a character. -/
def cut (common : Option Nat) (line : List Char) : Option (List Char) :=
  match common with
  | none => some line
  | some count => if count ≤ Text.byteLength line then Text.dropBytes count line else some line

/-- Lines through the last that is not blank. -/
def withoutBlankEnd (lines : List (List Char)) : List (List Char) :=
  (lines.reverse.dropWhile isBlankLine).reverse

/-- Three quotes after a backslash stand for three quotes. -/
def unescapeQuotes : List Char → List Char
  | [] => []
  | '\\' :: '\x22' :: '\x22' :: '\x22' :: rest =>
    '\x22' :: '\x22' :: '\x22' :: unescapeQuotes rest
  | char :: rest => char :: unescapeQuotes rest

/-- Writes lines one below the other. -/
def joinLines (lines : List (List Char)) : List Char := ['\n'].intercalate lines

/-- The text of a block string. The first line never counts for the indent, nor is it cut:
it stands right after the quotes. -/
def contents (text : List Char) : Option (List Char) :=
  match lines text with
  | [] => some []
  | first :: others =>
    let common := commonIndent others
    let (uncut, others) :=
      if isBlankLine first then ([], others.dropWhile isBlankLine) else ([first], others)
    ((withoutBlankEnd others).mapM (cut common)).map fun cut =>
      joinLines ((uncut ++ cut).map unescapeQuotes)

end BlockString

/-- The value of a block string token. -/
def blockStringValue (text : List Char) : Option String :=
  (BlockString.contents (inside 3 3 text)).map String.ofList

end QueryStore
