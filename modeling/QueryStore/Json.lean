import QueryStore.Number
import QueryStore.Text.Quoted

/-! JSON trees and their text. Members stand in the order in which they are written, and a number
is either an integer or a double; a double that is not finite is written as null. The text is on
many lines, two spaces deeper with every level; empty arrays and objects stay on one line. -/
namespace QueryStore

/-- A JSON tree. -/
inductive Json
  | null
  | boolean (value : Bool)
  | integer (value : Int)
  | float (value : Number.Binary64)
  | string (value : String)
  | array (items : List Json)
  | object (members : List (String × Json))

namespace Json

/-- The member of a name whose value may be absent, and is then left out. -/
def optional (name : String) : Option Json → List (String × Json)
  | none => []
  | some value => [(name, value)]

end Json

/-- Where decimals are positional: from the first through the second exponent of the leading
digit. Such a decimal has at least one place; outside, the exponent carries its sign. -/
structure DecimalLayout where
  least : Int
  greatest : Int

/-- Doubles in JSON are positional from 0.00001 to below ten quadrillion. -/
def Json.decimals : DecimalLayout := ⟨-5, 15⟩

/-- Digits, each below ten, as text. -/
def digitText (digits : List Nat) : String := String.join (digits.map toString)

/-- Zeros of the given number. -/
def zeros (count : Nat) : List Nat := List.replicate count 0

/-- A positive decimal in a layout. -/
def DecimalLayout.write (layout : DecimalLayout) (decimal : Number.Decimal) : String :=
  if layout.least ≤ decimal.exponent && decimal.exponent ≤ layout.greatest then
    let padded := zeros (-decimal.exponent).toNat ++ decimal.digits
    let wholeCount := decimal.exponent.toNat + 1
    let whole := padded.take wholeCount ++ zeros (wholeCount - padded.length)
    let places := padded.drop wholeCount
    digitText whole ++ "." ++ digitText (if places.isEmpty then [0] else places)
  else
    let sign := if decimal.exponent < 0 then "-" else "+"
    let places := decimal.digits.drop 1
    digitText (decimal.digits.take 1) ++ (if places.isEmpty then "" else ".") ++ digitText places
      ++ "e" ++ sign ++ toString decimal.exponent.natAbs

/-- A double as JSON: what is not finite has no JSON number and is null. -/
def Number.Binary64.toJsonText (x : Number.Binary64) : String :=
  let sign := if x.negative then "-" else ""
  if !x.isFinite then "null"
  else if x.isZero then sign ++ "0.0"
  else sign ++ Json.decimals.write x.shortest

namespace Json

/-- A character inside a JSON string: quote, backslash and control characters are escaped. -/
def escapeChar (char : Char) : List Char :=
  if char = '\x22' || char = '\\' then ['\\', char]
  else if char = '\x08' then ['\\', 'b']
  else if char = '\x0c' then ['\\', 'f']
  else if char = '\n' then ['\\', 'n']
  else if char = '\r' then ['\\', 'r']
  else if char = '\t' then ['\\', 't']
  else if char.toNat < 0x20 then
    ['\\', 'u', '0', '0', Text.hexDigit (char.toNat / 16), Text.hexDigit (char.toNat % 16)]
  else [char]

/-- A text as a JSON string. -/
def quote (text : String) : String :=
  String.ofList ('\x22' :: text.toList.flatMap escapeChar ++ ['\x22'])

/-- The beginning of a line at some depth. -/
def newLine (depth : Nat) : String := String.ofList ('\n' :: List.replicate (2 * depth) ' ')

mutual
/-- Writes a tree whose first line begins at the given depth. -/
def prettyAt (depth : Nat) : Json → String
  | null => "null"
  | boolean value => if value then "true" else "false"
  | integer value => toString value
  | float value => value.toJsonText
  | string value => quote value
  | array [] => "[]"
  | array (item :: rest) =>
    "[" ++ newLine (depth + 1) ++ prettyAt (depth + 1) item ++ prettyItems (depth + 1) rest
      ++ newLine depth ++ "]"
  | object [] => "\x7b\x7d"
  | object ((name, value) :: rest) =>
    "\x7b" ++ newLine (depth + 1) ++ quote name ++ ": " ++ prettyAt (depth + 1) value
      ++ prettyMembers (depth + 1) rest ++ newLine depth ++ "\x7d"

/-- The items after the first, each on a line of its own after a comma. -/
def prettyItems (depth : Nat) : List Json → String
  | [] => ""
  | item :: rest => "," ++ newLine depth ++ prettyAt depth item ++ prettyItems depth rest

/-- The members after the first, each on a line of its own after a comma. -/
def prettyMembers (depth : Nat) : List (String × Json) → String
  | [] => ""
  | (name, value) :: rest =>
    "," ++ newLine depth ++ quote name ++ ": " ++ prettyAt depth value ++ prettyMembers depth rest
end

/-- A tree as text on many lines. -/
def pretty (tree : Json) : String := prettyAt 0 tree

end Json
end QueryStore
