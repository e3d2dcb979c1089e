import QueryStore.Fragment.Variables
import QueryStore.SyntaxError
import QueryStore.Text.Utf8

/-! The search for lists of variables, made in the bytes of a text. Every loop moves an index on,
until it is at the end or at what was looked for; an escape in a string moves it by two bytes,
whatever stands there. Nothing but what is called a fault here could break the search off. -/
namespace QueryStore.Scanner
open Text

/-- What would break a search off: an index or a slice outside of the text, or one that cuts a
character, a count that falls below zero, and a loop without end. -/
inductive Fault
  | index
  | slice
  | count
  | endless
deriving DecidableEq, Repr

/-- What a turn of a loop comes to. -/
inductive Turn (σ α : Type)
  | again (state : σ)
  | done (result : α)

/-- Takes a number of turns at most; a loop that is not through with them is endless. -/
def loop {σ α : Type} (turn : σ → Except Fault (Turn σ α)) : Nat → σ → Except Fault α
  | 0, _ => .error .endless
  | turns + 1, state =>
    match turn state with
    | .error fault => .error fault
    | .ok (.done result) => .ok result
    | .ok (.again next) => loop turn turns next

/-- A loop over bytes gets a turn for each of them, and one to find that it is through. -/
def loopOver {σ α : Type} (bytes : List UInt8) (turn : σ → Except Fault (Turn σ α)) (start : σ) :
    Except Fault α :=
  loop turn (bytes.length + 1) start

/-- The byte at an index. -/
def byteAt (bytes : List UInt8) (index : Nat) : Except Fault UInt8 :=
  match bytes[index]? with
  | some byte => .ok byte
  | none => .error .index

/-- Whether bytes go on with a text from an index on. -/
def startsAt (bytes : List UInt8) (index : Nat) (word : List Char) : Except Fault Bool :=
  if index ≤ bytes.length then .ok ((encodeUtf8 word).isPrefixOf (bytes.drop index))
  else .error .slice

/-- The text between two indices. -/
def cut (text : List Char) (start stop : Nat) : Except Fault (List Char) :=
  match slice text start stop with
  | some part => .ok part
  | none => .error .slice

/-- A byte that names begin with. -/
def isNameStartByte (byte : UInt8) : Bool :=
  byte = '_'.toUInt8 || ('A'.toUInt8 ≤ byte && byte ≤ 'Z'.toUInt8)
    || ('a'.toUInt8 ≤ byte && byte ≤ 'z'.toUInt8)

/-- A byte that names go on with. -/
def isNameByte (byte : UInt8) : Bool :=
  isNameStartByte byte || ('0'.toUInt8 ≤ byte && byte ≤ '9'.toUInt8)

/-- A byte that ends a line. -/
def endsLineByte (byte : UInt8) : Bool := byte = '\n'.toUInt8 || byte = '\r'.toUInt8

/-- A byte that may stand between a name and what belongs to it. -/
def isIgnoredByte (byte : UInt8) : Bool :=
  byte = ' '.toUInt8 || byte = '\t'.toUInt8 || endsLineByte byte || byte = ','.toUInt8

/-- Passes a byte, if there is one that passes a test. -/
def whileTurn (test : UInt8 → Bool) (bytes : List UInt8) (index : Nat) :
    Except Fault (Turn Nat Nat) :=
  .ok (if bytes[index]?.any test then .again (index + 1) else .done index)

/-- Goes on while bytes pass a test. -/
def skipWhile (test : UInt8 → Bool) (bytes : List UInt8) (start : Nat) : Except Fault Nat :=
  loopOver bytes (whileTurn test bytes) start

/-- Goes to the end of a name. -/
def skipName : List UInt8 → Nat → Except Fault Nat := skipWhile isNameByte

/-- Goes to the end of a line. -/
def skipComment : List UInt8 → Nat → Except Fault Nat := skipWhile (!endsLineByte ·)

/-- The mark of the byte order. -/
def byteOrderMark : List Char := ['\uFEFF']

/-- Passes one thing that may stand between a name and what belongs to it. -/
def ignoredTurn (bytes : List UInt8) (index : Nat) : Except Fault (Turn Nat Nat) :=
  match bytes[index]? with
  | none => .ok (.done index)
  | some byte =>
    if isIgnoredByte byte then .ok (.again (index + 1))
    else if byte = '#'.toUInt8 then (skipComment bytes index).map .again
    else (startsAt bytes index byteOrderMark).map fun marked =>
      if marked then .again (index + (encodeUtf8 byteOrderMark).length) else .done index

/-- Goes to what a name may belong to. -/
def skipIgnored (bytes : List UInt8) (start : Nat) : Except Fault Nat :=
  loopOver bytes (ignoredTurn bytes) start

/-- Passes something inside of a block string, or its end. -/
def blockTurn (bytes : List UInt8) (index : Nat) : Except Fault (Turn Nat Nat) :=
  if index < bytes.length then do
    if ← startsAt bytes index ('\\' :: tripleQuote) then return .again (index + 4)
    else if ← startsAt bytes index tripleQuote then return .done (index + 3)
    else return .again (index + 1)
  else .ok (.done bytes.length)

/-- Passes something inside of a string, or its end. -/
def stringTurn (bytes : List UInt8) (index : Nat) : Except Fault (Turn Nat Nat) :=
  if index < bytes.length then do
    let byte ← byteAt bytes index
    if byte = '\\'.toUInt8 then return .again (index + 2)
    else if byte = '\x22'.toUInt8 then return .done (index + 1)
    else if endsLineByte byte then return .done index
    else return .again (index + 1)
  else .ok (.done bytes.length)

/-- Goes from the quote that opens a string behind the string. -/
def skipString (bytes : List UInt8) (start : Nat) : Except Fault Nat := do
  if ← startsAt bytes start tripleQuote then loopOver bytes (blockTurn bytes) (start + 3)
  else loopOver bytes (stringTurn bytes) (start + 1)

/-- Where the search for a closing parenthesis is: how many are open, and at which index. -/
structure Inside where
  opened : Nat
  index : Nat

/-- Passes something between parentheses, or the one that closes all. -/
def closingTurn (bytes : List UInt8) (state : Inside) : Except Fault (Turn Inside (Option Nat)) :=
  if state.index < bytes.length then do
    let byte ← byteAt bytes state.index
    if byte = '\x22'.toUInt8 then return .again ⟨state.opened, ← skipString bytes state.index⟩
    else if byte = '#'.toUInt8 then return .again ⟨state.opened, ← skipComment bytes state.index⟩
    else if byte = '('.toUInt8 then return .again ⟨state.opened + 1, state.index + 1⟩
    else if byte = ')'.toUInt8 then
      match state.opened with
      | 0 => throw .count
      | 1 => return .done (some state.index)
      | opened + 1 => return .again ⟨opened, state.index + 1⟩
    else return .again ⟨state.opened, state.index + 1⟩
  else .ok (.done none)

/-- The index of the parenthesis that closes the one at an index. -/
def findClosing (bytes : List UInt8) (start : Nat) : Except Fault (Option Nat) :=
  loopOver bytes (closingTurn bytes) ⟨0, start⟩

/-- A list of variables that was found: the fragment it stands after, where the keyword of the
fragment begins, and where the list begins and ends. -/
structure Region where
  fragmentName : String
  keywordOffset : Nat
  start : Nat
  stop : Nat
deriving DecidableEq, Repr

/-- Looks for a name and a list of variables after the keyword of a fragment. -/
def findRegion (text : List Char) (keyword keywordEnd : Nat) :
    Except Fault (Except SyntaxError (Option Region)) := do
  let bytes := encodeUtf8 text
  let nameStart ← skipIgnored bytes keywordEnd
  if bytes[nameStart]?.any isNameStartByte then
    let nameEnd ← skipName bytes nameStart
    let name := String.ofList (← cut text nameStart nameEnd)
    let start ← skipIgnored bytes nameEnd
    if bytes[start]? = some '('.toUInt8 then
      match ← findClosing bytes start with
      | none => return .error (.unterminatedVariables name)
      | some closing => return .ok (some ⟨name, keyword, start, closing + 1⟩)
    else return .ok none
  else return .ok none

/-- Where the search for lists is: at which index, how deep in braces and parentheses, and which
lists it has found. -/
structure Search where
  index : Nat
  depth : Depth
  regions : List Region

/-- Passes a name, or with the keyword of a fragment outside of everything what belongs to it up to
the end of a list of variables. -/
def nameTurn (text : List Char) (state : Search) :
    Except Fault (Turn Search (Except SyntaxError (List Region))) := do
  let stop ← skipName (encodeUtf8 text) state.index
  if state.depth = ⟨0, 0⟩ then
    if (← cut text state.index stop) = "fragment".toList then
      match ← findRegion text state.index stop with
      | .error error => return .done (.error error)
      | .ok none => return .again { state with index := stop }
      | .ok (some region) => return .again ⟨region.stop, state.depth, state.regions ++ [region]⟩
    else return .again { state with index := stop }
  else return .again { state with index := stop }

/-- Passes something outside of lists of variables, or a list after the keyword and the name of a
fragment. -/
def searchTurn (text : List Char) (state : Search) :
    Except Fault (Turn Search (Except SyntaxError (List Region))) :=
  let bytes := encodeUtf8 text
  let on (index : Nat) (depth : Depth) : Turn Search (Except SyntaxError (List Region)) :=
    .again { state with index, depth }
  let depth := state.depth
  if state.index < bytes.length then do
    let byte ← byteAt bytes state.index
    if byte = '#'.toUInt8 then return on (← skipComment bytes state.index) depth
    else if byte = '\x22'.toUInt8 then return on (← skipString bytes state.index) depth
    else if byte = '\x7b'.toUInt8 then
      return on (state.index + 1) { depth with braces := depth.braces + 1 }
    else if byte = '\x7d'.toUInt8 then
      return on (state.index + 1) { depth with braces := depth.braces - 1 }
    else if byte = '('.toUInt8 then
      return on (state.index + 1) { depth with parentheses := depth.parentheses + 1 }
    else if byte = ')'.toUInt8 then
      return on (state.index + 1) { depth with parentheses := depth.parentheses - 1 }
    else if byte = '$'.toUInt8 then return on (← skipName bytes (state.index + 1)) depth
    else if isNameStartByte byte then nameTurn text state
    else return on (state.index + 1) depth
  else .ok (.done (.ok state.regions))

/-- The text from an index on, in which regions are blank. -/
def stitch (text : List Char) : Nat → List Region → Except Fault (List Char)
  | copied, [] => cut text copied (byteLength text)
  | copied, region :: regions => do
    let kept ← cut text copied region.start
    let list ← cut text region.start region.stop
    return kept ++ list.map Piece.blank ++ (← stitch text region.stop regions)

/-- What a search comes to: the text without its lists of variables, and where these are. -/
structure Extraction where
  blanked : List Char
  regions : List Region
deriving DecidableEq, Repr

/-- A search begins at the first byte, outside of everything. -/
def Search.start : Search := ⟨0, ⟨0, 0⟩, []⟩

/-- Finds the lists of variables of a text and blanks them out. -/
def extract (text : List Char) : Except Fault (Except SyntaxError Extraction) := do
  match ← loopOver (encodeUtf8 text) (searchTurn text) .start with
  | .error error => return .error error
  | .ok regions => return .ok ⟨← stitch text 0 regions, regions⟩

end QueryStore.Scanner
