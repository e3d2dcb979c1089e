import QueryStore.Fragment.Chunk

/-! Variables of fragments, an extension of the language that the grammar does not know: a
list in parentheses after the name of a fragment. The lists are found in the coarse cut of
the text, outside all braces and parentheses, and blanked out of it; blanking keeps every
line end and the number of characters, so that no position changes. -/
namespace QueryStore

/-- A list of variables: the fragment it stands after, the byte offset of the keyword that
begins this fragment, and its text, parentheses included. -/
structure VariableList where
  fragmentName : String
  keywordOffset : Nat
  text : List Char
deriving DecidableEq, Repr

/-- A part of a text: kept as it is, or excised as a list of variables. -/
inductive Piece
  | kept (text : List Char)
  | excised (list : VariableList)
deriving DecidableEq, Repr

namespace Piece

/-- A line end stays and everything else becomes a space. -/
def blank (char : Char) : Char := if Chunk.endsLine char then char else ' '

/-- A piece as it stands in the text. -/
def text : Piece → List Char
  | kept text => text
  | excised list => list.text

/-- A piece with a list of variables blanked out. -/
def blanked : Piece → List Char
  | kept text => text
  | excised list => list.text.map blank

/-- The list of variables that a piece is. -/
def list? : Piece → Option VariableList
  | kept _ => none
  | excised list => some list

end Piece

/-- The chunks through the parenthesis that closes the last open one, and those after it;
`inner` counts the parentheses opened since. -/
def closingParenthesis (inner : Nat) : List Chunk → Option (List Chunk × List Chunk)
  | [] => none
  | chunk :: rest =>
    if chunk = .mark ')' && inner = 0 then some ([chunk], rest)
    else
      let inner := if chunk = .mark '(' then inner + 1
        else if chunk = .mark ')' then inner - 1 else inner
      (closingParenthesis inner rest).map fun read => (chunk :: read.1, read.2)

theorem closingParenthesis_split {inner : Nat} {chunks : List Chunk}
    {read : List Chunk × List Chunk} (closed : closingParenthesis inner chunks = some read) :
    chunks = read.1 ++ read.2 := by
  induction chunks generalizing inner read with
  | nil => simp [closingParenthesis] at closed
  | cons chunk rest ih =>
    unfold closingParenthesis at closed
    split at closed
    · cases closed; rfl
    · obtain ⟨found, same, rfl⟩ := Option.map_eq_some_iff.1 closed
      simp [ih same]

theorem closingParenthesis_length_le {inner : Nat} {chunks : List Chunk}
    {read : List Chunk × List Chunk} (closed : closingParenthesis inner chunks = some read) :
    read.2.length ≤ chunks.length := by
  simp [closingParenthesis_split closed]

/-- The names since the last chunk of another kind, the latest first, each with its byte
offset. -/
abbrev RecentNames : Type := List (Nat × List Char)

/-- The keyword's offset and the name, if the latest names are the keyword of a fragment and
then a name. -/
def RecentNames.heading? : RecentNames → Option (Nat × List Char)
  | (_, name) :: (offset, word) :: _ =>
    if word = "fragment".toList then some (offset, name) else none
  | _ => none

/-- How deep in braces and parentheses a point of the text is; closing more than was opened
leaves the depth at zero. -/
structure Depth where
  braces : Nat
  parentheses : Nat
deriving DecidableEq, Repr

/-- The depth after a character. -/
def Depth.after (depth : Depth) (char : Char) : Depth :=
  if char = '\x7b' then { depth with braces := depth.braces + 1 }
  else if char = '\x7d' then { depth with braces := depth.braces - 1 }
  else if char = '(' then { depth with parentheses := depth.parentheses + 1 }
  else if char = ')' then { depth with parentheses := depth.parentheses - 1 }
  else depth

set_option linter.unusedVariables false in
/-- Cuts a text, given as chunks from an offset on, into pieces; the error is the name of a
fragment whose list of variables is not closed. -/
def piecesFrom (offset : Nat) (depth : Depth) (recent : RecentNames) (chunks : List Chunk) :
    Except String (List Piece) :=
  match chunks with
  | [] => .ok []
  | chunk :: rest =>
    let next := offset + Text.byteLength chunk.text
    match chunk with
    | .ignored _ | .comment _ => (piecesFrom next depth recent rest).map (.kept chunk.text :: ·)
    | .string _ | .dollar _ => (piecesFrom next depth [] rest).map (.kept chunk.text :: ·)
    | .name text => (piecesFrom next depth ((offset, text) :: recent) rest).map (.kept text :: ·)
    | .mark char =>
      match if char = '(' && depth = ⟨0, 0⟩ then recent.heading? else none with
      | none => (piecesFrom next (depth.after char) [] rest).map (.kept [char] :: ·)
      | some (keyword, name) =>
        match closed : closingParenthesis 0 rest with
        | none => .error (String.ofList name)
        | some (list, after) =>
          let text := '(' :: Chunk.textOf list
          (piecesFrom (offset + Text.byteLength text) depth [] after).map
            (.excised ⟨String.ofList name, keyword, text⟩ :: ·)
termination_by chunks.length
decreasing_by
  all_goals first
    | exact Nat.lt_succ_self _
    | exact Nat.lt_succ_of_le (closingParenthesis_length_le closed)

/-- The pieces of a text. -/
def pieces (text : List Char) : Except String (List Piece) :=
  piecesFrom 0 ⟨0, 0⟩ [] (Chunk.ofText text)

/-- The text in which all lists of variables are blanked out. -/
def blankedText (pieces : List Piece) : List Char := pieces.flatMap Piece.blanked

/-- The lists of variables, in order. -/
def variableLists (pieces : List Piece) : List VariableList := pieces.filterMap Piece.list?

end QueryStore
