/-! Byte offsets into the UTF-8 form of a text. A slice exists only between two
offsets that fall on character boundaries, the first not after the second. Lines and columns
count from one, columns in characters; `Position.offset` turns a position back into a byte
offset, and what lies past the end of a line or of the text is moved to that end. -/
namespace QueryStore.Text

/-- The length of a text in UTF-8. -/
def byteLength : List Char → Nat
  | [] => 0
  | char :: rest => char.utf8Size + byteLength rest

/-- What follows the first `count` bytes, unless they end inside a character or past the end. -/
def dropBytes (count : Nat) : List Char → Option (List Char)
  | [] => if count = 0 then some [] else none
  | char :: rest =>
    if count = 0 then some (char :: rest)
    else if count < char.utf8Size then none
    else dropBytes (count - char.utf8Size) rest

/-- The first `count` bytes, unless they end inside a character or past the end. -/
def takeBytes (count : Nat) : List Char → Option (List Char)
  | [] => if count = 0 then some [] else none
  | char :: rest =>
    if count = 0 then some []
    else if count < char.utf8Size then none
    else (takeBytes (count - char.utf8Size) rest).map (char :: ·)

/-- The text between two byte offsets. -/
def slice (text : List Char) (start stop : Nat) : Option (List Char) :=
  if start ≤ stop then (dropBytes start text).bind (takeBytes (stop - start)) else none

@[simp] theorem byteLength_append (left right : List Char) :
    byteLength (left ++ right) = byteLength left + byteLength right := by
  induction left with
  | nil => simp [byteLength]
  | cons char rest ih => simp [byteLength, ih, Nat.add_assoc]

/-- Only the empty text has no bytes. -/
@[simp] theorem byteLength_eq_zero {text : List Char} : byteLength text = 0 ↔ text = [] := by
  cases text with
  | nil => simp [byteLength]
  | cons char rest => simp [byteLength, Nat.ne_of_gt char.utf8Size_pos]

theorem byteLength_pos {text : List Char} (filled : text ≠ []) : 0 < byteLength text :=
  Nat.pos_of_ne_zero fun none => filled (byteLength_eq_zero.mp none)

/-- The length of a text is the size of its UTF-8 form. -/
theorem byteLength_eq_utf8ByteSize (text : List Char) :
    byteLength text = (String.ofList text).utf8ByteSize := by
  induction text with
  | nil => simp [byteLength]
  | cons char rest ih =>
    have parts : String.ofList (char :: rest) = String.singleton char ++ String.ofList rest := by
      rw [String.singleton_eq_ofList, ← String.ofList_append]
      rfl
    rw [byteLength, ih, parts, String.utf8ByteSize_append, String.utf8ByteSize_singleton]

/-- Dropping as many bytes as a beginning has leaves the rest. -/
theorem dropBytes_append (left right : List Char) :
    dropBytes (byteLength left) (left ++ right) = some right := by
  induction left with
  | nil => cases right <;> simp [byteLength, dropBytes]
  | cons char rest ih =>
    have size := char.utf8Size_pos
    simp only [byteLength, List.cons_append, dropBytes]
    rw [if_neg (by omega), if_neg (by omega), Nat.add_sub_cancel_left]
    exact ih

/-- Taking as many bytes as a beginning has gives that beginning. -/
theorem takeBytes_append (left right : List Char) :
    takeBytes (byteLength left) (left ++ right) = some left := by
  induction left with
  | nil => cases right <;> simp [byteLength, takeBytes]
  | cons char rest ih =>
    have size := char.utf8Size_pos
    simp only [byteLength, List.cons_append, takeBytes]
    rw [if_neg (by omega), if_neg (by omega), Nat.add_sub_cancel_left, ih]
    rfl

/-- The slice that starts after a beginning and is as long as a middle is that middle. -/
theorem slice_append (before middle after : List Char) :
    slice (before ++ middle ++ after) (byteLength before)
      (byteLength before + byteLength middle) = some middle := by
  simp [slice, dropBytes_append, takeBytes_append]

/-- A line and a column. -/
structure Position where
  line : Nat
  column : Nat
deriving DecidableEq, Repr

/-- The bytes of the first `count` characters of the line a text begins with. -/
def columnOffset (count : Nat) : List Char → Nat
  | [] => 0
  | char :: rest =>
    match count with
    | 0 => 0
    | less + 1 => if char = '\n' then 0 else char.utf8Size + columnOffset less rest

/-- The byte offset reached by passing `lines` line ends and then `columns` characters. -/
def lineOffset (lines columns : Nat) : List Char → Nat
  | [] => 0
  | char :: rest =>
    match lines with
    | 0 => columnOffset columns (char :: rest)
    | less + 1 =>
      char.utf8Size + lineOffset (if char = '\n' then less else less + 1) columns rest

/-- The byte offset of a position; line zero and column zero stand for the first. -/
def Position.offset (position : Position) (text : List Char) : Nat :=
  lineOffset (position.line - 1) (position.column - 1) text

end QueryStore.Text
