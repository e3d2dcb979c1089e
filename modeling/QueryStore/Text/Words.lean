/-! Cutting texts. White space is the Unicode property White_Space, given as a table of ranges.
Two texts that differ only in how their words
are separated are the same query: `words` cuts a text into its words, and `squeeze` writes them
again with one space between neighbours, in a single pass. `split` cuts at every occurrence of
one character. -/
namespace QueryStore.Text

/-- First and last code point of each run of the property White_Space. -/
def blankRanges : List (Nat × Nat) :=
  [(0x0009, 0x000D), (0x0020, 0x0020), (0x0085, 0x0085), (0x00A0, 0x00A0), (0x1680, 0x1680),
   (0x2000, 0x200A), (0x2028, 0x2029), (0x202F, 0x202F), (0x205F, 0x205F), (0x3000, 0x3000)]

/-- A code point is in a table when one of its ranges holds it. -/
def inRanges (ranges : List (Nat × Nat)) (point : Nat) : Bool :=
  ranges.any fun range => range.1 ≤ point && point ≤ range.2

/-- Blank characters are those with the property White_Space. -/
def isBlank (char : Char) : Bool := inRanges blankRanges char.toNat

/-- The table counts twenty-five characters. -/
example : (blankRanges.map fun range => range.2 + 1 - range.1).sum = 25 := by decide

/-- Removes the blank characters at both ends. -/
def trim (text : List Char) : List Char :=
  ((text.dropWhile isBlank).reverse.dropWhile isBlank).reverse

/-- Insignificant characters separate words: the comma, the byte-order mark and white space. -/
def isInsignificant (char : Char) : Bool :=
  char = ',' || char = '\uFEFF' || isBlank char

/-- The maximal non-empty runs of significant characters. -/
def words : List Char → List (List Char)
  | [] => []
  | char :: rest =>
    if isInsignificant char then words rest
    else match rest with
      | [] => [[char]]
      | next :: _ =>
        if isInsignificant next then [char] :: words rest
        else match words rest with
          | [] => [[char]]
          | word :: others => (char :: word) :: others

/-- Copies the significant characters; `gap` says that a separator was passed since the
last one, and is paid with a single space before the next. -/
def squeeze (gap : Bool) : List Char → List Char
  | [] => []
  | char :: rest =>
    if isInsignificant char then squeeze true rest
    else if gap then ' ' :: char :: squeeze false rest
    else char :: squeeze false rest

/-- The canonical form: no separator at either end, a single space in between. -/
def canonical (text : List Char) : List Char :=
  squeeze false (text.dropWhile isInsignificant)

/-- The canonical form of a text, under which documents are stored. -/
def normalize (text : String) : String := String.ofList (canonical text.toList)

/-- The pieces between the separators; there is always one more of them than separators. -/
def splitChars (separator : Char) : List Char → List (List Char)
  | [] => [[]]
  | char :: rest =>
    if char = separator then [] :: splitChars separator rest
    else match splitChars separator rest with
      | [] => [[char]]
      | piece :: others => (char :: piece) :: others

/-- The pieces of a text between the separators. -/
def split (separator : Char) (text : String) : List String :=
  (splitChars separator text.toList).map String.ofList

theorem splitChars_length (separator : Char) (text : List Char) :
    (splitChars separator text).length = text.count separator + 1 := by
  induction text with
  | nil => rfl
  | cons char rest ih =>
    unfold splitChars
    split
    · next same => simp [same, ih]
    · next other =>
      split
      · next none => simp [none] at ih
      · next piece others found => simp [found] at ih ⊢; simp [other, ih]

end QueryStore.Text
