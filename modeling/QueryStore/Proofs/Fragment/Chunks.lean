import QueryStore.Fragment.Variables
import QueryStore.Proofs.Token.Brackets

/-! The coarse cut of a text beside the reading of its tokens. Of every token the chunks are
known: a name is one chunk, and so is a punctuator of one character, except that a dollar sign
takes the name after it along; the other tokens are chunks without brackets. Strings agree
unless a carriage return stands in them (`string_chunk`): the cut ends a string there, and the
reading of tokens does not. -/
namespace QueryStore
open Text

namespace Chunk

/-- Chunks that may stand between a name and what belongs to it. -/
def isGap : Chunk → Bool
  | ignored _ | comment _ => true
  | string _ | name _ | dollar _ | mark _ => false

/-- The bracket that a chunk is, if it is one. -/
def brackets : Chunk → List Char
  | mark char => [char].filter isBracket
  | ignored _ | comment _ | string _ | name _ | dollar _ => []

/-- The brackets among chunks, in order. -/
def bracketsOf (chunks : List Chunk) : List Char := chunks.flatMap brackets

@[simp] theorem bracketsOf_nil : bracketsOf [] = [] := rfl

@[simp] theorem bracketsOf_cons (chunk : Chunk) (chunks : List Chunk) :
    bracketsOf (chunk :: chunks) = chunk.brackets ++ bracketsOf chunks := rfl

@[simp] theorem bracketsOf_append (left right : List Chunk) :
    bracketsOf (left ++ right) = bracketsOf left ++ bracketsOf right :=
  List.flatMap_append

@[simp] theorem textOf_nil : textOf [] = [] := rfl

@[simp] theorem textOf_cons (chunk : Chunk) (chunks : List Chunk) :
    textOf (chunk :: chunks) = chunk.text ++ textOf chunks := rfl

@[simp] theorem textOf_append (left right : List Chunk) :
    textOf (left ++ right) = textOf left ++ textOf right :=
  List.flatMap_append

/-- Characters that are a chunk of their own. -/
def isMark (char : Char) : Bool :=
  !(char = '#' || char = '\x22' || char = '$' || isNameStart char || isIgnored char)

section
variable {char : Char} {rest : List Char}

theorem ofText_cons {chunk : Chunk} {tail : List Char} (cut : first char rest = (chunk, tail)) :
    ofText (char :: rest) = chunk :: ofText tail := by
  rw [ofText, cut]

@[simp] theorem ofText_nil : ofText [] = [] := by
  rw [ofText]

theorem ofText_mark (mark : isMark char = true) : ofText (char :: rest) = .mark char :: ofText rest := by
  simp only [isMark, Bool.not_eq_true', Bool.or_eq_false_iff, decide_eq_false_iff_not] at mark
  obtain ⟨⟨⟨⟨comment, quote⟩, dollar⟩, letter⟩, blank⟩ := mark
  exact ofText_cons (by simp [first, comment, quote, dollar, letter, blank])

theorem ofText_dollar : ofText ('$' :: rest) =
    .dollar ('$' :: rest.takeWhile isNameChar) :: ofText (rest.dropWhile isNameChar) :=
  ofText_cons (by simp [first])

theorem ofText_name (letter : isNameStart char = true) : ofText (char :: rest) =
    .name (char :: rest.takeWhile isNameChar) :: ofText (rest.dropWhile isNameChar) := by
  refine ofText_cons ?_
  unfold first
  split
  · next comment => subst comment; exact absurd letter (by decide)
  split
  · next quote => subst quote; exact absurd letter (by decide)
  split
  · next dollar => subst dollar; exact absurd letter (by decide)
  · rfl

theorem ofText_ignored (blank : isIgnored char = true) :
    ofText (char :: rest) = .ignored char :: ofText rest := by
  refine ofText_cons ?_
  simp only [isIgnored, Bool.or_eq_true, decide_eq_true_eq] at blank
  obtain ((((rfl | rfl) | rfl) | rfl) | rfl) | rfl := blank <;> rfl

theorem ofText_comment : ofText ('#' :: rest) =
    .comment ('#' :: rest.takeWhile (!endsLine ·)) :: ofText (rest.dropWhile (!endsLine ·)) :=
  ofText_cons (by simp [first])

end

/-- What stands before a token is cut into gaps; a text that begins in a comment is cut from the
end of that comment on. -/
private theorem skip_chunks {inComment : Bool} {place start : Place} {text rest : List Char}
    (skipped : skipIgnored inComment place text = (start, rest)) :
    ∃ gap : List Chunk, gap.all isGap = true ∧
      ofText (if inComment then text.dropWhile (!endsLine ·) else text) = gap ++ ofText rest := by
  induction text generalizing inComment place with
  | nil =>
    cases skipped
    exact ⟨[], rfl, by cases inComment <;> rfl⟩
  | cons char text ih =>
    rcases passes_or_stops place inComment char with ⟨inside, next, passes⟩ | ⟨rfl, -, stops⟩
    · rw [passes.skip] at skipped
      obtain ⟨gap, gaps, later⟩ := ih skipped
      -- A character outside of comments is a chunk; a number sign takes the comment with it.
      have blank : isIgnored char = true → inside = false →
          (if inComment then (char :: text).dropWhile (!endsLine ·) else char :: text) = char :: text →
          ∃ gap : List Chunk, gap.all isGap = true ∧ ofText
            (if inComment then (char :: text).dropWhile (!endsLine ·) else char :: text) =
              gap ++ ofText rest := by
        rintro ignored rfl same
        simp only [Bool.false_eq_true, ↓reduceIte] at later
        refine ⟨.ignored char :: gap, by rw [List.all_cons, gaps]; rfl, ?_⟩
        rw [same, ofText_ignored ignored, later]
        rfl
      cases passes with
      | feed => exact blank (by decide) rfl (by cases inComment <;> rfl)
      | closing => exact blank (by decide) rfl rfl
      | remark other =>
        refine ⟨gap, gaps, ?_⟩
        have inner : endsLine char = false := by simpa [endsLine] using other
        simpa [inner] using later
      | space plain => exact blank (by rcases plain with rfl | rfl <;> decide) rfl rfl
      | tab => exact blank (by decide) rfl rfl
      | unseen silent => exact blank (by rcases silent with rfl | rfl <;> decide) rfl rfl
      | comment =>
        simp only [↓reduceIte] at later
        refine ⟨.comment ('#' :: text.takeWhile (!endsLine ·)) :: gap,
          by rw [List.all_cons, gaps]; rfl, ?_⟩
        rw [if_neg Bool.false_ne_true, ofText_comment, later]
        rfl
    · rw [stops] at skipped
      cases skipped
      exact ⟨[], rfl, rfl⟩

/-- What stands before a token is cut into gaps. -/
theorem gap_chunks {place start : Place} {text rest : List Char}
    (skipped : skipIgnored false place text = (start, rest)) :
    ∃ gap : List Chunk, gap.all isGap = true ∧ ofText text = gap ++ ofText rest :=
  skip_chunks skipped

/-- The rest of a string is the same for the cut and for the reading of tokens, if no carriage
return stands in it. -/
private theorem stringRest_closeString {escaped : Bool} {text : List Char}
    {read : List Char × List Char} (closed : closeString escaped text = some read)
    (calm : '\r' ∉ read.1) :
    if escaped then stringRest ('\\' :: text) = ('\\' :: read.1, read.2)
    else stringRest text = read := by
  induction text generalizing escaped read with
  | nil => simp [closeString] at closed
  | cons char rest ih =>
    unfold closeString at closed
    split at closed
    · cases closed
    next feed =>
    cases escaped with
    | true =>
      simp only [Bool.not_true, Bool.and_false, Bool.false_eq_true, ↓reduceIte] at closed ⊢
      obtain ⟨inner, found, rfl⟩ := Option.map_eq_some_iff.mp closed
      have later := ih found fun held => calm (List.mem_cons_of_mem _ held)
      simp only [Bool.false_eq_true, ↓reduceIte] at later
      simp [stringRest, later]
    | false =>
      simp only [Bool.not_false, Bool.and_true, decide_eq_true_eq, Bool.false_eq_true,
        ↓reduceIte] at closed ⊢
      split at closed
      · next quote =>
        cases closed
        subst quote
        simp [stringRest]
      next inner' =>
      obtain ⟨inner, found, rfl⟩ := Option.map_eq_some_iff.mp closed
      have later := ih found fun held => calm (List.mem_cons_of_mem _ held)
      by_cases escape : char = '\\'
      · subst escape
        simpa using later
      · simp only [escape, decide_false, Bool.false_eq_true, ↓reduceIte] at later
        have ends : endsLine char = false := by
          simp only [endsLine, Bool.or_eq_false_iff, decide_eq_false_iff_not]
          refine ⟨feed, ?_⟩
          rintro rfl
          exact calm List.mem_cons_self
        rw [stringRest.eq_3 _ _ (fun _ _ same _ => escape same)]
        simp [inner', ends, later]

/-- A string of the query language is one chunk. -/
theorem string_chunk {rest : List Char} {read : List Char × List Char}
    (single : ∀ inner, rest ≠ '\x22' :: '\x22' :: inner)
    (closed : closeString false rest = some read) (calm : '\r' ∉ read.1) :
    ofText ('\x22' :: rest) = .string ('\x22' :: read.1) :: ofText read.2 := by
  have same := stringRest_closeString closed calm
  simp only [Bool.false_eq_true, ↓reduceIte] at same
  refine ofText_cons ?_
  simp only [first, Char.reduceEq, ↓reduceIte]
  rw [same]

/-- The rest of a block string is the same for the cut and for the reading of tokens, given the
character before it. -/
private theorem blockRest_closeBlock {previous : Char} {text : List Char}
    {read : List Char × List Char} (closed : closeBlock previous text = some read) :
    if previous = '\\' then blockRest ('\\' :: text) = ('\\' :: read.1, read.2)
    else blockRest text = read := by
  fun_induction closeBlock previous text generalizing read with
  | case1 => cases closed
  | case2 rest ih =>
    obtain ⟨inner, found, rfl⟩ := Option.map_eq_some_iff.mp closed
    have later := ih found
    simp only [Char.reduceEq, ↓reduceIte] at later
    simp [blockRest, later]
  | case3 previous rest unescaped =>
    cases closed
    simp [unescaped, blockRest]
  | case4 previous char rest apart ih =>
    obtain ⟨inner, found, rfl⟩ := Option.map_eq_some_iff.mp closed
    have later := ih found
    have step : blockRest (char :: rest) = (char :: inner.1, inner.2) := by
      by_cases escape : char = '\\'
      · rw [if_pos escape] at later
        rw [escape, later]
      · rw [if_neg escape] at later
        rw [blockRest.eq_4 _ _ (fun _ same _ => escape same) apart, later]
    split
    · rw [blockRest.eq_4 _ _ (fun others _ same => ?_) (fun _ same _ => absurd same (by decide)), step]
      injection same with same rest'
      exact apart _ same rest'
    · exact step

/-- A block string of the query language is one chunk. -/
theorem block_chunk {inner : List Char} {read : List Char × List Char}
    (closed : closeBlock '\x22' inner = some read) :
    ofText ('\x22' :: '\x22' :: '\x22' :: inner) =
      .string (tripleQuote ++ read.1) :: ofText read.2 := by
  have same := blockRest_closeBlock closed
  simp only [Char.reduceEq, ↓reduceIte] at same
  exact ofText_cons (by simp [first, same])

/-- Characters of numbers. -/
def isNumeric (char : Char) : Bool :=
  char.isDigit || char = '-' || char = '+' || char = '.' || Number.isExponentMark char

private theorem splitAtLast_split {test : Char → Bool} {text before after : List Char}
    (split : Number.splitAtLast test text = some (before, after)) :
    ∃ char, test char = true ∧ text = before ++ char :: after := by
  unfold Number.splitAtLast at split
  split at split
  · cases split
  · next char front dropped =>
    cases split
    have whole := List.takeWhile_append_dropWhile (p := (!test ·)) (l := text.reverse)
    rw [dropped] at whole
    refine ⟨char, ?_, ?_⟩
    · have stop := List.head?_dropWhile_not (!test ·) text.reverse
      rw [dropped] at stop
      simpa using stop
    · have reversed := congrArg List.reverse whole
      rw [List.reverse_reverse] at reversed
      exact reversed.symm.trans (by simp)

private theorem digits_numeric {digits : List Char} (all : digits.all Char.isDigit = true) :
    digits.all isNumeric = true := by
  rw [List.all_eq_true] at all ⊢
  exact fun char member => by simp [isNumeric, all char member]

private theorem integer_numeric {text : List Char} (integer : Number.isInteger text = true) :
    text.all isNumeric = true := by
  unfold Number.isInteger at integer
  by_cases sign : text.head? = some '-'
  · obtain ⟨others, rfl⟩ := List.head?_eq_some_iff.mp sign
    simp only [sign, ↓reduceIte, List.tail_cons] at integer
    cases others with
    | nil => cases integer
    | cons digit others =>
      simp only [Bool.and_eq_true] at integer
      rw [List.all_cons, digits_numeric integer.1]
      rfl
  · simp only [sign, ↓reduceIte] at integer
    cases text with
    | nil => rfl
    | cons digit others =>
      simp only [Bool.and_eq_true] at integer
      exact digits_numeric integer.1

private theorem mantissa_numeric {text : List Char} (mantissa : Number.isMantissa text = true) :
    text.all isNumeric = true := by
  unfold Number.isMantissa at mantissa
  split at mantissa
  · exact integer_numeric mantissa
  · next whole fraction split =>
    simp only [Bool.and_eq_true] at mantissa
    obtain ⟨char, point, rfl⟩ := splitAtLast_split split
    have point' : isNumeric char = true := by
      simp only [decide_eq_true_eq] at point
      rw [point]
      decide
    simp [integer_numeric mantissa.1.1, point', digits_numeric mantissa.2]

private theorem exponent_numeric {text : List Char} (exponent : Number.isExponent text = true) :
    text.all isNumeric = true := by
  cases text with
  | nil => cases exponent
  | cons first others =>
    simp only [Number.isExponent, Bool.and_eq_true] at exponent
    have first' : isNumeric first = true := by
      simp only [isNumeric, Bool.or_eq_true, decide_eq_true_eq, Bool.and_eq_true] at exponent ⊢
      rcases exponent.1 with (plus | minus) | ⟨least, most⟩
      · exact Or.inl (Or.inl (Or.inr plus))
      · exact Or.inl (Or.inl (Or.inl (Or.inr minus)))
      · refine Or.inl (Or.inl (Or.inl (Or.inl ?_)))
        simp only [Char.isDigit, Bool.and_eq_true, decide_eq_true_eq]
        exact ⟨Char.le_trans (by decide) least, Char.le_trans most (by decide)⟩
    rw [List.all_cons, first', digits_numeric exponent.2]
    rfl

/-- The characters of a number that is read. -/
theorem numberKind_numeric {text : List Char} {kind : TokenKind}
    (number : numberKind text = .ok kind) : text.all isNumeric = true := by
  unfold numberKind at number
  split at number
  · split at number
    · next float =>
      unfold Number.isFloat at float
      split at float
      · exact mantissa_numeric float
      · next mantissa exponent split =>
        simp only [Bool.and_eq_true] at float
        obtain ⟨char, mark, rfl⟩ := splitAtLast_split split
        have mark' : isNumeric char = true := by simp [isNumeric, mark]
        simp [mantissa_numeric float.1, mark', exponent_numeric float.2]
    · cases number
  · split at number
    · next integer => exact integer_numeric integer
    · cases number

private theorem numeric_mark {char : Char} (numeric : isNumeric char = true)
    (noLetter : isNameStart char = false) : isMark char = true ∧ isBracket char = false := by
  have other : ∀ {char' : Char}, isNumeric char' = false → char ≠ char' := by
    rintro char' bare rfl
    rw [bare] at numeric
    cases numeric
  have blank : isIgnored char = false := by
    by_contra ignored
    simp only [isIgnored, Bool.not_eq_false, Bool.or_eq_true, decide_eq_true_eq] at ignored
    obtain ((((rfl | rfl) | rfl) | rfl) | rfl) | rfl := ignored <;> exact other (by decide) rfl
  refine ⟨?_, ?_⟩
  · simp only [isMark, Bool.not_eq_true', Bool.or_eq_false_iff, decide_eq_false_iff_not]
    exact ⟨⟨⟨⟨other (by decide), other (by decide)⟩, other (by decide)⟩, noLetter⟩, blank⟩
  · simp only [isBracket, Bool.or_eq_false_iff, decide_eq_false_iff_not]
    exact ⟨⟨⟨⟨⟨other (by decide), other (by decide)⟩, other (by decide)⟩, other (by decide)⟩,
      other (by decide)⟩, other (by decide)⟩

/-- Characters of numbers are cut into chunks without brackets, up to a character that does not
go on with a name; so are those that a name before them leaves over. -/
theorem numeric_chunks {run rest : List Char} (numeric : run.all isNumeric = true)
    (ends : ∀ char ∈ rest.head?, isNameChar char = false) :
    (∃ part : List Chunk, bracketsOf part = [] ∧ ofText (run ++ rest) = part ++ ofText rest) ∧
    ∃ part : List Chunk, bracketsOf part = [] ∧
      ofText ((run ++ rest).dropWhile isNameChar) = part ++ ofText rest := by
  induction run with
  | nil =>
    have stays : rest.dropWhile isNameChar = rest := by
      cases rest with
      | nil => rfl
      | cons char rest => rw [List.dropWhile_cons_of_neg (by simp [ends char rfl])]
    exact ⟨⟨[], rfl, rfl⟩, [], rfl, by rw [List.nil_append, stays]; rfl⟩
  | cons char run ih =>
    simp only [List.all_cons, Bool.and_eq_true] at numeric
    obtain ⟨⟨part, bare, whole⟩, part', bare', dropped⟩ := ih numeric.2
    have here : ∃ part : List Chunk, bracketsOf part = [] ∧
        ofText (char :: (run ++ rest)) = part ++ ofText rest := by
      by_cases letter : isNameStart char = true
      · exact ⟨.name (char :: (run ++ rest).takeWhile isNameChar) :: part', bare',
          by rw [ofText_name letter, dropped]; rfl⟩
      · rw [Bool.not_eq_true] at letter
        obtain ⟨mark, noBracket⟩ := numeric_mark numeric.1 letter
        exact ⟨.mark char :: part, by simp [brackets, noBracket, bare],
          by rw [ofText_mark mark, whole]; rfl⟩
    refine ⟨here, ?_⟩
    rw [List.cons_append]
    by_cases goes : isNameChar char = true
    · rw [List.dropWhile_cons_of_pos goes]
      exact ⟨part', bare', dropped⟩
    · rw [List.dropWhile_cons_of_neg goes]
      exact here

/-- A punctuator of one character is a chunk, unless it is a dollar sign. -/
theorem punctuator_mark {char : Char} (mark : QueryStore.isPunctuator char = true)
    (other : char ≠ '$') : isMark char = true := by
  have listed : char ∈ "()[]\x7b\x7d!$:=@|&".toList := List.contains_iff_mem.mp mark
  have all : "()[]\x7b\x7d!$:=@|&".toList.all (fun char => char = '$' || isMark char) = true := by
    decide
  simpa [other] using List.all_eq_true.mp all char listed

/-- A text that begins with a gap does not begin with a character of names. -/
theorem gap_head {char : Char} {rest : List Char} {chunk : Chunk} {chunks : List Chunk}
    (cut : ofText (char :: rest) = chunk :: chunks) (gap : chunk.isGap = true) :
    isNameChar char = false := by
  by_contra goes
  simp only [isNameChar, Bool.not_eq_false, Bool.or_eq_true] at goes
  by_cases letter : isNameStart char = true
  · rw [ofText_name letter] at cut
    cases cut
    cases gap
  · have digit := goes.resolve_left letter
    rw [Bool.not_eq_true] at letter
    rw [ofText_mark (numeric_mark (by simp [isNumeric, digit]) letter).1] at cut
    cases cut
    cases gap

end Chunk
end QueryStore
