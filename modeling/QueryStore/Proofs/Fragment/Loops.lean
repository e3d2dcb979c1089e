import QueryStore.Fragment.Scanner
import QueryStore.Proofs.Fragment.Edges
import QueryStore.Proofs.Text.Bytes

/-! Loops over the bytes of a text. A loop is through without a fault if turn by turn it gets
further on, to where it is done (`loop_done`): then it has no more turns than there are bytes. It
passes a run of characters byte by byte, if none of their bytes is one that it stops at
(`leads_chars`). So the loops end where the coarse cut ends its chunks (`skipWhile_run`,
`skipString_chunk`). -/
namespace QueryStore.Scanner
open Text Chunk

section
variable {σ α : Type} {turn : σ → Except Fault (Turn σ α)} {place : σ → Nat} {first middle last : σ}

/-- Turns of a loop lead from one state to another, each of them further on in the text. -/
inductive Leads (turn : σ → Except Fault (Turn σ α)) (place : σ → Nat) : σ → σ → Prop
  | here {state : σ} : Leads turn place state state
  | on {state next last : σ} (turned : turn state = .ok (.again next))
    (further : place state < place next) (later : Leads turn place next last) :
    Leads turn place state last

theorem Leads.trans (leads : Leads turn place first middle)
    (leads' : Leads turn place middle last) : Leads turn place first last := by
  induction leads with
  | here => exact leads'
  | on turned further _ ih => exact .on turned further (ih leads')

/-- A single turn. -/
theorem Leads.single (turned : turn first = .ok (.again last))
    (further : place first < place last) : Leads turn place first last :=
  .on turned further .here

theorem Leads.le (leads : Leads turn place first last) : place first ≤ place last := by
  induction leads with
  | here => exact Nat.le_refl _
  | on _ further _ ih => exact Nat.le_trans (Nat.le_of_lt further) ih

/-- **A loop ends** if its turns lead to where it is done. There are no more turns than places that
they go through. -/
theorem loop_done (leads : Leads turn place first last) {result : α}
    (ends : turn last = .ok (.done result)) {turns : Nat}
    (room : place last ≤ place first + turns) : loop turn (turns + 1) first = .ok result := by
  induction leads generalizing turns with
  | here => rw [loop, ends]
  | on turned further later ih =>
    have onward := later.le
    obtain ⟨turns, rfl⟩ : ∃ less, turns = less + 1 := ⟨turns - 1, by omega⟩
    rw [loop, turned]
    exact ih ends (by omega)

/-- A loop over the bytes of a text ends if its turns lead to where it is done, at most one byte
further than it began or behind the end. -/
theorem loopOver_done {bytes : List UInt8} (leads : Leads turn place first last) {result : α}
    (ends : turn last = .ok (.done result)) (room : place last ≤ place first + bytes.length) :
    loopOver bytes turn first = .ok result :=
  loop_done leads ends room

variable {text front rest : List Char} {index : Nat} {char : Char} (put : Nat → σ)
  (placed : ∀ index, place (put index) = index)
include placed

/-- A loop passes a character byte by byte. -/
theorem leads_char (here : At text index (char :: rest))
    (passes : ∀ index byte, (encodeUtf8 text)[index]? = some byte → Reveals char byte →
      turn (put index) = .ok (.again (put (index + 1)))) {offset : Nat}
    (inside : offset ≤ char.utf8Size) :
    Leads turn place (put (index + offset)) (put (index + char.utf8Size)) := by
  obtain ⟨left, whole⟩ := Nat.exists_eq_add_of_le inside
  induction left generalizing offset with
  | zero =>
    rw [whole]
    exact .here
  | succ left ih =>
    have inner : offset < char.utf8Size := by omega
    obtain ⟨byte, there, reveals⟩ := here.byte inner
    refine .on (passes _ byte there reveals) ?_ (@ih (offset + 1) inner (by omega))
    rw [placed, placed]
    exact Nat.lt_succ_self _

/-- **A loop passes a run of characters** byte by byte. -/
theorem leads_chars (here : At text index (front ++ rest))
    (passes : ∀ char ∈ front, ∀ index byte, (encodeUtf8 text)[index]? = some byte →
      Reveals char byte → turn (put index) = .ok (.again (put (index + 1)))) :
    Leads turn place (put index) (put (index + byteLength front)) := by
  induction front generalizing index with
  | nil => exact .here
  | cons char front ih =>
    have single : At text index ([char] ++ (front ++ rest)) := here
    have later := ih single.skip fun other member => passes other (List.mem_cons_of_mem _ member)
    have own := leads_char put placed single (passes char List.mem_cons_self) (Nat.zero_le _)
    have size : byteLength [char] = char.utf8Size := Nat.add_zero _
    rw [size] at later
    rw [byteLength, ← Nat.add_assoc]
    exact own.trans later

end

/-! ### Bytes and characters -/

section
variable {char : Char} {byte : UInt8} (reveals : Reveals char byte)
include reveals

theorem nameStart_shown : isNameStartByte byte = isNameStart char := by
  have letters : isNameStart char = (char = '_' ||
    (decide ('A'.val ≤ char.val ∧ char.val ≤ 'Z'.val) ||
      ('a'.val ≤ char.val && char.val ≤ 'z'.val))) := rfl
  rw [letters, Bool.eq_iff_iff]
  simp only [isNameStartByte, Bool.or_eq_true, Bool.and_eq_true, decide_eq_true_eq]
  rw [reveals.eq_iff (by decide), reveals.ge_iff (by decide), reveals.le_iff (by decide),
    reveals.ge_iff (by decide), reveals.le_iff (by decide), or_assoc]

/-- The bytes that loops look for are known from the characters. -/
theorem marks_shown :
    (byte = '\\'.toUInt8 ↔ char = '\\') ∧ (byte = '\x22'.toUInt8 ↔ char = '\x22') ∧
    (byte = '#'.toUInt8 ↔ char = '#') ∧ (byte = '$'.toUInt8 ↔ char = '$') ∧
    (byte = '('.toUInt8 ↔ char = '(') ∧ (byte = ')'.toUInt8 ↔ char = ')') ∧
    (byte = '\x7b'.toUInt8 ↔ char = '\x7b') ∧ (byte = '\x7d'.toUInt8 ↔ char = '\x7d') := by
  refine ⟨?_, ?_, ?_, ?_, ?_, ?_, ?_, ?_⟩ <;> exact reveals.eq_iff (by decide)

theorem name_shown : isNameByte byte = isNameChar char := by
  rw [isNameByte, isNameChar, nameStart_shown reveals, Bool.eq_iff_iff]
  simp only [Char.isDigit, Bool.or_eq_true, Bool.and_eq_true, decide_eq_true_eq]
  rw [reveals.ge_iff (by decide), reveals.le_iff (by decide)]

theorem endsLine_shown : endsLineByte byte = endsLine char := by
  simp only [endsLineByte, endsLine, reveals.eq_iff (by decide : '\n'.toNat < 128),
    reveals.eq_iff (by decide : '\r'.toNat < 128)]

/-- The mark of the byte order is known by all its bytes only. -/
theorem ignored_shown : isIgnoredByte byte = true ↔ isIgnored char = true ∧ char ≠ '\uFEFF' := by
  simp only [isIgnoredByte, endsLine_shown reveals, isIgnored, endsLine, Bool.or_eq_true,
    decide_eq_true_eq, reveals.eq_iff (by decide : ' '.toNat < 128),
    reveals.eq_iff (by decide : '\t'.toNat < 128), reveals.eq_iff (by decide : ','.toNat < 128)]
  constructor
  · rintro (((rfl | rfl) | rfl | rfl) | rfl) <;> simp
  · rintro ⟨((((rfl | rfl) | rfl) | rfl) | rfl) | rfl, other⟩ <;> simp_all

end

/-! ### Names, comments and strings -/

section
variable {text front rest : List Char} {index : Nat}

section
variable {α : Type} {turn : Nat → Except Fault (Turn Nat α)}

/-- A loop over indices passes what is left of a character. -/
theorem leads_inside {char : Char} (here : At text index (char :: rest))
    (passes : ∀ index byte, (encodeUtf8 text)[index]? = some byte → Reveals char byte →
      turn index = .ok (.again (index + 1))) {offset : Nat} (inside : offset ≤ char.utf8Size) :
    Leads turn id (index + offset) (index + char.utf8Size) :=
  leads_char id (fun _ => rfl) here passes inside

/-- A loop over indices passes what is left of a character behind its first byte. Nothing is left of
one of ASCII. -/
theorem leads_rest {char : Char} (here : At text index (char :: rest))
    (passes : 128 ≤ char.toNat → ∀ index byte, (encodeUtf8 text)[index]? = some byte →
      Reveals char byte → turn index = .ok (.again (index + 1))) :
    Leads turn id (index + 1) (index + char.utf8Size) := by
  by_cases narrow : char.toNat < 128
  · rw [narrow_size narrow]
    exact .here
  · exact leads_inside here (passes (Nat.le_of_not_lt narrow)) char.utf8Size_pos

/-- A loop over indices passes a run of characters byte by byte. -/
theorem leads_run (here : At text index (front ++ rest))
    (passes : ∀ char ∈ front, ∀ index byte, (encodeUtf8 text)[index]? = some byte →
      Reveals char byte → turn index = .ok (.again (index + 1))) :
    Leads turn id index (index + byteLength front) :=
  leads_chars id (fun _ => rfl) here passes

end

/-- **The end of a run.** -/
theorem skipWhile_run {test : UInt8 → Bool} {p : Char → Bool}
    (agree : ∀ char byte, Reveals char byte → test byte = p char)
    (here : At text index (front ++ rest)) (run : ∀ char ∈ front, p char = true)
    (ends : ∀ char ∈ rest.head?, p char = false) :
    skipWhile test (encodeUtf8 text) index = .ok (index + byteLength front) := by
  have leads : Leads (whileTurn test (encodeUtf8 text)) id index (index + byteLength front) :=
    leads_run here fun char member index byte there reveals => by
      simp [whileTurn, there, agree char byte reveals, run char member]
  refine loopOver_done leads ?_ here.room
  have there := here.skip
  cases rest with
  | nil => simp [whileTurn, there.end]
  | cons char rest =>
    obtain ⟨byte, held, reveals⟩ := there.first
    simp_all [whileTurn, agree char byte reveals]

/-- A turn inside of a string looks at its byte. -/
theorem stringTurn_byte {byte : UInt8} (there : (encodeUtf8 text)[index]? = some byte) :
    stringTurn (encodeUtf8 text) index =
      .ok (if byte = '\\'.toUInt8 then .again (index + 2)
        else if byte = '\x22'.toUInt8 then .done (index + 1)
        else if endsLineByte byte then .done index else .again (index + 1)) := by
  obtain ⟨inside, -⟩ := List.getElem?_eq_some_iff.mp there
  simp only [stringTurn, inside, ↓reduceIte, byteAt, there, bind, Except.bind, pure, Except.pure]
  split
  · rfl
  split
  · rfl
  split <;> rfl

/-- A loop inside of a string passes what does not end it. -/
private theorem string_passes {char : Char} (escape : char ≠ '\\') (quote : char ≠ '\x22')
    (line : endsLine char = false) {byte : UInt8} (there : (encodeUtf8 text)[index]? = some byte)
    (reveals : Reveals char byte) :
    stringTurn (encodeUtf8 text) index = .ok (.again (index + 1)) := by
  rw [stringTurn_byte there]
  simp [marks_shown reveals, endsLine_shown reveals, escape, quote, line]

/-- A backslash is passed with the byte behind it. -/
private theorem string_escape (here : At text index ('\\' :: rest)) :
    stringTurn (encodeUtf8 text) index = .ok (.again (index + 2)) := by
  obtain ⟨byte, there, reveals⟩ := here.first
  rw [stringTurn_byte there]
  simp [marks_shown reveals]

/-- A jump over a backslash may lead into the character behind it, the rest of which is passed. -/
private theorem string_jump {char : Char} (here : At text index (char :: rest)) :
    Leads (stringTurn (encodeUtf8 text)) id (index + 1) (index + char.utf8Size) := by
  refine leads_rest here fun wide index byte there reveals => ?_
  have other {ascii : Char} (small : ascii.toNat < 128) : char ≠ ascii := by
    rintro rfl
    omega
  have line : endsLine char = false := by
    simp [endsLine, other (by decide : '\n'.toNat < 128), other (by decide : '\r'.toNat < 128)]
  exact string_passes (other (by decide)) (other (by decide)) line there reveals

/-- A loop inside of a string ends where the string does. -/
theorem string_done (here : At text index rest) :
    ∃ last, Leads (stringTurn (encodeUtf8 text)) id index last ∧
      stringTurn (encodeUtf8 text) last = .ok (.done (index + byteLength (stringRest rest).1)) ∧
      last ≤ (encodeUtf8 text).length + 1 := by
  fun_induction stringRest rest generalizing index with
  | case1 =>
    refine ⟨index, .here, ?_, Nat.le_succ_of_le here.le_length⟩
    have length := here.length
    simp [stringTurn, length, byteLength]
  | case2 =>
    rename_i char rest _ ih
    have next : At text (index + 1) (char :: rest) := here.next
    obtain ⟨last, leads, ends, bound⟩ := ih next.next
    refine ⟨last, .on (string_escape here) (Nat.lt_add_of_pos_right (by decide))
      ((string_jump next).trans leads), ?_, bound⟩
    rw [ends]
    simp only [byteLength, Nat.add_assoc]
    rfl
  | case3 rest =>
    obtain ⟨byte, there, reveals⟩ := here.first
    refine ⟨index, .here, ?_, Nat.le_succ_of_le here.le_length⟩
    rw [stringTurn_byte there]
    simp [marks_shown reveals, byteLength]
    rfl
  | case4 =>
    rename_i char rest escape quote line
    obtain ⟨byte, there, reveals⟩ := here.first
    refine ⟨index, .here, ?_, Nat.le_succ_of_le here.le_length⟩
    have noEscape : char ≠ '\\' := by
      rintro rfl
      exact absurd line (by decide)
    rw [stringTurn_byte there]
    simp [marks_shown reveals, endsLine_shown reveals, byteLength, noEscape, quote, line]
  | case5 =>
    rename_i char rest escape quote line _ ih
    by_cases escaped : char = '\\'
    · -- Nothing comes behind the backslash, and the jump leads out of the text.
      subst escaped
      obtain rfl : rest = [] := by
        cases rest with
        | nil => rfl
        | cons other others => exact absurd rfl (escape other others rfl)
      have length : (encodeUtf8 text).length = index + 1 := here.length
      refine ⟨index + 2, .single (string_escape here) (Nat.lt_add_of_pos_right (by decide)), ?_,
        by omega⟩
      simp [stringTurn, length, byteLength]
      rfl
    · obtain ⟨last, leads, ends, bound⟩ := ih here.next
      have own : Leads (stringTurn (encodeUtf8 text)) id index (index + char.utf8Size) :=
        leads_inside here (fun index byte there reveals =>
          string_passes escaped quote (by simpa using line) there reveals) (Nat.zero_le _)
      refine ⟨last, own.trans leads, ?_, bound⟩
      rw [ends, byteLength, Nat.add_assoc]

/-- Bytes go on with a text where characters do. -/
theorem startsAt_eq (here : At text index rest) (word : List Char) :
    startsAt (encodeUtf8 text) index word = .ok (word.isPrefixOf rest) := by
  have same : (encodeUtf8 word).isPrefixOf (encodeUtf8 rest) = word.isPrefixOf rest := by
    rw [Bool.eq_iff_iff, List.isPrefixOf_iff_prefix, List.isPrefixOf_iff_prefix, encode_prefix]
  rw [startsAt, if_pos here.le_length, here.drop, same]

/-- Inside of a wide character no text of ASCII begins. -/
theorem startsAt_wide {byte : UInt8} (there : (encodeUtf8 text)[index]? = some byte)
    (wide : 128 ≤ byte.toNat) {ascii : Char} (narrow : ascii.toNat < 128) (word : List Char) :
    startsAt (encodeUtf8 text) index (ascii :: word) = .ok false := by
  obtain ⟨inside, held⟩ := List.getElem?_eq_some_iff.mp there
  have other : ascii.toUInt8 ≠ byte := by
    rintro rfl
    rw [narrow_byte narrow] at wide
    omega
  have first : String.utf8EncodeChar ascii = [ascii.toUInt8] :=
    String.utf8EncodeChar_eq_singleton (narrow_size narrow)
  rw [startsAt, if_pos (Nat.le_of_lt inside), List.drop_eq_getElem_cons inside, held, encode_cons,
    first]
  simp [List.isPrefixOf, other]

/-- A turn inside of a block string looks for quotes. -/
theorem blockTurn_char {char : Char} (here : At text index (char :: rest)) :
    blockTurn (encodeUtf8 text) index =
      .ok (if ('\\' :: tripleQuote).isPrefixOf (char :: rest) then .again (index + 4)
        else if tripleQuote.isPrefixOf (char :: rest) then .done (index + 3)
        else .again (index + 1)) := by
  obtain ⟨byte, there, -⟩ := here.first
  obtain ⟨inside, -⟩ := List.getElem?_eq_some_iff.mp there
  simp only [blockTurn, inside, ↓reduceIte, startsAt_eq here, bind, Except.bind, pure, Except.pure]
  split
  · rfl
  split <;> rfl

/-- What is left of a character behind its first byte is passed inside of a block string. -/
private theorem block_rest {char : Char} (here : At text index (char :: rest)) :
    Leads (blockTurn (encodeUtf8 text)) id (index + 1) (index + char.utf8Size) := by
  refine leads_rest here fun wide index byte there reveals => ?_
  obtain ⟨within, -⟩ := List.getElem?_eq_some_iff.mp there
  have wide' : 128 ≤ byte.toNat := by
    have value := reveals.value
    omega
  simp only [blockTurn, within, ↓reduceIte, tripleQuote,
    startsAt_wide there wide' (by decide : '\\'.toNat < 128),
    startsAt_wide there wide' (by decide : '\x22'.toNat < 128)]
  rfl

/-- A loop inside of a block string ends where the string does. -/
theorem block_done (here : At text index rest) :
    ∃ last, Leads (blockTurn (encodeUtf8 text)) id index last ∧
      blockTurn (encodeUtf8 text) last = .ok (.done (index + byteLength (blockRest rest).1)) ∧
      last ≤ (encodeUtf8 text).length := by
  fun_induction blockRest rest generalizing index with
  | case1 =>
    have length := here.length
    exact ⟨index, .here, by simp [blockTurn, length, byteLength], here.le_length⟩
  | case2 =>
    rename_i rest _ ih
    have behind : At text (index + 4) rest := here.next.next.next.next
    obtain ⟨last, leads, ends, bound⟩ := ih behind
    have turned : blockTurn (encodeUtf8 text) index = .ok (.again (index + 4)) := by
      rw [blockTurn_char here]
      simp [tripleQuote]
    refine ⟨last, .on turned (Nat.lt_add_of_pos_right (by decide)) leads, ?_, bound⟩
    have size : byteLength ('\\' :: tripleQuote) = 4 := rfl
    rw [ends, byteLength_append, size, Nat.add_assoc]
  | case3 rest =>
    have size : byteLength tripleQuote = 3 := rfl
    refine ⟨index, .here, ?_, here.le_length⟩
    rw [blockTurn_char here, size]
    simp [tripleQuote]
  | case4 =>
    rename_i char rest escaped apart _ ih
    obtain ⟨last, leads, ends, bound⟩ := ih here.next
    have noEscape : ('\\' :: tripleQuote).isPrefixOf (char :: rest) = false := by
      rw [Bool.eq_false_iff, Ne, List.isPrefixOf_iff_prefix]
      rintro ⟨others, whole⟩
      obtain ⟨rfl, rfl⟩ := List.cons.inj whole
      exact escaped others rfl rfl
    have noQuotes : tripleQuote.isPrefixOf (char :: rest) = false := by
      rw [Bool.eq_false_iff, Ne, List.isPrefixOf_iff_prefix]
      rintro ⟨others, whole⟩
      obtain ⟨rfl, rfl⟩ := List.cons.inj whole
      exact apart others rfl rfl
    have turned : blockTurn (encodeUtf8 text) index = .ok (.again (index + 1)) := by
      rw [blockTurn_char here, noEscape, noQuotes]
      rfl
    refine ⟨last, .on turned (Nat.lt_succ_self index) ((block_rest here).trans leads), ?_, bound⟩
    rw [ends, byteLength, Nat.add_assoc]

/-- **The end of a string.** -/
theorem skipString_chunk (here : At text index ('\x22' :: rest)) :
    skipString (encodeUtf8 text) index = .ok (index + byteLength (first '\x22' rest).1.text) := by
  by_cases block : ∃ inner, rest = '\x22' :: '\x22' :: inner
  · obtain ⟨inner, rfl⟩ := block
    have within : At text (index + 3) inner := here.next.next.next
    obtain ⟨last, leads, ends, bound⟩ := block_done within
    have size : byteLength tripleQuote = 3 := rfl
    have chunk : (first '\x22' ('\x22' :: '\x22' :: inner)).1.text =
        tripleQuote ++ (blockRest inner).1 := rfl
    have through := loopOver_done leads ends (Nat.le_add_left_of_le bound)
    rw [skipString, startsAt_eq here, chunk, byteLength_append, size, ← Nat.add_assoc, ← through]
    rfl
  · have within : At text (index + 1) rest := here.next
    obtain ⟨last, leads, ends, bound⟩ := string_done within
    have single : tripleQuote.isPrefixOf ('\x22' :: rest) = false := by
      rw [Bool.eq_false_iff, Ne, List.isPrefixOf_iff_prefix]
      rintro ⟨others, whole⟩
      obtain ⟨-, rfl⟩ := List.cons.inj whole
      exact block ⟨others, rfl⟩
    have chunk : (first '\x22' rest).1.text = '\x22' :: (stringRest rest).1 := by
      unfold first
      simp only [Char.reduceEq, ↓reduceIte]
      split
      · exact absurd ⟨_, rfl⟩ block
      · rfl
    have room : last ≤ index + 1 + (encodeUtf8 text).length := by omega
    have through := loopOver_done leads ends room
    rw [skipString, startsAt_eq here, single, chunk, byteLength, ← Nat.add_assoc]
    exact through

end

end QueryStore.Scanner
