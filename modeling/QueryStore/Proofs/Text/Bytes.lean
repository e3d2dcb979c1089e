import QueryStore.Proofs.Text.Offsets
import QueryStore.Text.Utf8

/-! The bytes of a text, which are those of a string (`encode_eq`). A byte reveals whether the
character that it belongs to is one of ASCII, and which (`Reveals.eq_iff`): no byte of a wider
character is below 128. So what is read byte by byte is known from the characters (`At.byte`), and a
text begins with another exactly if its bytes begin with those of the other (`encode_prefix`). -/
namespace QueryStore.Text

@[simp] theorem encode_nil : encodeUtf8 [] = [] := rfl

@[simp] theorem encode_cons (char : Char) (rest : List Char) :
    encodeUtf8 (char :: rest) = String.utf8EncodeChar char ++ encodeUtf8 rest := rfl

@[simp] theorem encode_append (left right : List Char) :
    encodeUtf8 (left ++ right) = encodeUtf8 left ++ encodeUtf8 right :=
  List.flatMap_append

@[simp] theorem encode_length (text : List Char) : (encodeUtf8 text).length = byteLength text := by
  induction text with
  | nil => rfl
  | cons char rest ih =>
    rw [encode_cons, List.length_append, String.length_utf8EncodeChar, ih, byteLength]

/-- The bytes are those of the text as a string. -/
theorem encode_eq (text : List Char) :
    (encodeUtf8 text).toByteArray = (String.ofList text).toByteArray := by
  rw [String.toByteArray_ofList]
  rfl

/-- A character of ASCII is one byte. -/
theorem narrow_size {char : Char} (narrow : char.toNat < 128) : char.utf8Size = 1 := by
  rw [Char.utf8Size_eq_one_iff, UInt32.le_iff_toNat_le]
  exact Nat.le_of_lt_succ narrow

/-- What a byte of a character shows: the character itself, if it is one of ASCII. -/
def Reveals (char : Char) (byte : UInt8) : Prop :=
  if char.toNat < 128 then byte = char.toUInt8 else 128 ≤ byte.toNat

section
variable {char : Char} {byte : UInt8}

theorem reveals_of_mem (member : byte ∈ String.utf8EncodeChar char) : Reveals char byte := by
  have value : char.toNat = char.val.toNat := rfl
  unfold Reveals
  unfold String.utf8EncodeChar at member
  simp only at member
  split
  · next narrow =>
    rw [if_pos (by omega), List.mem_singleton] at member
    rw [member]
    rfl
  · next wide =>
    rw [if_neg (by omega)] at member
    repeat' split at member
    all_goals
      simp only [List.mem_cons, List.not_mem_nil, or_false] at member
      rcases member with rfl | rfl | rfl | rfl <;> simp only [UInt8.toNat_ofNat'] <;> omega

/-- The value of a byte that shows a character of ASCII. -/
theorem Reveals.value (reveals : Reveals char byte) :
    byte.toNat = char.toNat ∧ char.toNat < 128 ∨ 128 ≤ byte.toNat ∧ 128 ≤ char.toNat := by
  unfold Reveals at reveals
  split at reveals
  · next narrow =>
    refine Or.inl ⟨?_, narrow⟩
    rw [reveals, Char.toUInt8, UInt32.toNat_toUInt8, Nat.mod_eq_of_lt]
    · rfl
    · exact Nat.lt_trans narrow (by decide)
  · next wide => exact Or.inr ⟨reveals, Nat.le_of_not_lt wide⟩

/-- The value of the byte of a character of ASCII. -/
theorem narrow_byte {ascii : Char} (narrow : ascii.toNat < 128) :
    ascii.toUInt8.toNat = ascii.toNat := by
  rw [Char.toUInt8, UInt32.toNat_toUInt8, Nat.mod_eq_of_lt]
  · rfl
  · exact Nat.lt_trans narrow (by decide)

section
variable (reveals : Reveals char byte) {ascii : Char} (narrow : ascii.toNat < 128)
include reveals narrow

/-- A byte shows a character of ASCII only if it is that character's. -/
theorem Reveals.eq_iff : byte = ascii.toUInt8 ↔ char = ascii := by
  have value := reveals.value
  rw [← UInt8.toNat_inj, narrow_byte narrow, ← Char.toNat_inj]
  omega

/-- Bytes are in the order of the characters of ASCII, and all others are behind these. -/
theorem Reveals.ge_iff : ascii.toUInt8 ≤ byte ↔ ascii.val ≤ char.val := by
  have value := reveals.value
  rw [UInt8.le_iff_toNat_le, narrow_byte narrow, UInt32.le_iff_toNat_le]
  change _ ↔ ascii.toNat ≤ char.toNat
  omega

theorem Reveals.le_iff : byte ≤ ascii.toUInt8 ↔ char.val ≤ ascii.val := by
  have value := reveals.value
  rw [UInt8.le_iff_toNat_le, narrow_byte narrow, UInt32.le_iff_toNat_le]
  change _ ↔ char.toNat ≤ ascii.toNat
  omega

end
end

/-- A text goes on with another at an index into its bytes. -/
def At (text : List Char) (index : Nat) (rest : List Char) : Prop :=
  ∃ before, text = before ++ rest ∧ index = byteLength before

section
variable {text rest : List Char} {index : Nat} {char : Char}

theorem at_start (text : List Char) : At text 0 text := ⟨[], rfl, rfl⟩

/-- Further on a text goes on with what is left. -/
theorem At.skip {front : List Char} (here : At text index (front ++ rest)) :
    At text (index + byteLength front) rest := by
  obtain ⟨before, rfl, rfl⟩ := here
  exact ⟨before ++ front, by rw [List.append_assoc], (byteLength_append ..).symm⟩

theorem At.next (here : At text index (char :: rest)) : At text (index + char.utf8Size) rest := by
  obtain ⟨before, rfl, rfl⟩ := here
  refine ⟨before ++ [char], by rw [List.append_assoc]; rfl, ?_⟩
  rw [byteLength_append]
  rfl

theorem At.drop (here : At text index rest) : (encodeUtf8 text).drop index = encodeUtf8 rest := by
  obtain ⟨before, rfl, rfl⟩ := here
  rw [encode_append, ← encode_length, List.drop_left]

theorem At.length (here : At text index rest) :
    (encodeUtf8 text).length = index + byteLength rest := by
  obtain ⟨before, rfl, rfl⟩ := here
  rw [encode_length, byteLength_append]

/-- No part of a text is longer than the text. -/
theorem At.room {front : List Char} (here : At text index (front ++ rest)) :
    index + byteLength front ≤ index + (encodeUtf8 text).length := by
  rw [here.length, byteLength_append]
  omega

theorem At.le_length (here : At text index rest) : index ≤ (encodeUtf8 text).length := by
  rw [here.length]
  exact Nat.le_add_right ..

/-- At its end a text has no byte. -/
theorem At.end (here : At text index []) : (encodeUtf8 text)[index]? = none := by
  rw [List.getElem?_eq_none_iff, here.length]
  exact Nat.le_refl _

/-- **The bytes of a character.** Where a text goes on with a character, all its bytes show it. -/
theorem At.byte (here : At text index (char :: rest)) {offset : Nat}
    (inside : offset < char.utf8Size) :
    ∃ byte, (encodeUtf8 text)[index + offset]? = some byte ∧ Reveals char byte := by
  rw [← String.length_utf8EncodeChar] at inside
  refine ⟨(String.utf8EncodeChar char)[offset], ?_, reveals_of_mem (List.getElem_mem inside)⟩
  rw [← List.getElem?_drop, here.drop, encode_cons, List.getElem?_append_left inside,
    List.getElem?_eq_getElem inside]

/-- The first byte of a character. -/
theorem At.first (here : At text index (char :: rest)) :
    ∃ byte, (encodeUtf8 text)[index]? = some byte ∧ Reveals char byte :=
  here.byte char.utf8Size_pos

/-- The slice between two points of a text is what stands there. -/
theorem At.slice {front : List Char} (here : At text index (front ++ rest)) :
    slice text index (index + byteLength front) = some front := by
  obtain ⟨before, rfl, rfl⟩ := here
  rw [← List.append_assoc]
  exact slice_append before front rest

end

/-- A text begins with another exactly if its bytes do so. -/
theorem encode_prefix {word rest : List Char} :
    encodeUtf8 word <+: encodeUtf8 rest ↔ word <+: rest := by
  constructor
  · intro begins
    induction word generalizing rest with
    | nil => exact List.nil_prefix
    | cons char word ih =>
      obtain ⟨more, whole⟩ := begins
      cases rest with
      | nil =>
        have size := char.utf8Size_pos
        have bytes := congrArg List.length whole
        simp only [encode_cons, List.length_append, String.length_utf8EncodeChar, encode_nil,
          List.length_nil] at bytes
        omega
      | cons other rest =>
        -- Decoding tells which character the bytes begin with.
        rw [encode_cons, encode_cons, List.append_assoc] at whole
        have read := congrArg (fun bytes : List UInt8 => bytes.toByteArray.utf8DecodeChar? 0) whole
        simp only [List.toByteArray_append, ByteArray.utf8DecodeChar?_utf8EncodeChar_append,
          Option.some.injEq] at read
        subst read
        exact List.prefix_cons_inj char |>.mpr (ih ⟨more, List.append_cancel_left whole⟩)
  · rintro ⟨more, rfl⟩
    exact ⟨encodeUtf8 more, (encode_append word more).symm⟩

end QueryStore.Text
