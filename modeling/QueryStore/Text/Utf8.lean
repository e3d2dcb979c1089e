/-! UTF-8, and decoding that says where and how a byte sequence fails: after how many good
bytes, and over how many bytes the first bad sequence extends. A sequence that the input
ends in the middle of has no extent. -/
namespace QueryStore.Text

/-- The bytes of a text. -/
def encodeUtf8 (text : List Char) : List UInt8 := text.flatMap String.utf8EncodeChar

/-- The first place where bytes are no UTF-8. -/
structure Utf8Fault where
  validUpTo : Nat
  extent : Option Nat
deriving DecidableEq, Repr

/-- The wording counts bytes from zero. -/
def Utf8Fault.message (fault : Utf8Fault) : String :=
  match fault.extent with
  | some count => s!"invalid utf-8 sequence of {count} bytes from index {fault.validUpTo}"
  | none => s!"incomplete utf-8 byte sequence from index {fault.validUpTo}"

/-- How many bytes follow a leading byte, and the range of the first of them; overlong
forms, surrogates and values past the last code point are excluded by that range. -/
def continuation (lead : Nat) : Option (Nat × Nat × Nat) :=
  if 0xC2 ≤ lead && lead ≤ 0xDF then some (1, 0x80, 0xBF)
  else if lead = 0xE0 then some (2, 0xA0, 0xBF)
  else if lead = 0xED then some (2, 0x80, 0x9F)
  else if 0xE1 ≤ lead && lead ≤ 0xEF then some (2, 0x80, 0xBF)
  else if lead = 0xF0 then some (3, 0x90, 0xBF)
  else if 0xF1 ≤ lead && lead ≤ 0xF3 then some (3, 0x80, 0xBF)
  else if lead = 0xF4 then some (3, 0x80, 0x8F)
  else none

/-- A character under way: the value so far, the bytes still due, the range that the next
must fall in, and the bytes already read of it. -/
structure Pending where
  value : Nat
  due : Nat
  least : Nat
  most : Nat
  read : Nat

/-- Reads the rest of a byte sequence; `index` is where the character under way began. -/
def decodeFrom (index : Nat) (underWay : Option Pending) :
    List UInt8 → Except Utf8Fault (List Char)
  | [] =>
    match underWay with
    | none => .ok []
    | some _ => .error ⟨index, none⟩
  | byte :: rest =>
    match underWay with
    | none =>
      if byte.toNat < 0x80 then (decodeFrom (index + 1) none rest).map (Char.ofNat byte.toNat :: ·)
      else match continuation byte.toNat with
        | none => .error ⟨index, some 1⟩
        | some (due, least, most) =>
          let leadBits := byte.toNat % (if due = 1 then 32 else if due = 2 then 16 else 8)
          decodeFrom index (some ⟨leadBits, due, least, most, 1⟩) rest
    | some char =>
      if char.least ≤ byte.toNat && byte.toNat ≤ char.most then
        let value := char.value * 64 + byte.toNat % 64
        if char.due = 1 then
          (decodeFrom (index + char.read + 1) none rest).map (Char.ofNat value :: ·)
        else decodeFrom index (some ⟨value, char.due - 1, 0x80, 0xBF, char.read + 1⟩) rest
      else .error ⟨index, some char.read⟩

/-- The text that a byte sequence encodes. -/
def decodeUtf8 (bytes : List UInt8) : Except Utf8Fault String :=
  (decodeFrom 0 none bytes).map String.ofList

end QueryStore.Text
