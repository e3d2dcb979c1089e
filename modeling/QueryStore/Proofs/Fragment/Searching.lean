import QueryStore.Proofs.Fragment.Cutting
import QueryStore.Proofs.Fragment.Scanning

/-! Turns of the search for lists of variables. Each passes a chunk and counts the brackets in it
(`search_chunk`), except for one at the keyword of a fragment with the heading of a list behind it,
outside of everything: that one passes the list as well, or finds it unterminated
(`search_heading`). -/
namespace QueryStore
open Text Chunk

/-- The keyword that a fragment begins with. -/
def Chunk.keyword : Chunk := .name "fragment".toList

namespace Scanner

section
variable {text rest : List Char} {index : Nat} {chunk : Chunk} {chunks : List Chunk}

/-- A turn of the search looks at its byte. -/
theorem searchTurn_byte {byte : UInt8} (there : (encodeUtf8 text)[index]? = some byte)
    (depth : Depth) (regions : List Region) :
    let on (depth : Depth) (index : Nat) : Turn Search (Except SyntaxError (List Region)) :=
      .again ⟨index, depth, regions⟩
    searchTurn text ⟨index, depth, regions⟩ =
      if byte = '#'.toUInt8 then (skipComment (encodeUtf8 text) index).map (on depth)
      else if byte = '\x22'.toUInt8 then (skipString (encodeUtf8 text) index).map (on depth)
      else if byte = '\x7b'.toUInt8 then .ok (on (depth.after '\x7b') (index + 1))
      else if byte = '\x7d'.toUInt8 then .ok (on (depth.after '\x7d') (index + 1))
      else if byte = '('.toUInt8 then .ok (on (depth.after '(') (index + 1))
      else if byte = ')'.toUInt8 then .ok (on (depth.after ')') (index + 1))
      else if byte = '$'.toUInt8 then (skipName (encodeUtf8 text) (index + 1)).map (on depth)
      else if isNameStartByte byte then nameTurn text ⟨index, depth, regions⟩
      else .ok (on depth (index + 1)) := by
  intro on
  obtain ⟨inside, -⟩ := List.getElem?_eq_some_iff.mp there
  simp only [searchTurn, inside, ↓reduceIte, byteAt, there]
  rfl

theorem search_passes {char : Char} {byte : UInt8} (idle : Idle char)
    (there : (encodeUtf8 text)[index]? = some byte) (reveals : Reveals char byte) (depth : Depth)
    (regions : List Region) :
    searchTurn text ⟨index, depth, regions⟩ = .ok (.again ⟨index + 1, depth, regions⟩) := by
  rw [searchTurn_byte there]
  simp [marks_shown reveals, nameStart_shown reveals, idle.quote, idle.sign, idle.opens,
    idle.closes, idle.dollar, idle.brace, idle.unbrace, idle.letter]

/-- A name begins a turn of its own. -/
theorem searchTurn_name {name : List Char} (cutAt : CutAt text index (.name name :: chunks))
    (depth : Depth) (regions : List Region) :
    searchTurn text ⟨index, depth, regions⟩ = nameTurn text ⟨index, depth, regions⟩ := by
  obtain ⟨⟨char, more, rfl, letter⟩, -⟩ := cutAt.fits
  obtain ⟨byte, there, reveals⟩ := At.first cutAt.here
  have other {mark : Char} (none : isNameStart mark = false) : char ≠ mark := by
    rintro rfl
    simp_all
  rw [searchTurn_byte there]
  have others : (char ≠ '#' ∧ char ≠ '\x22' ∧ char ≠ '$') ∧
      char ≠ '(' ∧ char ≠ ')' ∧ char ≠ '\x7b' ∧ char ≠ '\x7d' :=
    ⟨⟨other rfl, other rfl, other rfl⟩, other rfl, other rfl, other rfl, other rfl⟩
  simp [marks_shown reveals, nameStart_shown reveals, letter, others]

/-- A name is passed, unless it is the keyword before the heading of a list. -/
private theorem search_name {name : List Char} (cutAt : CutAt text index (.name name :: chunks))
    (depth : Depth) (regions : List Region) (other : ¬(depth = ⟨0, 0⟩ ∧ .name name = keyword ∧
      ∃ heading after, chunks = Heading.chunks heading ++ .mark '(' :: after)) :
    searchTurn text ⟨index, depth, regions⟩ =
      .ok (.again ⟨index + byteLength name, depth, regions⟩) := by
  have behind : CutAt text (index + byteLength name) chunks := cutAt.next
  rw [searchTurn_name cutAt]
  simp only [nameTurn, bind, Except.bind, skipName_chunk cutAt, cut_name cutAt]
  split
  · next outside =>
    split
    · next word =>
      have other' (heading : Heading) (after : List Chunk) :
          chunks ≠ heading.chunks ++ .mark '(' :: after :=
        fun headed => other ⟨outside, congrArg Chunk.name word, heading, after, headed⟩
      rw [findRegion_other behind other']
      rfl
    · rfl
  · rfl

/-- Characters that mean nothing to the search are passed one by one. -/
private theorem search_idle (cutAt : CutAt text index (chunk :: chunks)) (depth : Depth)
    (regions : List Region) (idle : ∀ char ∈ chunk.text, Idle char) :
    Leads (searchTurn text) Search.index ⟨index, depth, regions⟩
      ⟨index + byteLength chunk.text, depth, regions⟩ :=
  leads_chars (Search.mk · depth regions) (fun _ => rfl) cutAt.here
    fun char member _ _ there reveals => search_passes (idle char member) there reveals depth regions

/-- A character on its own is passed, and counted if it is a bracket. -/
private theorem search_mark {char : Char} (cutAt : CutAt text index (.mark char :: chunks))
    (depth : Depth) (regions : List Region) :
    Leads (searchTurn text) Search.index ⟨index, depth, regions⟩
      ⟨index + byteLength [char], depth.after char, regions⟩ := by
  by_cases counted : char = '(' ∨ char = ')' ∨ char = '\x7b' ∨ char = '\x7d'
  · obtain ⟨byte, there, reveals⟩ := At.first cutAt.here
    refine .single ?_ (Nat.lt_add_of_pos_right cutAt.long)
    rw [searchTurn_byte there]
    rcases counted with rfl | rfl | rfl | rfl <;>
      · simp [marks_shown reveals]
        rfl
  · simp only [not_or] at counted
    have level : depth.after char = depth := by simp [Depth.after, counted]
    have mark : isMark char = true := cutAt.fits
    simp only [isMark, Bool.not_eq_true', Bool.or_eq_false_iff, decide_eq_false_iff_not] at mark
    obtain ⟨⟨⟨⟨sign, quote⟩, dollar⟩, letter⟩, -⟩ := mark
    obtain ⟨opens, closes, brace, unbrace⟩ := counted
    rw [level]
    refine search_idle cutAt depth regions fun inner member => ?_
    rw [List.mem_singleton.mp member]
    exact ⟨⟨quote, sign, opens, closes⟩, dollar, brace, unbrace, letter⟩

/-- **A chunk is passed**, unless it is the keyword before the heading of a list, outside of
everything. -/
theorem search_chunk (cutAt : CutAt text index (chunk :: chunks)) (depth : Depth)
    (regions : List Region) (other : ¬(depth = ⟨0, 0⟩ ∧ chunk = keyword ∧
      ∃ heading after, chunks = Heading.chunks heading ++ .mark '(' :: after)) :
    Leads (searchTurn text) Search.index ⟨index, depth, regions⟩
      ⟨index + byteLength chunk.text, chunk.brackets.foldl Depth.after depth, regions⟩ := by
  have further : index < index + byteLength chunk.text := Nat.lt_add_of_pos_right cutAt.long
  have fits := cutAt.fits
  cases chunk with
  | ignored char =>
    refine search_idle cutAt depth regions fun inner member => ?_
    rw [List.mem_singleton.mp member]
    exact idle_of_isIgnored fits
  | comment comment =>
    obtain ⟨⟨more, rfl⟩, -⟩ := fits
    obtain ⟨byte, there, reveals⟩ := At.first cutAt.here
    refine .single ?_ further
    rw [searchTurn_byte there, skipComment_chunk cutAt]
    simp [marks_shown reveals]
    rfl
  | string string =>
    obtain ⟨more, rfl, -⟩ := id fits
    obtain ⟨byte, there, reveals⟩ := At.first cutAt.here
    refine .single ?_ further
    rw [searchTurn_byte there, skipString_at cutAt]
    simp [marks_shown reveals]
    rfl
  | dollar dollar =>
    obtain ⟨more, rfl, -⟩ := id fits
    obtain ⟨byte, there, reveals⟩ := At.first cutAt.here
    refine .single ?_ further
    rw [searchTurn_byte there, skipName_dollar cutAt]
    simp [marks_shown reveals]
    rfl
  | name name => exact .single (search_name cutAt depth regions other) further
  | mark char =>
    have depths : (Chunk.mark char).brackets.foldl Depth.after depth = depth.after char :=
      congrArg Spot.depth (Spot.past_mark ⟨index, depth, []⟩ char)
    rw [depths]
    exact search_mark cutAt depth regions

/-- **A list is passed**, from the keyword before its heading on, if it is closed. -/
theorem search_heading {heading : Heading}
    (cutAt : CutAt text index (keyword :: (heading.chunks ++ .mark '(' :: chunks)))
    (regions : List Region) :
    let start := index + byteLength (textOf (keyword :: heading.chunks))
    searchTurn text ⟨index, ⟨0, 0⟩, regions⟩ = .ok (match closingParenthesis 0 chunks with
      | none => .done (.error (.unterminatedVariables (String.ofList heading.name)))
      | some (list, _) =>
        let stop := start + byteLength (textOf (.mark '(' :: list))
        .again ⟨stop, ⟨0, 0⟩, regions ++ [⟨String.ofList heading.name, index, start, stop⟩]⟩) := by
  intro start
  have behind : CutAt text (index + byteLength "fragment".toList)
      (heading.chunks ++ .mark '(' :: chunks) := cutAt.next
  have place :
      start = index + byteLength "fragment".toList + byteLength (textOf heading.chunks) := by
    simp only [start, textOf_cons, byteLength_append, Nat.add_assoc]
    rfl
  rw [searchTurn_name cutAt, place]
  simp only [nameTurn, bind, Except.bind, skipName_chunk cutAt, cut_name cutAt, ↓reduceIte,
    findRegion_heading behind]
  cases closingParenthesis 0 chunks <;> rfl

end

end Scanner
end QueryStore
