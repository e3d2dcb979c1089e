import QueryStore.Proofs.Fragment.Headings
import QueryStore.Proofs.Fragment.Loops

/-! What the loops over bytes do with the chunks of a text. At the beginning of a chunk a loop goes
to its end: gaps are skipped (`skipIgnored_gap`), a parenthesis is closed where the coarse cut
closes it (`findClosing_chunks`), and behind the keyword of a fragment the heading of a list is seen
(`findRegion_heading`), and nothing else (`findRegion_other`). -/
namespace QueryStore
open Text Chunk

namespace Scanner

section
variable {text rest : List Char} {index : Nat} {chunk : Chunk} {chunks : List Chunk}

theorem skipComment_chunk {comment : List Char}
    (cutAt : CutAt text index (.comment comment :: chunks)) :
    skipComment (encodeUtf8 text) index = .ok (index + byteLength comment) := by
  obtain ⟨-, inside, ends⟩ := cutAt.fits
  exact skipWhile_run (fun char byte reveals => by rw [endsLine_shown reveals]) cutAt.here
    (by simpa using inside) fun char head => by rw [ends char head]; rfl

theorem skipName_chunk {name : List Char} (cutAt : CutAt text index (.name name :: chunks)) :
    skipName (encodeUtf8 text) index = .ok (index + byteLength name) := by
  obtain ⟨-, inside, ends⟩ := cutAt.fits
  exact skipWhile_run (fun _ _ => name_shown) cutAt.here inside ends

theorem skipName_dollar {dollar : List Char} (cutAt : CutAt text index (.dollar dollar :: chunks)) :
    skipName (encodeUtf8 text) (index + 1) = .ok (index + byteLength dollar) := by
  obtain ⟨more, rfl, inside, ends⟩ := cutAt.fits
  have behind : At text (index + 1) (more ++ textOf chunks) := At.next cutAt.here
  have ends' := skipWhile_run (fun _ _ => name_shown) behind inside ends
  rw [byteLength, ← Nat.add_assoc]
  exact ends'

theorem skipString_at {string : List Char} (cutAt : CutAt text index (.string string :: chunks)) :
    skipString (encodeUtf8 text) index = .ok (index + byteLength string) := by
  obtain ⟨more, rfl, cut⟩ := cutAt.fits
  have here : At text index ('\x22' :: (more ++ textOf chunks)) := cutAt.here
  rw [skipString_chunk here, cut]
  rfl

/-! ### Gaps -/

/-- A gap is passed in one turn. -/
theorem ignoredTurn_gap (cutAt : CutAt text index (chunk :: chunks)) (gap : chunk.isGap = true) :
    ignoredTurn (encodeUtf8 text) index = .ok (.again (index + byteLength chunk.text)) := by
  have fits := cutAt.fits
  cases chunk with
  | string | name | dollar | mark => cases gap
  | ignored char =>
    obtain ⟨byte, there, reveals⟩ := At.first cutAt.here
    by_cases marked : char = '\uFEFF'
    · subst marked
      have blank : isIgnoredByte byte = false := by simp [Bool.eq_false_iff, ignored_shown reveals]
      have sign : byte ≠ '#'.toUInt8 := by simp [marks_shown reveals]
      have starts := startsAt_eq cutAt.here byteOrderMark
      have begins : byteOrderMark.isPrefixOf (textOf (.ignored '\uFEFF' :: chunks)) = true := by
        rw [List.isPrefixOf_iff_prefix]
        exact ⟨textOf chunks, rfl⟩
      simp only [ignoredTurn, there, blank, sign, starts, begins, Except.map]
      rw [encode_length]
      rfl
    · have blank : isIgnoredByte byte = true := (ignored_shown reveals).mpr ⟨fits, marked⟩
      have size : byteLength (Chunk.ignored char).text = 1 := by
        have narrow : char.toNat < 128 := by
          simp only [Fits, isIgnored, Bool.or_eq_true, decide_eq_true_eq] at fits
          obtain ((((rfl | rfl) | rfl) | rfl) | rfl) | rfl := fits
          all_goals first | decide | exact absurd rfl marked
        rw [Chunk.text, byteLength, narrow_size narrow]
        rfl
      rw [size]
      simp only [ignoredTurn, there, blank, ↓reduceIte]
  | comment comment =>
    obtain ⟨⟨more, rfl⟩, -⟩ := fits
    obtain ⟨byte, there, reveals⟩ := At.first cutAt.here
    have sign : byte = '#'.toUInt8 := by simp [marks_shown reveals]
    simp only [ignoredTurn, there, sign, skipComment_chunk cutAt, Except.map]
    rfl

/-- What is no gap is not passed. -/
theorem ignoredTurn_solid (cutAt : CutAt text index chunks)
    (solid : ∀ chunk ∈ chunks.head?, chunk.isGap = false) :
    ignoredTurn (encodeUtf8 text) index = .ok (.done index) := by
  cases chunks with
  | nil => simp [ignoredTurn, At.end cutAt.here]
  | cons chunk chunks =>
    obtain ⟨char, more, spelled, gap, -⟩ := cutAt.fits.begins
    rw [solid chunk rfl] at gap
    obtain ⟨blank, sign⟩ : isIgnored char = false ∧ char ≠ '#' := by simpa using gap
    have here := cutAt.here
    rw [textOf_cons, spelled] at here
    obtain ⟨byte, there, reveals⟩ := here.first
    have blank' : isIgnoredByte byte = false := by
      simp [Bool.eq_false_iff, ignored_shown reveals, blank]
    have sign' : byte ≠ '#'.toUInt8 := by simp [marks_shown reveals, sign]
    have marked : byteOrderMark.isPrefixOf ((char :: more) ++ textOf chunks) = false := by
      rw [Bool.eq_false_iff, Ne, List.isPrefixOf_iff_prefix]
      rintro ⟨others, whole⟩
      obtain ⟨rfl, -⟩ := List.cons.inj whole
      exact absurd blank (by decide)
    simp only [ignoredTurn, there, blank', sign', startsAt_eq here, marked, Except.map]
    rfl

/-- **Gaps are skipped.** -/
theorem skipIgnored_gap {gap : List Chunk} (cutAt : CutAt text index (gap ++ chunks))
    (blank : gap.all isGap = true) (solid : ∀ chunk ∈ chunks.head?, chunk.isGap = false) :
    skipIgnored (encodeUtf8 text) index = .ok (index + byteLength (textOf gap)) := by
  have leads : Leads (ignoredTurn (encodeUtf8 text)) id index
      (index + byteLength (textOf gap)) := by
    clear solid
    induction gap generalizing index with
    | nil => exact .here
    | cons chunk gap ih =>
      simp only [List.all_cons, Bool.and_eq_true] at blank
      have later := ih cutAt.next blank.2
      rw [textOf_cons, byteLength_append, ← Nat.add_assoc]
      exact .on (ignoredTurn_gap cutAt blank.1) (Nat.lt_add_of_pos_right cutAt.long) later
  have room := cutAt.here
  rw [textOf_append] at room
  exact loopOver_done leads (ignoredTurn_solid cutAt.skip solid) room.room

/-! ### Parentheses -/

/-- A turn between parentheses looks at its byte. -/
theorem closingTurn_byte {byte : UInt8} (there : (encodeUtf8 text)[index]? = some byte)
    (opened : Nat) : closingTurn (encodeUtf8 text) ⟨opened, index⟩ =
      if byte = '\x22'.toUInt8 then
        (skipString (encodeUtf8 text) index).map fun stop => .again ⟨opened, stop⟩
      else if byte = '#'.toUInt8 then
        (skipComment (encodeUtf8 text) index).map fun stop => .again ⟨opened, stop⟩
      else if byte = '('.toUInt8 then .ok (.again ⟨opened + 1, index + 1⟩)
      else if byte = ')'.toUInt8 then
        match opened with
        | 0 => .error .count
        | 1 => .ok (.done (some index))
        | opened + 1 => .ok (.again ⟨opened, index + 1⟩)
      else .ok (.again ⟨opened, index + 1⟩) := by
  obtain ⟨inside, -⟩ := List.getElem?_eq_some_iff.mp there
  simp only [closingTurn, inside, ↓reduceIte, byteAt, there]
  rfl

theorem closing_passes {opened : Nat} {char : Char} {byte : UInt8} (plain : Plain char)
    (there : (encodeUtf8 text)[index]? = some byte) (reveals : Reveals char byte) :
    closingTurn (encodeUtf8 text) ⟨opened, index⟩ = .ok (.again ⟨opened, index + 1⟩) := by
  rw [closingTurn_byte there]
  simp [marks_shown reveals, plain.quote, plain.sign, plain.opens, plain.closes]

/-- What stands between parentheses is passed, chunk by chunk. -/
theorem closing_chunk (cutAt : CutAt text index (chunk :: chunks)) (opened : Nat)
    (other : chunk ≠ .mark '(' ∧ chunk ≠ .mark ')') :
    Leads (closingTurn (encodeUtf8 text)) Inside.index ⟨opened, index⟩
      ⟨opened, index + byteLength chunk.text⟩ := by
  have passes (plain : ∀ char ∈ chunk.text, Plain char) :
      Leads (closingTurn (encodeUtf8 text)) Inside.index ⟨opened, index⟩
        ⟨opened, index + byteLength chunk.text⟩ :=
    leads_chars (Inside.mk opened) (fun _ => rfl) cutAt.here fun char member _ _ =>
      closing_passes (plain char member)
  have fits := cutAt.fits
  cases chunk with
  | ignored char =>
    refine passes fun inner member => ?_
    rw [List.mem_singleton.mp member]
    exact (idle_of_isIgnored fits).toPlain
  | comment comment =>
    obtain ⟨⟨more, rfl⟩, -⟩ := fits
    obtain ⟨byte, there, reveals⟩ := At.first cutAt.here
    refine .single ?_ (Nat.lt_add_of_pos_right cutAt.long)
    rw [closingTurn_byte there, skipComment_chunk cutAt]
    simp [marks_shown reveals]
    rfl
  | string string =>
    obtain ⟨more, rfl, -⟩ := id fits
    obtain ⟨byte, there, reveals⟩ := At.first cutAt.here
    refine .single ?_ (Nat.lt_add_of_pos_right cutAt.long)
    rw [closingTurn_byte there, skipString_at cutAt]
    simp [marks_shown reveals]
    rfl
  | name name => exact passes fun char member => plain_of_isNameChar (fits.2.1 char member)
  | dollar dollar =>
    obtain ⟨more, rfl, inside, -⟩ := fits
    refine passes fun char member => ?_
    rcases List.mem_cons.mp member with rfl | member
    · exact ⟨by decide, by decide, by decide, by decide⟩
    · exact plain_of_isNameChar (inside char member)
  | mark char =>
    have mark : isMark char = true := fits
    refine passes fun inner member => ?_
    rw [List.mem_singleton.mp member]
    refine ⟨?_, ?_, fun same => other.1 (same ▸ rfl), fun same => other.2 (same ▸ rfl)⟩ <;>
      · rintro rfl
        exact absurd mark (by decide)

theorem closingTurn_opening (here : At text index ('(' :: rest)) (opened : Nat) :
    closingTurn (encodeUtf8 text) ⟨opened, index⟩ = .ok (.again ⟨opened + 1, index + 1⟩) := by
  obtain ⟨byte, there, reveals⟩ := here.first
  rw [closingTurn_byte there]
  simp [marks_shown reveals]

/-- At least one parenthesis is open where one is closed, so that the count stays above zero. -/
theorem closingTurn_closing (here : At text index (')' :: rest)) (inner : Nat) :
    closingTurn (encodeUtf8 text) ⟨inner + 1, index⟩ =
      .ok (if inner = 0 then .done (some index) else .again ⟨inner, index + 1⟩) := by
  obtain ⟨byte, there, reveals⟩ := here.first
  rw [closingTurn_byte there]
  cases inner <;>
    simp [marks_shown reveals]

/-- Inside of parentheses the search ends where the coarse cut closes them. -/
theorem closing_done (cutAt : CutAt text index chunks) (inner : Nat) : ∃ last closing,
    Leads (closingTurn (encodeUtf8 text)) Inside.index ⟨inner + 1, index⟩ last ∧
      closingTurn (encodeUtf8 text) last = .ok (.done closing) ∧
      last.index ≤ (encodeUtf8 text).length ∧
      closing.map (· + 1) =
        (closingParenthesis inner chunks).map fun read => index + byteLength (textOf read.1) := by
  induction chunks generalizing index inner with
  | nil =>
    have length := cutAt.here.length
    exact ⟨⟨inner + 1, index⟩, none, .here, by simp [closingTurn, length, byteLength],
      cutAt.here.le_length, rfl⟩
  | cons chunk chunks ih =>
    -- What is found behind a chunk that is passed is found from the chunk on.
    have passed {later : Nat} (open' : ¬(chunk = .mark ')' ∧ inner = 0))
        (counts : later = if chunk = .mark '(' then inner + 1
          else if chunk = .mark ')' then inner - 1 else inner)
        (leads : Leads (closingTurn (encodeUtf8 text)) Inside.index ⟨inner + 1, index⟩
          ⟨later + 1, index + byteLength chunk.text⟩) : ∃ last closing,
        Leads (closingTurn (encodeUtf8 text)) Inside.index ⟨inner + 1, index⟩ last ∧
          closingTurn (encodeUtf8 text) last = .ok (.done closing) ∧
          last.index ≤ (encodeUtf8 text).length ∧
          closing.map (· + 1) = (closingParenthesis inner (chunk :: chunks)).map
            fun read => index + byteLength (textOf read.1) := by
      obtain ⟨last, closing, leads', ends, bound, same⟩ := ih cutAt.next later
      refine ⟨last, closing, leads.trans leads', ends, bound, ?_⟩
      have open'' : ¬(decide (chunk = .mark ')') && decide (inner = 0)) = true := by
        simpa using open'
      rw [same, closingParenthesis, if_neg open'', ← counts, Option.map_map]
      simp only [Function.comp_def, textOf_cons, byteLength_append, Nat.add_assoc]
    by_cases opens : chunk = .mark '('
    · subst opens
      exact passed (by simp) rfl
        (.single (closingTurn_opening cutAt.here (inner + 1)) (Nat.lt_succ_self index))
    by_cases closes : chunk = .mark ')'
    · subst closes
      have turned := closingTurn_closing cutAt.here inner
      cases inner with
      | zero =>
        refine ⟨_, some index, .here, turned, cutAt.here.le_length, ?_⟩
        simp [closingParenthesis]
        rfl
      | succ inner => exact passed (by simp) rfl (.single turned (Nat.lt_succ_self index))
    · exact passed (by simp [closes]) (by simp [opens, closes])
        (closing_chunk cutAt (inner + 1) ⟨opens, closes⟩)

/-- **The closing parenthesis is where the coarse cut closes.** -/
theorem findClosing_chunks (cutAt : CutAt text index (.mark '(' :: chunks)) : ∃ closing,
    findClosing (encodeUtf8 text) index = .ok closing ∧
      closing.map (· + 1) = (closingParenthesis 0 chunks).map fun read =>
        index + byteLength (textOf (.mark '(' :: read.1)) := by
  obtain ⟨last, closing, leads, ends, bound, same⟩ := closing_done cutAt.next 0
  have opening : Leads (closingTurn (encodeUtf8 text)) Inside.index ⟨0, index⟩ ⟨1, index + 1⟩ :=
    .single (closingTurn_opening cutAt.here 0) (Nat.lt_succ_self index)
  refine ⟨closing, loopOver_done (opening.trans leads) ends (Nat.le_add_left_of_le bound), ?_⟩
  rw [same]
  simp only [textOf_cons, byteLength_append, Nat.add_assoc]

/-! ### Headings -/

/-- Names and opening parentheses are known by their first bytes. -/
theorem first_byte (cutAt : CutAt text index chunks) :
    ((encodeUtf8 text)[index]?.any isNameStartByte = true ↔
        ∃ name rest, chunks = .name name :: rest) ∧
      ((encodeUtf8 text)[index]? = some '('.toUInt8 ↔ ∃ rest, chunks = .mark '(' :: rest) := by
  cases chunks with
  | nil => simp [At.end cutAt.here]
  | cons chunk chunks =>
    obtain ⟨char, more, spelled, -, letter, opens⟩ := cutAt.fits.begins
    have here := cutAt.here
    rw [textOf_cons, spelled] at here
    obtain ⟨byte, there, reveals⟩ := here.first
    simp [there, nameStart_shown reveals, letter, marks_shown reveals, opens]

/-- What stands from an index on can be cut out. -/
theorem cut_at {front : List Char} (here : At text index (front ++ rest)) :
    cut text index (index + byteLength front) = .ok front := by
  rw [cut, here.slice]

theorem cut_name {name : List Char} (cutAt : CutAt text index (.name name :: chunks)) :
    cut text index (index + byteLength name) = .ok name :=
  cut_at cutAt.here

/-- **A heading is seen.** Then the list behind it ends where the coarse cut closes it. -/
theorem findRegion_heading {heading : Heading}
    (cutAt : CutAt text index (heading.chunks ++ .mark '(' :: chunks)) (keyword : Nat) :
    let start := index + byteLength (textOf heading.chunks)
    findRegion text keyword index = .ok (match closingParenthesis 0 chunks with
      | none => .error (.unterminatedVariables (String.ofList heading.name))
      | some (list, _) => .ok (some ⟨String.ofList heading.name, keyword, start,
          start + byteLength (textOf (.mark '(' :: list))⟩)) := by
  intro start
  have atGap : CutAt text index (heading.before ++
      .name heading.name :: (heading.behind ++ .mark '(' :: chunks)) := by
    simpa [Heading.chunks] using cutAt
  have atName := atGap.skip
  have atGap' : CutAt text (index + byteLength (textOf heading.before) + byteLength heading.name)
      (heading.behind ++ .mark '(' :: chunks) := atName.next
  have atList := atGap'.skip
  have first := skipIgnored_gap atGap heading.blank (by simp [isGap])
  have letter := (first_byte atName).1.mpr ⟨_, _, rfl⟩
  have ended := skipName_chunk atName
  have second := skipIgnored_gap atGap' heading.blank' (by simp [isGap])
  have opens := (first_byte atList).2.mpr ⟨_, rfl⟩
  obtain ⟨closing, found, same⟩ := findClosing_chunks atList
  have place : start = index + byteLength (textOf heading.before) + byteLength heading.name +
      byteLength (textOf heading.behind) := by
    simp only [start, Heading.chunks, textOf_append, textOf_cons, Chunk.text, byteLength_append,
      Nat.add_assoc]
  simp only [findRegion, bind, Except.bind, first, letter, ↓reduceIte, ended, cut_name atName,
    second, opens, found, place]
  cases closed : closingParenthesis 0 chunks with
  | none =>
    rw [closed] at same
    obtain rfl := Option.map_eq_none_iff.mp same
    rfl
  | some read =>
    rw [closed] at same
    obtain ⟨closing, rfl, stop⟩ := Option.map_eq_some_iff.mp same
    simp only [stop]
    rfl

/-- **Nothing else is seen.** -/
theorem findRegion_other (cutAt : CutAt text index chunks)
    (other : ∀ heading after, chunks ≠ Heading.chunks heading ++ .mark '(' :: after)
    (keyword : Nat) : findRegion text keyword index = .ok (.ok none) := by
  obtain ⟨gap, rest, rfl, blank, solid⟩ := gap_split chunks
  have first := skipIgnored_gap cutAt blank solid
  have atName := cutAt.skip
  simp only [findRegion, bind, Except.bind, first]
  split
  · next letter =>
    obtain ⟨name, chunks, rfl⟩ := (first_byte atName).1.mp letter
    obtain ⟨gap', rest, rfl, blank', solid'⟩ := gap_split chunks
    have atGap : CutAt text (index + byteLength (textOf gap) + byteLength name) (gap' ++ rest) :=
      atName.next
    have second := skipIgnored_gap atGap blank' solid'
    have shut : ¬(encodeUtf8 text)[index + byteLength (textOf gap) + byteLength name +
        byteLength (textOf gap')]? = some '('.toUInt8 := by
      intro opens
      obtain ⟨after, rfl⟩ := (first_byte atGap.skip).2.mp opens
      exact other ⟨gap, name, gap', blank, blank'⟩ after (by simp [Heading.chunks])
    simp only [skipName_chunk atName, cut_name atName, second, if_neg shut]
    rfl
  · rfl

end
end Scanner
end QueryStore
