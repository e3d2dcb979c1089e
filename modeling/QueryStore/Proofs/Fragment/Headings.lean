import Mathlib.Data.List.TakeWhile
import QueryStore.Proofs.Fragment.Edges
import QueryStore.Proofs.Text.Bytes

/-! Lists of variables in the chunks of a text. The coarse cut ends a list at the first parenthesis
that closes what is open (`closing_iff`); a list stands behind a heading, which is a name with gaps
around it. A text that is read from the beginning of a chunk shows by its first character what the
chunk is (`Chunk.Fits.begins`). -/
namespace QueryStore
open Text Chunk

namespace Chunk

/-- What a chunk is like, and the text behind it. -/
def Fits : Chunk → List Char → Prop
  | .ignored char, _ => isIgnored char = true
  | .comment text, tail => (∃ more, text = '#' :: more) ∧ (∀ char ∈ text, endsLine char = false) ∧
    ∀ char ∈ tail.head?, endsLine char = true
  | .string text, tail => ∃ more, text = '\x22' :: more ∧
    first '\x22' (more ++ tail) = (.string text, tail)
  | .name text, tail => (∃ char more, text = char :: more ∧ isNameStart char = true) ∧
    (∀ char ∈ text, isNameChar char = true) ∧ ∀ char ∈ tail.head?, isNameChar char = false
  | .dollar text, tail => ∃ more, text = '$' :: more ∧ (∀ char ∈ more, isNameChar char = true) ∧
    ∀ char ∈ tail.head?, isNameChar char = false
  | .mark char, _ => isMark char = true

theorem Follows.fits {chunk : Chunk} {tail : List Char} (follows : chunk.Follows tail) :
    chunk.Fits tail := by
  obtain ⟨char, more, spelled, cut⟩ := follows_iff.mp follows
  have run (p : Char → Bool) (behind : (more ++ tail).dropWhile p = tail) :
      (∀ char ∈ (more ++ tail).takeWhile p, p char = true) ∧
        ∀ char ∈ tail.head?, p char = false := by
    refine ⟨fun char member => List.mem_takeWhile_imp member, fun char head => ?_⟩
    have stops := List.head?_dropWhile_not p (more ++ tail)
    rw [behind] at stops
    simp_all
  by_cases quote : char = '\x22'
  · subst quote
    have string : ∃ text, chunk = .string text := by
      unfold first at cut
      simp only [Char.reduceEq, ↓reduceIte] at cut
      split at cut <;> exact ⟨_, (Prod.mk.inj cut).1.symm⟩
    obtain ⟨text, rfl⟩ := string
    obtain rfl : text = '\x22' :: more := spelled
    exact ⟨more, rfl, cut⟩
  unfold first at cut
  rw [if_neg quote] at cut
  repeat' split at cut
  all_goals obtain ⟨rfl, behind⟩ := Prod.mk.inj cut
  · obtain ⟨inside, ends⟩ := run _ behind
    refine ⟨⟨_, rfl⟩, fun char member => ?_, by simpa using ends⟩
    rcases List.mem_cons.mp member with rfl | member
    · decide
    · simpa using inside char member
  · obtain ⟨inside, ends⟩ := run _ behind
    exact ⟨_, rfl, inside, ends⟩
  · next letter =>
    obtain ⟨inside, ends⟩ := run _ behind
    refine ⟨⟨char, _, rfl, letter⟩, fun other member => ?_, ends⟩
    rcases List.mem_cons.mp member with rfl | member
    · simp [isNameChar, letter]
    · exact inside other member
  · next blank => exact blank
  · next comment dollar letter blank =>
    simpa [Fits, isMark, comment, quote, dollar, blank] using letter

/-- Characters that do not count between parentheses. -/
structure Plain (char : Char) : Prop where
  quote : char ≠ '\x22'
  sign : char ≠ '#'
  opens : char ≠ '('
  closes : char ≠ ')'

/-- Characters that nothing outside of lists of variables begins with. -/
structure Idle (char : Char) : Prop extends Plain char where
  dollar : char ≠ '$'
  brace : char ≠ '\x7b'
  unbrace : char ≠ '\x7d'
  letter : isNameStart char = false

theorem idle_of_isIgnored {char : Char} (ignored : isIgnored char = true) : Idle char := by
  simp only [isIgnored, Bool.or_eq_true, decide_eq_true_eq] at ignored
  obtain ((((rfl | rfl) | rfl) | rfl) | rfl) | rfl := ignored <;>
    exact ⟨⟨by decide, by decide, by decide, by decide⟩, by decide, by decide, by decide, by decide⟩

theorem plain_of_isNameChar {char : Char} (goes : isNameChar char = true) : Plain char := by
  constructor <;>
    · rintro rfl
      exact absurd goes (by decide)

end Chunk

/-- Chunks of which the last closes a parenthesis that was opened before them, with others inside of
it: no fewer were open all along. -/
def Closes (opened : Nat) (list : List Chunk) : Prop :=
  ∃ inside, list = inside ++ [.mark ')'] ∧
    inside.count (.mark ')') = inside.count (.mark '(') + opened ∧
    ∀ front, front <+: inside → front.count (.mark ')') ≤ front.count (.mark '(') + opened

theorem not_closes_nil {opened : Nat} : ¬Closes opened [] := by
  rintro ⟨inside, whole, -⟩
  simp at whole

/-- The first parenthesis that closes what was not opened is the last one. -/
theorem closes_last {list : List Chunk} : Closes 0 (.mark ')' :: list) ↔ list = [] := by
  constructor
  · rintro ⟨inside, whole, -, within⟩
    cases inside with
    | nil => exact (List.cons.inj whole).2
    | cons chunk inside =>
      obtain ⟨rfl, -⟩ := List.cons.inj whole
      have bound := within [.mark ')'] ⟨inside, rfl⟩
      simp at bound
  · rintro rfl
    exact ⟨[], rfl, rfl, by simp⟩

/-- Any other chunk counts what is open. -/
theorem closes_cons {opened : Nat} {chunk : Chunk} {list : List Chunk}
    (open' : ¬(chunk = .mark ')' ∧ opened = 0)) : Closes opened (chunk :: list) ↔
      Closes (if chunk = .mark '(' then opened + 1
        else if chunk = .mark ')' then opened - 1 else opened) list := by
  generalize counts : (if chunk = .mark '(' then opened + 1
    else if chunk = .mark ')' then opened - 1 else opened) = later
  have shift (part : List Chunk) :
      (chunk :: part).count (.mark ')') + (part.count (.mark '(') + later) =
        part.count (.mark ')') + ((chunk :: part).count (.mark '(') + opened) := by
    rw [← counts]
    by_cases opens : chunk = .mark '('
    · simp [opens]
      omega
    by_cases closes : chunk = .mark ')'
    · have some : opened ≠ 0 := fun none => open' ⟨closes, none⟩
      simp [closes]
      omega
    · simp [opens, closes]
  constructor
  · rintro ⟨inside, whole, equal, within⟩
    cases inside with
    | nil =>
      obtain ⟨rfl, rfl⟩ := List.cons.inj whole
      simp at equal
      exact absurd ⟨rfl, equal.symm⟩ open'
    | cons other inside =>
      obtain ⟨rfl, rfl⟩ := List.cons.inj whole
      refine ⟨inside, rfl, by have := shift inside; omega, fun front begins => ?_⟩
      have bound := within (chunk :: front) (List.prefix_cons_inj chunk |>.mpr begins)
      have := shift front
      omega
  · rintro ⟨inside, rfl, equal, within⟩
    refine ⟨chunk :: inside, rfl, by have := shift inside; omega, fun front begins => ?_⟩
    cases front with
    | nil => simp
    | cons other front =>
      obtain ⟨rfl, begins'⟩ := List.cons_prefix_cons.mp begins
      have bound := within front begins'
      have := shift front
      omega

/-- **What the coarse cut closes.** It ends the list at the first parenthesis that closes what is
open. -/
theorem closing_iff {opened : Nat} {chunks list rest : List Chunk} :
    closingParenthesis opened chunks = some (list, rest) ↔
      chunks = list ++ rest ∧ Closes opened list := by
  induction chunks generalizing opened list with
  | nil =>
    constructor
    · intro closed
      cases closed
    · rintro ⟨whole, closes⟩
      obtain ⟨rfl, -⟩ := List.append_eq_nil_iff.mp whole.symm
      exact absurd closes not_closes_nil
  | cons chunk chunks ih =>
    rw [closingParenthesis]
    by_cases last : chunk = .mark ')' ∧ opened = 0
    · obtain ⟨rfl, rfl⟩ := last
      simp only [decide_true, Bool.and_self, ↓reduceIte, Option.some.injEq, Prod.mk.injEq]
      constructor
      · rintro ⟨rfl, rfl⟩
        exact ⟨rfl, closes_last.mpr rfl⟩
      · rintro ⟨whole, closes⟩
        cases list with
        | nil => exact absurd closes not_closes_nil
        | cons other list =>
          obtain ⟨rfl, rfl⟩ := List.cons.inj whole
          obtain rfl := closes_last.mp closes
          exact ⟨rfl, rfl⟩
    · have open' : ¬(decide (chunk = .mark ')') && decide (opened = 0)) = true := by
        simpa using last
      simp only [if_neg open', Option.map_eq_some_iff, Prod.exists, Prod.mk.injEq]
      constructor
      · rintro ⟨list, behind, closed, rfl, rfl⟩
        obtain ⟨rfl, closes⟩ := ih.mp closed
        exact ⟨rfl, (closes_cons last).mpr closes⟩
      · rintro ⟨whole, closes⟩
        cases list with
        | nil => exact absurd closes not_closes_nil
        | cons other list =>
          obtain ⟨rfl, rfl⟩ := List.cons.inj whole
          exact ⟨list, rest, ih.mpr ⟨rfl, (closes_cons last).mp closes⟩, rfl, rfl⟩

/-- What stands between the keyword of a fragment and its list of variables: a name, and gaps around
it. -/
structure Heading where
  before : List Chunk
  name : List Char
  behind : List Chunk
  blank : before.all isGap = true
  blank' : behind.all isGap = true

def Heading.chunks (heading : Heading) : List Chunk :=
  heading.before ++ .name heading.name :: heading.behind

/-- Any chunks begin with a gap, be it empty, that is not followed by another. -/
theorem gap_split (chunks : List Chunk) : ∃ gap rest, chunks = gap ++ rest ∧
    gap.all isGap = true ∧ ∀ chunk ∈ rest.head?, chunk.isGap = false := by
  refine ⟨chunks.takeWhile isGap, chunks.dropWhile isGap, List.takeWhile_append_dropWhile.symm,
    List.all_takeWhile, fun chunk head => ?_⟩
  have stops := List.head?_dropWhile_not isGap chunks
  simp_all

/-- From an index on a text is cut into chunks. -/
structure CutAt (text : List Char) (index : Nat) (chunks : List Chunk) : Prop where
  here : At text index (textOf chunks)
  chunked : Chunked chunks

section
variable {text : List Char} {index : Nat} {chunk : Chunk} {front chunks : List Chunk}

theorem CutAt.skip (cutAt : CutAt text index (front ++ chunks)) :
    CutAt text (index + byteLength (textOf front)) chunks := by
  have here := cutAt.here
  rw [textOf_append] at here
  exact ⟨here.skip, cutAt.chunked.suffix⟩

theorem CutAt.next (cutAt : CutAt text index (chunk :: chunks)) :
    CutAt text (index + byteLength chunk.text) chunks :=
  ⟨At.skip cutAt.here, (chunked_cons.mp cutAt.chunked).2⟩

theorem CutAt.fits (cutAt : CutAt text index (chunk :: chunks)) : chunk.Fits (textOf chunks) :=
  (chunked_cons.mp cutAt.chunked).1.fits

/-- No chunk is empty. -/
theorem CutAt.long (cutAt : CutAt text index (chunk :: chunks)) : 0 < byteLength chunk.text := by
  obtain ⟨char, more, spelled, -⟩ := follows_iff.mp (chunked_cons.mp cutAt.chunked).1
  exact byteLength_pos (spelled ▸ List.cons_ne_nil char more)

/-- A text is cut into its chunks. -/
theorem cutAt_start (text : List Char) : CutAt text 0 (ofText text) := by
  refine ⟨?_, chunked_ofText text⟩
  rw [textOf_ofText]
  exact at_start text

/-- It is still cut into chunks behind some of them. -/
theorem cutAt_behind (whole : ofText text = front ++ chunks) :
    CutAt text (byteLength (textOf front)) chunks := by
  have start := cutAt_start text
  rw [whole] at start
  have behind := start.skip
  rwa [Nat.zero_add] at behind

/-- What a chunk is shows in its first character. -/
theorem Chunk.Fits.begins {tail : List Char} (fits : chunk.Fits tail) :
    ∃ char more, chunk.text = char :: more ∧
      (chunk.isGap = true ↔ isIgnored char = true ∨ char = '#') ∧
      (isNameStart char = true ↔ ∃ name, chunk = .name name) ∧
      (char = '(' ↔ chunk = .mark '(') := by
  have letter {char other : Char} (held : isNameStart char = true)
      (none : isNameStart other = false) : char ≠ other := by
    rintro rfl
    simp_all
  cases chunk with
  | ignored char =>
    have ignored : isIgnored char = true := fits
    have idle := idle_of_isIgnored ignored
    exact ⟨char, [], rfl, by simp [isGap, ignored], by simp [idle.letter], by simp [idle.opens]⟩
  | comment text =>
    obtain ⟨⟨more, rfl⟩, -⟩ := fits
    exact ⟨'#', more, rfl, by simp [isGap], by simp [isNameStart], by simp⟩
  | string text =>
    obtain ⟨more, rfl, -⟩ := fits
    exact ⟨'\x22', more, rfl, by simp [isGap, isIgnored], by simp [isNameStart], by simp⟩
  | name text =>
    obtain ⟨⟨char, more, rfl, held⟩, -⟩ := fits
    have solid : isIgnored char = false := by
      rw [Bool.eq_false_iff]
      intro ignored
      rw [(idle_of_isIgnored ignored).letter] at held
      cases held
    have sign := letter held (by decide : isNameStart '#' = false)
    have opening := letter held (by decide : isNameStart '(' = false)
    exact ⟨char, more, rfl, by simp [isGap, solid, sign], by simp [held], by simp [opening]⟩
  | dollar text =>
    obtain ⟨more, rfl, -⟩ := fits
    exact ⟨'$', more, rfl, by simp [isGap, isIgnored], by simp [isNameStart], by simp⟩
  | mark char =>
    have mark : isMark char = true := fits
    simp only [isMark, Bool.not_eq_true', Bool.or_eq_false_iff, decide_eq_false_iff_not] at mark
    exact ⟨char, [], rfl, by simp [isGap, mark], by simp [mark], by simp⟩

end

end QueryStore
