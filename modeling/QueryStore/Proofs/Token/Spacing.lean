import Mathlib.Data.List.Forall2
import QueryStore.Proofs.Text.Glyphs
import QueryStore.Proofs.Token.Stream

/-! How a plain text is spaced does not matter to its tokens: plain texts with the same
glyphs have tokens of the same kinds and texts, and their streams end alike
(`tokens_side_by_side`). -/
namespace QueryStore
open Text

/-- Tokens that differ in their places only. -/
structure Token.Alike (left right : Token) : Prop where
  kind : left.kind = right.kind
  text : left.text = right.text

theorem skipIgnored_plain {text : List Char} (plain : Plain text) (place : Place) :
    (skipIgnored false place text).2 = text.dropWhile isInsignificant := by
  induction text generalizing place with
  | nil => rfl
  | cons char rest ih =>
    have later := fun place => ih (plain.of_sublist (List.sublist_cons_self char rest)) place
    obtain ⟨-, noComment, noMark, -⟩ := plain char List.mem_cons_self
    by_cases blank : isInsignificant char = true
    · rw [List.dropWhile_cons_of_pos blank]
      rcases plain.separator List.mem_cons_self blank with rfl | rfl | rfl | rfl | rfl <;>
        simpa [skipIgnored] using later _
    · have visible : isInsignificant char = false := by simpa using blank
      rw [List.dropWhile_cons_of_neg blank]
      have others : char ≠ '\n' ∧ char ≠ ' ' ∧ char ≠ ',' ∧ char ≠ '\t' ∧ char ≠ '\r' := by
        refine ⟨?_, ?_, ?_, ?_, ?_⟩ <;> rintro rfl <;> exact absurd visible (by decide)
      obtain ⟨feed, space, comma, tab, carriage⟩ := others
      simp [skipIgnored, feed, space, comma, tab, carriage, noMark, noComment]

private theorem separator_ends_name {text : List Char} (plain : Plain text) {char : Char}
    (member : char ∈ text) (blank : isInsignificant char = true) : isNameChar char = false := by
  rcases plain.separator member blank with rfl | rfl | rfl | rfl | rfl <;> decide

private theorem separator_ends_number {text : List Char} (plain : Plain text) {char : Char}
    (member : char ∈ text) (blank : isInsignificant char = true) :
    (!endsNumber char) = false := by
  rcases plain.separator member blank with rfl | rfl | rfl | rfl | rfl <;> decide

private theorem dots_side_by_side {left right : List Char}
    (same : glyphs false left = glyphs false right) :
    (∃ left' right', left = '.' :: '.' :: left' ∧ right = '.' :: '.' :: right' ∧
      glyphs false left' = glyphs false right') ∨
    ((∀ rest, left ≠ '.' :: '.' :: rest) ∧ ∀ rest, right ≠ '.' :: '.' :: rest) := by
  have solid : ∀ {text : List Char}, Loose text → ∀ rest, text ≠ '.' :: rest := by
    rintro _ loose rest rfl
    exact absurd (loose '.' rfl) (by decide)
  rcases side_by_side same with ⟨char, left', right', -, rfl, rfl, same'⟩ | ⟨loose, loose'⟩
  · by_cases dot : char = '.'
    · subst char
      rcases side_by_side same' with
        ⟨other, left'', right'', -, rfl, rfl, same''⟩ | ⟨loose, loose'⟩
      · by_cases dot' : other = '.'
        · subst other
          exact Or.inl ⟨left'', right'', rfl, rfl, same''⟩
        · exact Or.inr ⟨by simp [dot'], by simp [dot']⟩
      · exact Or.inr ⟨fun rest equal => solid loose rest (List.cons.inj equal).2,
          fun rest equal => solid loose' rest (List.cons.inj equal).2⟩
    · exact Or.inr ⟨by simp [dot], by simp [dot]⟩
  · exact Or.inr ⟨fun rest => solid loose _, fun rest => solid loose' _⟩

/-- Results of reading one token that differ at most in how the remaining text is spaced. -/
inductive LexemesAlike : Except LexicalError Lexeme → Except LexicalError Lexeme → Prop
  | error (error : LexicalError) : LexemesAlike (.error error) (.error error)
  | ok (kind : TokenKind) (text : List Char) {left right : List Char}
    (same : glyphs false left = glyphs false right) :
    LexemesAlike (.ok ⟨kind, text, left⟩) (.ok ⟨kind, text, right⟩)

theorem LexemesAlike.of_error {error : LexicalError} {other : Except LexicalError Lexeme}
    (alike : LexemesAlike (.error error) other) : other = .error error := by
  cases alike
  rfl

theorem LexemesAlike.of_ok {read : Lexeme} {other : Except LexicalError Lexeme}
    (alike : LexemesAlike (.ok read) other) :
    ∃ behind, other = .ok { read with rest := behind } ∧
      glyphs false read.rest = glyphs false behind := by
  cases alike with
  | ok kind text same => exact ⟨_, rfl, same⟩

/-- A token of a plain text does not depend on how the text behind it is spaced. -/
theorem lexeme_side_by_side {first : Char} {left right : List Char}
    (plain : Plain (first :: left)) (plain' : Plain (first :: right))
    (same : glyphs false left = glyphs false right) :
    LexemesAlike (lexeme first left) (lexeme first right) := by
  have stops : ∀ p : Char → Bool,
      (∀ {text : List Char}, Plain text → ∀ {char}, char ∈ text →
        isInsignificant char = true → p char = false) →
      ∀ char, isInsignificant char = true → char ∈ left ∨ char ∈ right → p char = false := by
    rintro p ends char blank (member | member)
    · exact ends plain (List.mem_cons_of_mem _ member) blank
    · exact ends plain' (List.mem_cons_of_mem _ member) blank
  by_cases mark : isPunctuator first = true
  · simp only [lexeme, mark, ↓reduceIte]
    exact .ok _ _ same
  by_cases dot : first = '.'
  · subst first
    rcases dots_side_by_side same with ⟨left', right', rfl, rfl, same'⟩ | ⟨bare, bare'⟩
    · exact .ok _ _ same'
    · have failed : ∀ {text : List Char}, (∀ rest, text ≠ '.' :: '.' :: rest) →
          lexeme '.' text = .error .bareDot := by
        intro text bare
        unfold lexeme
        rw [if_neg mark, if_pos rfl]
        split
        · exact absurd rfl (bare _)
        · rfl
      rw [failed bare, failed bare']
      exact .error _
  by_cases letter : isNameStart first = true
  · obtain ⟨taken, dropped⟩ := takeWhile_side_by_side (stops isNameChar separator_ends_name) same
    simp only [lexeme, mark, dot, letter, ↓reduceIte, taken]
    exact .ok _ _ dropped
  by_cases digit : (first = '-' || first.isDigit) = true
  · obtain ⟨taken, dropped⟩ :=
      takeWhile_side_by_side (stops (!endsNumber ·) separator_ends_number) same
    simp only [lexeme, mark, dot, letter, digit, ↓reduceIte, taken]
    cases numberKind (first :: right.takeWhile (!endsNumber ·)) with
    | error error => exact .error error
    | ok kind => exact .ok kind _ dropped
  · have noQuote : first ≠ '\x22' := (plain first List.mem_cons_self).1
    simp only [lexeme, mark, dot, letter, digit, noQuote, ↓reduceIte]
    exact .error _

/-- No token of a plain text has a separator in it. -/
theorem lexeme_significant {first : Char} {rest : List Char} (plain : Plain (first :: rest))
    {read : Lexeme} (found : lexeme first rest = .ok read) :
    ∀ char ∈ read.text, isInsignificant char = false := by
  have within : ∀ p : Char → Bool,
      (∀ {char}, char ∈ first :: rest → isInsignificant char = true → p char = false) →
      ∀ char ∈ rest.takeWhile p, isInsignificant char = false := by
    intro p ends char member
    have goes := List.all_eq_true.mp (List.all_takeWhile (p := p) (l := rest)) char member
    by_contra blank
    have stop := ends (List.mem_cons_of_mem _ ((List.takeWhile_sublist p).subset member))
      (by simpa using blank)
    simp [goes] at stop
  have begins : (∀ char, isInsignificant char = true → char = first →
      isPunctuator char = false ∧ char ≠ '.' ∧ isNameStart char = false ∧
        (char = '-' || char.isDigit) = false) := by
    rintro char blank rfl
    rcases plain.separator List.mem_cons_self blank with rfl | rfl | rfl | rfl | rfl <;> decide
  have solid : isInsignificant first = false := by
    by_contra blank
    have stop := begins first (by simpa using blank) rfl
    have noQuote : first ≠ '\x22' := (plain first List.mem_cons_self).1
    simp [lexeme, stop, noQuote] at found
  have noQuote : first ≠ '\x22' := (plain first List.mem_cons_self).1
  cases lexeme_iff.mp found with
  | mark mark => simpa using solid
  | dots dot whole =>
    intro char member
    obtain rfl : char = '.' := by simpa using member
    decide
  | name noMark noDot letter =>
    exact List.forall_mem_cons.mpr ⟨solid, within _ (separator_ends_name plain)⟩
  | number noMark noDot noLetter digit number =>
    exact List.forall_mem_cons.mpr ⟨solid, within _ (separator_ends_number plain)⟩
  | block quote opens closed => exact absurd quote noQuote
  | string quote single closed => exact absurd quote noQuote

/-- Streams that differ in the places of their tokens only. -/
structure StreamsAlike (left right : TokenStream) : Prop where
  tokens : List.Forall₂ Token.Alike left.tokens right.tokens
  ending : left.ending = right.ending

theorem Token.Alike.symm {left right : Token} (alike : left.Alike right) : right.Alike left :=
  ⟨alike.kind.symm, alike.text.symm⟩

theorem StreamsAlike.symm {left right : TokenStream} (alike : StreamsAlike left right) :
    StreamsAlike right left :=
  ⟨alike.tokens.flip.imp fun _ _ same => same.symm, alike.ending.symm⟩

private theorem lexeme_plain {first : Char} {rest : List Char} (plain : Plain (first :: rest))
    {read : Lexeme} (found : lexeme first rest = .ok read) : Plain read.rest := by
  obtain ⟨more, -, split⟩ := lexeme_split found
  apply plain.of_sublist
  rw [split]
  exact (List.sublist_append_right more read.rest).trans (List.sublist_cons_self _ _)

/-- What stands behind the separators of plain texts with the same glyphs. -/
private theorem skipped_side_by_side {left right : List Char} (plain : Plain left)
    (plain' : Plain right) (same : glyphs true left = glyphs true right) (place place' : Place) :
    (∃ start start', skipIgnored false place left = (start, []) ∧
      skipIgnored false place' right = (start', [])) ∨
    (∃ start start' first rest rest', skipIgnored false place left = (start, first :: rest) ∧
      skipIgnored false place' right = (start', first :: rest') ∧
      Plain (first :: rest) ∧ Plain (first :: rest') ∧ glyphs false rest = glyphs false rest') := by
  have shape : ∀ {text : List Char}, Plain text → ∀ place,
      skipIgnored false place text =
        ((skipIgnored false place text).1, text.dropWhile isInsignificant) :=
    fun plain place => Prod.ext rfl (skipIgnored_plain plain place)
  have behind : ∀ {text rest : List Char} {first : Char},
      text.dropWhile isInsignificant = first :: rest → isInsignificant first = false := by
    intro text rest first dropped
    simpa [dropped] using List.head?_dropWhile_not isInsignificant text
  have within : ∀ {text rest : List Char} {first : Char}, Plain text →
      text.dropWhile isInsignificant = first :: rest → Plain (first :: rest) := by
    intro text rest first plain dropped
    exact plain.of_sublist (dropped ▸ List.dropWhile_sublist isInsignificant)
  have equal : glyphs true (left.dropWhile isInsignificant) =
      glyphs true (right.dropWhile isInsignificant) := by
    rw [glyphs_dropWhile true, glyphs_dropWhile true, same]
  rw [shape plain place, shape plain' place']
  cases dropped : left.dropWhile isInsignificant with
  | nil =>
    cases dropped' : right.dropWhile isInsignificant with
    | nil => exact Or.inl ⟨_, _, rfl, rfl⟩
    | cons first rest =>
      simp [dropped, dropped', glyphs, behind dropped'] at equal
  | cons first rest =>
    cases dropped' : right.dropWhile isInsignificant with
    | nil => simp [dropped, dropped', glyphs, behind dropped] at equal
    | cons first' rest' =>
      simp only [dropped, dropped', glyphs, behind dropped, behind dropped', Bool.false_eq_true,
        ↓reduceIte, List.cons.injEq, Glyph.mk.injEq, true_and] at equal
      obtain ⟨rfl, equal⟩ := equal
      exact Or.inr ⟨_, _, first, rest, rest', rfl, rfl, within plain dropped,
        within plain' dropped', equal⟩

/-- **Spacing is insignificant in plain texts.** Plain texts with the same glyphs have the
same tokens, places apart, and stop for the same reason. -/
theorem tokens_side_by_side {budget : Nat} {place place' : Place} {left right : List Char}
    (plain : Plain left) (plain' : Plain right) (same : glyphs true left = glyphs true right) :
    StreamsAlike (tokensFrom budget place left) (tokensFrom budget place' right) := by
  induction budget, place, left using stream_induction generalizing place' right with
  | ended budget place left stop =>
    generalize tokensFrom budget place left = stream at stop
    rcases skipped_side_by_side plain plain' same place place' with
      ⟨start, start', skips, skips'⟩ |
      ⟨start, start', first, rest, rest', skips, skips', inner, inner', same'⟩
    · rw [tokens_ended (.exhausted skips')]
      cases stop with
      | exhausted skipped => exact ⟨.nil, rfl⟩
      | unreadable skipped failed => cases skips.symm.trans skipped
      | tooDeep skipped found spent => cases skips.symm.trans skipped
    · have alike := lexeme_side_by_side inner inner' same'
      cases stop with
      | exhausted skipped => cases skips.symm.trans skipped
      | unreadable skipped failed =>
        cases skips.symm.trans skipped
        rw [failed] at alike
        rw [tokens_ended (.unreadable skips' alike.of_error)]
        exact ⟨.nil, rfl⟩
      | tooDeep skipped found spent =>
        cases skips.symm.trans skipped
        rw [found] at alike
        obtain ⟨behind, found', -⟩ := alike.of_ok
        rw [tokens_ended (.tooDeep skips' found' spent)]
        exact ⟨.nil, rfl⟩
  | step budget place left start first rest read remaining reads ih =>
    rcases skipped_side_by_side plain plain' same place place' with
      ⟨start, start', skips, skips'⟩ |
      ⟨start, start', first, rest, rest', skips, skips', inner, inner', same'⟩
    · cases skips.symm.trans reads.skipped
    · cases skips.symm.trans reads.skipped
      have alike := lexeme_side_by_side inner inner' same'
      rw [reads.found] at alike
      obtain ⟨behind, found', same''⟩ := alike.of_ok
      have reads' : Reads budget place' right start' first rest' { read with rest := behind }
          remaining :=
        ⟨skips', found', reads.budget⟩
      have loose := congrArg loosen same''
      rw [loosen_glyphs, loosen_glyphs] at loose
      have later : StreamsAlike _ (tokensFrom remaining (start'.past read.text) behind) :=
        ih (lexeme_plain inner reads.found) (lexeme_plain inner' found') loose
      rw [tokens_read reads, tokens_read reads']
      exact ⟨.cons ⟨rfl, rfl⟩ later.tokens, later.ending⟩

end QueryStore
