import QueryStore.Text.Words

/-! What normalization keeps of a text: its significant characters, and which of them stand
apart from the one before. Two texts have one canonical form exactly when they have the
same glyphs (`normalize_eq_iff`), and texts with the same glyphs can be gone through side by
side (`side_by_side`). -/
namespace QueryStore.Text

/-- A significant character; it stands apart when something insignificant precedes it. -/
structure Glyph where
  apart : Bool
  char : Char
deriving DecidableEq, Repr

/-- The glyphs of a text, given whether something insignificant precedes it. -/
def glyphs (apart : Bool) : List Char → List Glyph
  | [] => []
  | char :: rest =>
    if isInsignificant char then glyphs true rest else ⟨apart, char⟩ :: glyphs false rest

/-- A glyph as the canonical form writes it. -/
def Glyph.spell (glyph : Glyph) : List Char :=
  if glyph.apart then [' ', glyph.char] else [glyph.char]

/-- The first glyph set apart. -/
def loosen : List Glyph → List Glyph
  | [] => []
  | glyph :: rest => { glyph with apart := true } :: rest

/-- A text begins loosely when no significant character is its first. -/
def Loose (text : List Char) : Prop := ∀ char ∈ text.head?, isInsignificant char = true

theorem squeeze_eq_spell (apart : Bool) (text : List Char) :
    squeeze apart text = (glyphs apart text).flatMap Glyph.spell := by
  induction text generalizing apart with
  | nil => rfl
  | cons char rest ih =>
    by_cases blank : isInsignificant char = true
    · simp [squeeze, glyphs, blank, ih]
    · cases apart <;> simp [squeeze, glyphs, blank, ih, Glyph.spell]

theorem glyphs_significant {apart : Bool} {text : List Char} :
    ∀ glyph ∈ glyphs apart text, isInsignificant glyph.char = false := by
  induction text generalizing apart with
  | nil => simp [glyphs]
  | cons char rest ih =>
    by_cases blank : isInsignificant char = true
    · simpa [glyphs, blank] using ih
    · simpa [glyphs, blank] using ih

/-- The flag a text begins with concerns its first glyph only. -/
theorem loosen_glyphs (apart : Bool) (text : List Char) :
    loosen (glyphs apart text) = glyphs true text := by
  induction text generalizing apart with
  | nil => rfl
  | cons char rest ih =>
    by_cases blank : isInsignificant char = true
    · simpa [glyphs, blank] using ih true
    · simp [glyphs, blank, loosen]

theorem glyphs_dropWhile (apart : Bool) (text : List Char) :
    glyphs true (text.dropWhile isInsignificant) = loosen (glyphs apart text) := by
  rw [loosen_glyphs]
  induction text with
  | nil => rfl
  | cons char rest ih =>
    by_cases blank : isInsignificant char = true
    · simpa [glyphs, blank] using ih
    · simp [blank]

theorem loosen_length (shown : List Glyph) : (loosen shown).length = shown.length := by
  cases shown <;> rfl

/-- Text of significant characters alone has one glyph for each of them. -/
theorem glyphs_solid {apart : Bool} {text : List Char}
    (solid : ∀ char ∈ text, isInsignificant char = false) :
    (glyphs apart text).length = text.length := by
  induction text generalizing apart with
  | nil => rfl
  | cons char rest ih =>
    obtain ⟨here, later⟩ := List.forall_mem_cons.mp solid
    simp [glyphs, here, ih later]

private theorem spell_injective {left right : List Glyph}
    (leftSound : ∀ glyph ∈ left, isInsignificant glyph.char = false)
    (rightSound : ∀ glyph ∈ right, isInsignificant glyph.char = false)
    (same : left.flatMap Glyph.spell = right.flatMap Glyph.spell) : left = right := by
  have space : isInsignificant ' ' = true := by decide
  induction left generalizing right with
  | nil =>
    cases right with
    | nil => rfl
    | cons glyph rest =>
      simp only [Glyph.spell, List.flatMap_nil, List.flatMap_cons] at same
      split at same <;> simp at same
  | cons first rest ih =>
    cases right with
    | nil =>
      simp only [Glyph.spell, List.flatMap_nil, List.flatMap_cons] at same
      split at same <;> simp at same
    | cons second others =>
      obtain ⟨apart, char⟩ := first
      obtain ⟨apart', char'⟩ := second
      obtain ⟨visible, leftSound⟩ := List.forall_mem_cons.mp leftSound
      obtain ⟨visible', rightSound⟩ := List.forall_mem_cons.mp rightSound
      have step := ih leftSound rightSound
      simp only [] at visible visible'
      cases apart <;> cases apart' <;>
        simp only [Glyph.spell, List.flatMap_cons, List.cons_append, List.nil_append,
          List.cons.injEq, ↓reduceIte, Bool.false_eq_true] at same
      · obtain ⟨rfl, same⟩ := same
        rw [step same]
      · rw [same.1, space] at visible
        exact absurd visible (by decide)
      · rw [← same.1, space] at visible'
        exact absurd visible' (by decide)
      · obtain ⟨-, rfl, same⟩ := same
        rw [step same]

/-- The canonical form keeps the glyphs, and nothing else. -/
theorem canonical_eq_iff (left right : List Char) :
    canonical left = canonical right ↔ glyphs true left = glyphs true right := by
  simp only [canonical, squeeze_eq_spell]
  constructor
  · intro same
    have equal := spell_injective glyphs_significant glyphs_significant same
    have loose := congrArg loosen equal
    rwa [loosen_glyphs, loosen_glyphs, glyphs_dropWhile true, glyphs_dropWhile true,
      loosen_glyphs, loosen_glyphs] at loose
  · intro same
    have loose : ∀ text : List Char, glyphs false (text.dropWhile isInsignificant) =
        match glyphs true text with
        | [] => []
        | glyph :: rest => { glyph with apart := false } :: rest := by
      intro text
      rw [← loosen_glyphs true text, ← glyphs_dropWhile true]
      cases dropped : text.dropWhile isInsignificant with
      | nil => rfl
      | cons char rest =>
        have visible : isInsignificant char = false := by
          have head := List.head?_dropWhile_not isInsignificant text
          simpa [dropped] using head
        simp [glyphs, visible]
    rw [loose left, loose right, same]

theorem normalize_eq_iff (left right : String) :
    normalize left = normalize right ↔ glyphs true left.toList = glyphs true right.toList := by
  rw [← canonical_eq_iff, normalize, normalize, String.ofList_inj]

private theorem glyphs_spell {shown : List Glyph}
    (sound : ∀ glyph ∈ shown, isInsignificant glyph.char = false) :
    glyphs false (shown.flatMap Glyph.spell) = shown := by
  have space : isInsignificant ' ' = true := by decide
  induction shown with
  | nil => rfl
  | cons glyph rest ih =>
    obtain ⟨apart, char⟩ := glyph
    obtain ⟨visible, others⟩ := List.forall_mem_cons.mp sound
    simp only [] at visible
    cases apart <;> simp [Glyph.spell, glyphs, visible, space, ih others]

/-- The canonical form of a text has the glyphs of the text. -/
theorem glyphs_canonical (text : List Char) : glyphs true (canonical text) = glyphs true text := by
  rw [canonical, squeeze_eq_spell, ← loosen_glyphs false, glyphs_spell glyphs_significant,
    loosen_glyphs, glyphs_dropWhile true, loosen_glyphs]

/-- A canonical form is its own canonical form. -/
theorem normalize_normalize (text : String) : normalize (normalize text) = normalize text := by
  rw [normalize_eq_iff, normalize, String.toList_ofList, glyphs_canonical]

private theorem glyphs_true_head (text : List Char) :
    ∀ glyph ∈ (glyphs true text).head?, glyph.apart = true := by
  induction text with
  | nil => simp [glyphs]
  | cons char rest ih =>
    by_cases blank : isInsignificant char = true
    · simpa [glyphs, blank] using ih
    · simp [glyphs, blank]

/-- Texts with the same glyphs either go on with the same significant character, or both
begin loosely. -/
theorem side_by_side {left right : List Char} (same : glyphs false left = glyphs false right) :
    (∃ char left' right', isInsignificant char = false ∧ left = char :: left' ∧
      right = char :: right' ∧ glyphs false left' = glyphs false right') ∨
    (Loose left ∧ Loose right) := by
  have tight : ∀ {char : Char} {rest other : List Char}, isInsignificant char = false →
      glyphs false (char :: rest) = glyphs false other → ¬ Loose other := by
    intro char rest other visible same loose
    cases other with
    | nil => simp [glyphs, visible] at same
    | cons first others =>
      have blank : isInsignificant first = true := loose first rfl
      simp only [glyphs, visible, blank, Bool.false_eq_true, ↓reduceIte] at same
      have head := glyphs_true_head others
      rw [← same] at head
      simpa using head ⟨false, char⟩ rfl
  by_cases leftLoose : Loose left
  · by_cases rightLoose : Loose right
    · exact Or.inr ⟨leftLoose, rightLoose⟩
    · cases right with
      | nil => exact absurd (by simp [Loose]) rightLoose
      | cons char rest =>
        have visible : isInsignificant char = false := by simpa [Loose] using rightLoose
        exact absurd leftLoose (tight visible same.symm)
  · cases left with
    | nil => exact absurd (by simp [Loose]) leftLoose
    | cons char rest =>
      have visible : isInsignificant char = false := by simpa [Loose] using leftLoose
      cases right with
      | nil => exact absurd (by simp [Loose]) (tight visible same)
      | cons other others =>
        have visible' : isInsignificant other = false := by
          simpa [Loose] using tight visible same
        simp only [glyphs, visible, visible', Bool.false_eq_true, ↓reduceIte, List.cons.injEq,
          Glyph.mk.injEq, true_and] at same
        obtain ⟨rfl, same⟩ := same
        exact Or.inl ⟨char, rest, others, visible, rfl, rfl, same⟩

/-- A run of characters that stops where a text is loose is the same in texts with the same
glyphs, and so is what follows it. -/
theorem takeWhile_side_by_side {p : Char → Bool} {left right : List Char}
    (stops : ∀ char, isInsignificant char = true → char ∈ left ∨ char ∈ right → p char = false)
    (same : glyphs false left = glyphs false right) :
    left.takeWhile p = right.takeWhile p ∧
      glyphs false (left.dropWhile p) = glyphs false (right.dropWhile p) := by
  have halted : ∀ {text : List Char}, Loose text →
      (∀ char, isInsignificant char = true → char ∈ text → p char = false) →
      text.takeWhile p = [] ∧ text.dropWhile p = text := by
    intro text loose stops
    cases text with
    | nil => exact ⟨rfl, rfl⟩
    | cons char rest =>
      have stop := stops char (loose char rfl) (by simp)
      simp [stop]
  induction left generalizing right with
  | nil =>
    rcases side_by_side same with ⟨char, _, _, _, first, _⟩ | ⟨-, loose⟩
    · cases first
    · obtain ⟨taken, dropped⟩ := halted loose fun char blank member =>
        stops char blank (Or.inr member)
      rw [taken, dropped]
      exact ⟨rfl, same⟩
  | cons first rest ih =>
    rcases side_by_side same with ⟨char, left', right', -, split, rfl, same'⟩ | ⟨loose, loose'⟩
    · cases split
      by_cases goes : p first = true
      · have step := ih (fun other blank member => stops other blank
          (member.imp (List.mem_cons_of_mem _) (List.mem_cons_of_mem _))) same'
        simpa [goes] using step
      · simpa [goes] using same
    · obtain ⟨taken, dropped⟩ := halted loose fun char blank member =>
        stops char blank (Or.inl member)
      obtain ⟨taken', dropped'⟩ := halted loose' fun char blank member =>
        stops char blank (Or.inr member)
      rw [taken, dropped, taken', dropped']
      exact ⟨rfl, same⟩

/-- Whether what follows a text stands apart. -/
def endsApart (apart : Bool) (text : List Char) : Bool :=
  match text.getLast? with
  | none => apart
  | some char => isInsignificant char

theorem glyphs_append (apart : Bool) (left right : List Char) :
    glyphs apart (left ++ right) = glyphs apart left ++ glyphs (endsApart apart left) right := by
  induction left generalizing apart with
  | nil => rfl
  | cons char rest ih =>
    have last : ∀ before : Bool, before = isInsignificant char →
        endsApart before rest = endsApart apart (char :: rest) := by
      rintro before rfl
      cases rest with
      | nil => rfl
      | cons next others => simp [endsApart, List.getLast?_eq_some_getLast]
    by_cases blank : isInsignificant char = true
    · simp [glyphs, blank, ih, last true blank.symm]
    · have visible : isInsignificant char = false := by simpa using blank
      simp [glyphs, visible, ih, last false visible.symm]

/-- A separator parts what is before it from what is behind. -/
theorem squeeze_append {separator : Char} (separates : isInsignificant separator = true) (gap : Bool)
    (left right : List Char) :
    squeeze gap (left ++ separator :: right) = squeeze gap left ++ squeeze true right := by
  induction left generalizing gap with
  | nil => simp [squeeze, separates]
  | cons char left ih =>
    rw [List.cons_append, squeeze.eq_2, squeeze.eq_2, ih, ih]
    split
    · rfl
    · split <;> rfl

/-- Behind a separator a text is written with a space before it, unless it has no words. -/
theorem squeeze_behind {text : List Char} (filled : canonical text ≠ []) :
    squeeze true text = ' ' :: canonical text := by
  induction text with
  | nil => exact absurd rfl filled
  | cons char text ih =>
    by_cases blank : isInsignificant char = true
    · have same : canonical (char :: text) = canonical text := by simp [canonical, blank]
      rw [same] at filled ⊢
      rw [squeeze, if_pos blank, ih filled]
    · simp [squeeze, canonical, blank]

/-- Texts behind one another have their canonical forms behind one another. -/
theorem canonical_append {separator : Char} (separates : isInsignificant separator = true)
    {left right : List Char} (filled : canonical left ≠ []) (filled' : canonical right ≠ []) :
    canonical (left ++ separator :: right) = canonical left ++ ' ' :: canonical right := by
  have begins : left.dropWhile isInsignificant ≠ [] := by
    intro none
    exact filled (by rw [canonical, none]; rfl)
  rw [canonical, List.dropWhile_append, if_neg (by simpa using begins), squeeze_append separates,
    squeeze_behind filled']
  rfl

/-- A text with a significant character has words. -/
theorem canonical_filled {text : List Char} {char : Char} (member : char ∈ text)
    (significant : isInsignificant char = false) : canonical text ≠ [] := by
  obtain ⟨before, after, rfl⟩ := List.append_of_mem member
  intro none
  have glyphs' := glyphs_canonical (before ++ char :: after)
  rw [none, glyphs_append] at glyphs'
  simp [glyphs, significant] at glyphs'

/-- The canonical form of texts on lines of their own, which all have words. -/
theorem normalize_lines {texts : List String} (some : texts ≠ [])
    (filled : ∀ text ∈ texts, canonical text.toList ≠ []) :
    canonical ("\n".intercalate texts).toList ≠ [] ∧
      normalize ("\n".intercalate texts) = " ".intercalate (texts.map normalize) := by
  induction texts with
  | nil => exact absurd rfl some
  | cons first texts ih =>
    obtain ⟨here, others⟩ := List.forall_mem_cons.mp filled
    cases texts with
    | nil =>
      rw [List.map_singleton, String.intercalate_singleton, String.intercalate_singleton]
      exact ⟨here, rfl⟩
    | cons second texts =>
      obtain ⟨filled', same⟩ := ih (List.cons_ne_nil _ _) others
      rw [List.map_cons] at same
      rw [List.map_cons, List.map_cons, String.intercalate_cons_cons, String.intercalate_cons_cons,
        ← same]
      generalize "\n".intercalate (second :: texts) = rest at filled' ⊢
      have whole : canonical (first ++ "\n" ++ rest).toList =
          canonical first.toList ++ ' ' :: canonical rest.toList := by
        rw [String.toList_append, String.toList_append, List.append_assoc]
        exact canonical_append (by decide) here filled'
      refine ⟨by rw [whole]; exact List.append_ne_nil_of_left_ne_nil here _, ?_⟩
      apply String.toList_inj.mp
      rw [normalize, whole, String.toList_ofList]
      simp [normalize]

/-- A plain text has no quotes and no comments, and its separators are the comma and the
white space of the grammar. -/
def Plain (text : List Char) : Prop :=
  ∀ char ∈ text, char ≠ '\x22' ∧ char ≠ '#' ∧ char ≠ '\uFEFF' ∧
    (isBlank char = true → char = ' ' ∨ char = '\t' ∨ char = '\n' ∨ char = '\r')

instance (text : List Char) : Decidable (Plain text) := List.decidableBAll _ text

theorem Plain.separator {text : List Char} (plain : Plain text) {char : Char}
    (member : char ∈ text) (blank : isInsignificant char = true) :
    char = ',' ∨ char = ' ' ∨ char = '\t' ∨ char = '\n' ∨ char = '\r' := by
  obtain ⟨-, -, noMark, spaces⟩ := plain char member
  simp only [isInsignificant, Bool.or_eq_true, decide_eq_true_eq] at blank
  rcases blank with (comma | mark) | white
  · exact Or.inl comma
  · exact absurd mark noMark
  · exact Or.inr (spaces white)

theorem Plain.of_sublist {text part : List Char} (plain : Plain text)
    (within : part.Sublist text) : Plain part :=
  fun char member => plain char (within.subset member)

end QueryStore.Text
