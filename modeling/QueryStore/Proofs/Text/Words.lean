import QueryStore.Text.Words

/-! The canonical form of a text is its words with single spaces between them. The words are what
is left when a text is split at its insignificant characters (`words_eq_split`), so a separator
parts the words before it from those behind it (`words_append`), and joined words are read back
(`words_join`). No shorter text has the same words (`canonical_shortest`), which leaves no room for
a space at an end or for two in a row. -/
namespace QueryStore.Text

/-- A significant character belongs to the first part of a text. -/
private theorem split_visible {char : Char} (visible : ¬ isInsignificant char = true)
    (rest : List Char) : ∃ part parts, rest.splitOnP isInsignificant = part :: parts ∧
      (char :: rest).splitOnP isInsignificant = (char :: part) :: parts := by
  obtain ⟨part, parts, split⟩ :=
    List.exists_cons_of_ne_nil (List.splitOnP_ne_nil isInsignificant rest)
  refine ⟨part, parts, split, ?_⟩
  rw [List.splitOnP_cons_eq_if_modifyHead, if_neg visible, split, List.modifyHead_cons]

/-- The words are the parts between separators that are not empty. -/
theorem words_eq_split (text : List Char) :
    words text = (text.splitOnP isInsignificant).filter fun part => !part.isEmpty := by
  fun_induction words text with
  | case1 => rfl
  | case2 char rest blank ih =>
    rw [List.splitOnP_cons_eq_if_modifyHead, if_pos blank, ih]
    rfl
  | case3 char visible =>
    rw [List.splitOnP_cons_eq_if_modifyHead, if_neg visible]
    rfl
  | case4 char visible next rest blank ih =>
    rw [List.splitOnP_cons_eq_if_modifyHead, if_neg visible, ih,
      List.splitOnP_cons_eq_if_modifyHead, if_pos blank]
    rfl
  | case5 char visible next rest visible' none ih =>
    -- The next character is significant, so there are words.
    obtain ⟨part, parts, -, split⟩ := split_visible visible' rest
    rw [none, split] at ih
    cases ih
  | case6 char visible next rest visible' word others found ih =>
    obtain ⟨part, parts, split, split'⟩ := split_visible visible (next :: rest)
    obtain ⟨part', others', -, starts⟩ := split_visible visible' rest
    rw [found, split] at ih
    rw [found, split']
    obtain ⟨rfl, -⟩ := List.cons.inj (split.symm.trans starts)
    obtain ⟨rfl, rfl⟩ := List.cons.inj ih
    rfl

/-- A separator parts the words before it from those behind it. -/
theorem words_append {separator : Char} (separates : isInsignificant separator = true)
    (left right : List Char) : words (left ++ separator :: right) = words left ++ words right := by
  simp only [words_eq_split, List.splitOnP_append_cons left right separates, List.filter_append]

/-- Separators before a text are in no word. -/
theorem words_gap {gap : List Char} (separate : ∀ char ∈ gap, isInsignificant char = true)
    (text : List Char) : words (gap ++ text) = words text := by
  induction gap with
  | nil => rfl
  | cons char gap ih =>
    obtain ⟨here, later⟩ := List.forall_mem_cons.mp separate
    calc words (char :: gap ++ text) = words [] ++ words (gap ++ text) :=
          words_append here [] (gap ++ text)
      _ = words text := ih later

/-- A word is a run of significant characters, and has one at least. -/
def IsWord (word : List Char) : Prop := word ≠ [] ∧ ∀ char ∈ word, isInsignificant char = false

/-- A word alone has itself as its only word. -/
theorem words_word {word : List Char} (sound : IsWord word) : words word = [word] := by
  obtain ⟨filled, solid⟩ := sound
  rw [words_eq_split, List.splitOnP_eq_singleton solid]
  simp [filled]

theorem words_sound (text : List Char) : ∀ word ∈ words text, IsWord word := by
  have single : ∀ {char : Char}, ¬ isInsignificant char = true → IsWord [char] := by
    simp [IsWord]
  fun_induction words text with
  | case1 => simp
  | case2 char rest blank ih => exact ih
  | case3 char visible => exact List.forall_mem_singleton.mpr (single visible)
  | case4 char visible next rest blank ih => exact List.forall_mem_cons.mpr ⟨single visible, ih⟩
  | case5 char visible next rest visible' none ih =>
    rw [none]
    exact List.forall_mem_singleton.mpr (single visible)
  | case6 char visible next rest visible' word others found ih =>
    rw [found] at ih ⊢
    obtain ⟨⟨-, solid⟩, later⟩ := List.forall_mem_cons.mp ih
    refine List.forall_mem_cons.mpr ⟨⟨List.cons_ne_nil _ _, ?_⟩, later⟩
    exact List.forall_mem_cons.mpr ⟨by simpa using visible, solid⟩

/-- Words with single spaces between them. -/
def join (found : List (List Char)) : List Char := [' '].intercalate found

/-- Joined words are read back. -/
theorem words_join {found : List (List Char)} (sound : ∀ word ∈ found, IsWord word) :
    words (join found) = found := by
  induction found with
  | nil => rfl
  | cons word others ih =>
    obtain ⟨here, later⟩ := List.forall_mem_cons.mp sound
    cases others with
    | nil => rw [join, List.intercalate_singleton, words_word here]
    | cons next others =>
      rw [join, List.intercalate_cons_cons, List.append_assoc, List.singleton_append,
        words_append (by decide), words_word here]
      exact congrArg (word :: ·) (ih later)

/-- A significant character is written alike behind a separator, with a space before it. -/
theorem squeeze_true_cons {char : Char} (visible : ¬ isInsignificant char = true)
    (rest : List Char) : squeeze true (char :: rest) = ' ' :: squeeze false (char :: rest) := by
  rw [squeeze, squeeze, if_neg visible, if_neg visible]
  rfl

/-- Behind a separator every word is written with a space before it. -/
theorem squeeze_eq_words (text : List Char) :
    squeeze true text = (words text).flatMap (' ' :: ·) := by
  fun_induction words text with
  | case1 => rfl
  | case2 char rest blank ih => rw [squeeze, if_pos blank, ih]
  | case3 char visible => simp [squeeze, visible]
  | case4 char visible next rest blank ih =>
    simp only [squeeze, blank, ↓reduceIte] at ih
    simp [squeeze, visible, blank, ih]
  | case5 char visible next rest visible' none ih =>
    rw [none, squeeze_true_cons visible'] at ih
    cases ih
  | case6 char visible next rest visible' word others found ih =>
    rw [found, squeeze_true_cons visible', List.flatMap_cons, List.cons_append] at ih
    rw [found, squeeze, if_neg visible, if_pos rfl, List.cons.inj ih |>.2]
    rfl

/-- Without the first space, the canonical form is what is written behind a separator. -/
theorem canonical_eq_tail (text : List Char) : canonical text = (squeeze true text).tail := by
  induction text with
  | nil => rfl
  | cons char rest ih =>
    by_cases blank : isInsignificant char = true
    · rw [squeeze, if_pos blank, ← ih, canonical, canonical, List.dropWhile_cons_of_pos blank]
    · rw [squeeze_true_cons blank, canonical, List.dropWhile_cons_of_neg blank, List.tail_cons]

/-- The canonical form is the words with single spaces between them. -/
theorem canonical_eq_join (text : List Char) : canonical text = join (words text) := by
  have spaced : ∀ found : List (List Char), (found.flatMap (' ' :: ·)).tail = join found := by
    intro found
    induction found with
    | nil => rfl
    | cons word others ih =>
      cases others with
      | nil => simp [join]
      | cons next others =>
        rw [join, List.intercalate_cons_cons, ← join, ← ih]
        simp
  rw [canonical_eq_tail, squeeze_eq_words, spaced]

/-- The canonical form has the words of the text. -/
theorem words_canonical (text : List Char) : words (canonical text) = words text := by
  rw [canonical_eq_join, words_join (words_sound text)]

theorem squeeze_length_le (gap : Bool) (text : List Char) :
    (squeeze gap text).length ≤ text.length + gap.toNat := by
  induction text generalizing gap with
  | nil => exact Nat.zero_le _
  | cons char rest ih =>
    by_cases blank : isInsignificant char = true
    · -- What is saved on the separator pays for the space behind it.
      rw [squeeze, if_pos blank, List.length_cons, Nat.add_assoc]
      exact Nat.le_trans (ih true) (Nat.add_le_add_left (Nat.le_add_right 1 _) _)
    · have written : (squeeze false (char :: rest)).length ≤ (char :: rest).length := by
        rw [squeeze, if_neg blank]
        exact Nat.succ_le_succ (ih false)
      cases gap with
      | false => exact written
      | true =>
        rw [squeeze_true_cons blank]
        exact Nat.succ_le_succ written

/-- No text with the same words is shorter than the canonical form. -/
theorem canonical_shortest {text other : List Char} (same : words other = words text) :
    (canonical text).length ≤ other.length := by
  rw [canonical_eq_join, ← same, ← canonical_eq_join, canonical_eq_tail, List.length_tail]
  have bound := squeeze_length_le true other
  rw [Bool.toNat_true] at bound
  omega

/-- A separator that can be left out is in no canonical form. -/
theorem canonical_tight (text before after : List Char) {separator : Char}
    (separates : isInsignificant separator = true)
    (idle : words (before ++ after) = words before ++ words after) :
    canonical text ≠ before ++ separator :: after := by
  intro form
  have same : words (before ++ after) = words text := by
    rw [← words_canonical text, form, words_append separates, idle]
  have short := canonical_shortest same
  simp only [form, List.length_append, List.length_cons] at short
  omega

theorem squeeze_char {gap : Bool} {text : List Char} :
    ∀ char ∈ squeeze gap text, isInsignificant char = true → char = ' ' := by
  induction text generalizing gap with
  | nil => simp [squeeze]
  | cons first rest ih =>
    simp only [squeeze]
    split
    · exact ih
    · next visible =>
      have own : isInsignificant first = true → first = ' ' := fun blank => absurd blank visible
      split
      · exact List.forall_mem_cons.mpr ⟨fun _ => rfl, List.forall_mem_cons.mpr ⟨own, ih⟩⟩
      · exact List.forall_mem_cons.mpr ⟨own, ih⟩

/-- No canonical form begins or ends with a space or has two of them in a row. -/
theorem canonical_spaced (text : List Char) : (canonical text).head? ≠ some ' ' ∧
    (canonical text).getLast? ≠ some ' ' ∧ ¬ [' ', ' '] <:+: canonical text := by
  have space : isInsignificant ' ' = true := by decide
  refine ⟨?_, ?_, ?_⟩
  · intro first
    obtain ⟨after, form⟩ := List.head?_eq_some_iff.mp first
    exact canonical_tight text [] after space rfl form
  · intro last
    obtain ⟨before, form⟩ := List.getLast?_eq_some_iff.mp last
    refine canonical_tight text before [] space ?_ form
    rw [List.append_nil]
    exact (List.append_nil _).symm
  · rintro ⟨before, after, form⟩
    have idle : words ((before ++ [' ']) ++ after) = words (before ++ [' ']) ++ words after := by
      rw [List.append_assoc, List.singleton_append, words_append space, words_append space,
        List.append_assoc]
      rfl
    refine canonical_tight text (before ++ [' ']) after space idle ?_
    rw [← form, List.append_assoc, List.append_assoc]
    rfl

/-- **The canonical form is the words of a text with single spaces between them.** The words are
the runs of significant characters that are left when a text is split at all others. So two texts
have one canonical form exactly if they have the same words; the canonical form has the words of
the text and is its own canonical form; its only separators are spaces, none at an end and no two
in a row; and whatever gap is between two texts, their canonical forms may stand for them with one
space in its place. -/
theorem normal_form_of_words (text other : String) :
    words text.toList =
      (text.toList.splitOnP isInsignificant).filter (fun part => !part.isEmpty) ∧
    normalize text = " ".intercalate ((words text.toList).map String.ofList) ∧
    (normalize text = normalize other ↔ words text.toList = words other.toList) ∧
    normalize (normalize text) = normalize text ∧
    words (normalize text).toList = words text.toList ∧
    (normalize text).toList.head? ≠ some ' ' ∧ (normalize text).toList.getLast? ≠ some ' ' ∧
    ¬ [' ', ' '] <:+: (normalize text).toList ∧
    (∀ char ∈ (normalize text).toList, isInsignificant char = true → char = ' ') ∧
    ∀ gap : String, gap ≠ "" → (∀ char ∈ gap.toList, isInsignificant char = true) →
      normalize (text ++ gap ++ other) = normalize (normalize text ++ " " ++ normalize other) := by
  have form (text : String) : (normalize text).toList = canonical text.toList :=
    String.toList_ofList
  have kept (text : String) : words (normalize text).toList = words text.toList := by
    rw [form, words_canonical]
  have same_iff (left right : String) :
      normalize left = normalize right ↔ words left.toList = words right.toList := by
    constructor
    · intro same
      rw [← kept left, same, kept right]
    · intro same
      rw [normalize, normalize, canonical_eq_join, canonical_eq_join, same]
  obtain ⟨first, last, double⟩ := canonical_spaced text.toList
  refine ⟨words_eq_split _, ?_, same_iff text other, (same_iff _ _).mpr (kept text), kept text,
    form text ▸ first, form text ▸ last, form text ▸ double, ?_, ?_⟩
  · apply String.toList_inj.mp
    have texts : String.toList ∘ String.ofList = id := funext fun _ => String.toList_ofList
    rw [form, canonical_eq_join, String.toList_intercalate, List.map_map, texts, List.map_id]
    rfl
  · rw [form, canonical_eq_tail]
    exact fun char member => squeeze_char char (List.mem_of_mem_tail member)
  · intro gap filled separate
    obtain ⟨separator, rest, split⟩ :=
      List.exists_cons_of_ne_nil fun empty => filled (String.toList_eq_nil_iff.mp empty)
    rw [split, List.forall_mem_cons] at separate
    have space : " ".toList = [' '] := rfl
    rw [same_iff]
    simp only [String.toList_append, split, space, List.append_assoc, List.cons_append,
      List.nil_append]
    rw [words_append separate.1, words_gap separate.2, words_append (by decide), kept, kept]

/-- Texts apart by white space of three sorts, a byte-order mark and a comma. -/
theorem mixed_gap_joined : "\u3000\uFEFF,\t\n" ≠ "" ∧
    (∀ char ∈ "\u3000\uFEFF,\t\n".toList, isInsignificant char = true) ∧
    normalize (",\x7b é,, b" ++ "\u3000\uFEFF,\t\n" ++ "\r#c \x7d  ") =
      normalize (normalize ",\x7b é,, b" ++ " " ++ normalize "\r#c \x7d  ") ∧
    normalize ",\x7b é,, b" = "\x7b é b" := by
  have separate : ∀ char ∈ "\u3000\uFEFF,\t\n".toList, isInsignificant char = true :=
    List.all_eq_true.mp (by decide)
  obtain ⟨-, -, -, -, -, -, -, -, -, joined⟩ := normal_form_of_words ",\x7b é,, b" "\r#c \x7d  "
  exact ⟨by decide, separate, joined _ (by decide) separate, by decide⟩

end QueryStore.Text
