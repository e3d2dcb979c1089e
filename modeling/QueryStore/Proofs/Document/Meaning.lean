import QueryStore.Proofs.Fragment.Regular

/-! What a text means: the document that it is parsed into, locations apart. It is decided by the
tokens (`meaning_alike`), so that plain texts with one canonical form, such as a plain text and its
canonical form, mean the same (`normalize_preserves_meaning`). -/
namespace QueryStore
open Text Grammar

/-- The document that a text is parsed into, without locations; a text that is no document has no
meaning. -/
def Document.meaning (source : String) : Option Document :=
  (Document.parse ⟨false⟩ source).toOption.map (Document.strip false)

/-- The meaning is read from the text itself. -/
theorem meaning_eq (source : String) :
    Document.meaning source =
      (readDefinitions (.ofPositions source) source.toList).toOption.map fun found =>
        ⟨found.map (Definition.strip false), none⟩ := by
  have uncut : Document.prepare ⟨false⟩ source = .ok (source.toList, []) := rfl
  rw [Document.meaning, parse_eq, uncut]
  simp only []
  cases readDefinitions (.ofPositions source) source.toList with
  | error failure => rfl
  | ok found =>
    simp only [attach_nothing]
    rfl

/-- Texts whose tokens differ in their places only mean the same. -/
theorem meaning_alike {source other : String}
    (alike : StreamsAlike (.ofText source.toList) (.ofText other.toList)) :
    Document.meaning source = Document.meaning other := by
  have either := readDefinitions_isOk (.ofPositions source) (.ofPositions other) alike
  rw [meaning_eq, meaning_eq]
  cases read : readDefinitions (.ofPositions source) source.toList with
  | error failure =>
    cases read' : readDefinitions (.ofPositions other) other.toList with
    | error failure' => rfl
    | ok found' =>
      rw [read, read'] at either
      cases either
  | ok found =>
    obtain ⟨found', read', twins⟩ := readDefinitions_alike (.ofPositions other) alike read
    have same : found.map (Definition.strip false) = found'.map (Definition.strip false) :=
      forall₂_map_eq (twins.imp fun _ _ ⟨twin⟩ => twin.same)
    simp only [read', same, Except.toOption, Option.map_some]

private theorem squeeze_mem {gap : Bool} {text : List Char} {char : Char}
    (member : char ∈ squeeze gap text) : char = ' ' ∨ char ∈ text := by
  induction text generalizing gap with
  | nil => cases member
  | cons first rest ih =>
    unfold squeeze at member
    split at member
    · exact (ih member).imp_right (List.mem_cons_of_mem _)
    split at member
    · rcases List.mem_cons.mp member with space | member
      · exact Or.inl space
      rcases List.mem_cons.mp member with here | later
      · exact Or.inr (here ▸ List.mem_cons_self)
      · exact (ih later).imp_right (List.mem_cons_of_mem _)
    · rcases List.mem_cons.mp member with here | later
      · exact Or.inr (here ▸ List.mem_cons_self)
      · exact (ih later).imp_right (List.mem_cons_of_mem _)

/-- The canonical form of a plain text is plain. -/
theorem canonical_plain {text : List Char} (plain : Plain text) : Plain (canonical text) := by
  intro char member
  rcases squeeze_mem member with rfl | kept
  · decide
  · exact plain char ((List.dropWhile_sublist _).subset kept)

/-- Plain texts with one canonical form mean the same. -/
theorem meaning_of_normalize_eq {source other : String} (plain : Plain source.toList)
    (plain' : Plain other.toList) (same : normalize source = normalize other) :
    Document.meaning source = Document.meaning other :=
  meaning_alike (tokens_side_by_side plain plain' ((normalize_eq_iff _ _).mp same))

/-- **Normalization preserves meaning on plain text.** A text without quotes, comments and
byte-order marks, whose white space is that of the grammar, is accepted exactly if its canonical
form is, and both are the same document, locations apart; and so it is with any other such text of
that canonical form. -/
theorem normalize_preserves_meaning {source : String} (plain : Plain source.toList) :
    (Document.parse ⟨false⟩ (normalize source)).isOk = (Document.parse ⟨false⟩ source).isOk ∧
      Document.meaning (normalize source) = Document.meaning source ∧
      ∀ other : String, Plain other.toList → normalize other = normalize source →
        Document.meaning other = Document.meaning source := by
  have canonical : Plain (normalize source).toList := by
    rw [Text.normalize, String.toList_ofList]
    exact canonical_plain plain
  have same := meaning_of_normalize_eq canonical plain (normalize_normalize source)
  refine ⟨?_, same, fun other plain' => meaning_of_normalize_eq plain' plain⟩
  have isOk : ∀ text : String,
      (Document.parse ⟨false⟩ text).isOk = (Document.meaning text).isSome := by
    intro text
    rw [Document.meaning]
    cases Document.parse ⟨false⟩ text <;> rfl
  rw [isOk, isOk, same]

/-- Line ends, tabs and commas between numbers, spreads, names and punctuators. -/
theorem normalize_preserves_listing :
    let source := "\tquery Q($n: [Int!]=[-1,2.5e3])\r\n\x7b a(n:$n),...F\n... on T @d\x7bb\x7d \x7d"
    Plain source.toList ∧ Document.meaning (normalize source) = Document.meaning source ∧
      (Document.meaning source).isSome = true := by
  intro source
  have plain : Plain source.toList := by decide +kernel
  exact ⟨plain, (normalize_preserves_meaning plain).2.1, by decide +kernel⟩

end QueryStore
