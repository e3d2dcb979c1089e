import QueryStore.Proofs.Fragment.Faithful

/-! Regular texts: plain and faithful, with no list of variables cut out, such as plain and
straight texts (`straight_regular`). Among them the canonical form decides what a text comes
to (`regular_parse`), and the canonical form of its own text decides what a fragment is
(`spelled_same`). -/
namespace QueryStore
open Text Grammar

/-- A plain text that is read as it is and whose fragments are known by their own texts. -/
structure Regular (options : SessionOptions) (source : String) : Prop where
  plain : Plain source.toList
  uncut : Document.prepare ⟨options.fragmentVariables⟩ source = .ok (source.toList, [])
  faithful : Faithful options source

/-- Plain and straight texts are regular, unless variables of fragments are enabled. -/
theorem straight_regular {options : SessionOptions} {source : String}
    (off : options.fragmentVariables = false) (plain : Plain source.toList)
    (straight : Straight source.toList) : Regular options source where
  plain := plain
  uncut := by simp [Document.prepare, off]
  faithful := straight_faithful options straight

/-- A plain text without tabs and carriage returns. -/
def Simple (text : List Char) : Prop := Plain text ∧ ∀ char ∈ text, char ≠ '\t' ∧ char ≠ '\r'

instance (text : List Char) : Decidable (Simple text) :=
  @instDecidableAnd _ _ _ (List.decidableBAll _ text)

theorem Simple.straight {text : List Char} (simple : Simple text) : Straight text :=
  straight_of_unmarked fun char member =>
    ⟨(simple.2 char member).1, (simple.2 char member).2, (simple.1 char member).2.2.1⟩

theorem Simple.regular {options : SessionOptions} {source : String}
    (simple : Simple source.toList) (off : options.fragmentVariables = false) :
    Regular options source :=
  straight_regular off simple.1 simple.straight

theorem attach_nothing (found : List Definition) : attachVariables [] found = found := by
  induction found with
  | nil => rfl
  | cons definition found ih =>
    cases definition with
    | operation operation => exact congrArg (Definition.operation operation :: ·) ih
    | fragment fragment =>
      have none : (fragment.location.bind fun location =>
          ([] : VariableTable).lookup location.start) = none := by
        cases fragment.location <;> rfl
      unfold attachVariables
      rw [none]
      exact congrArg (Definition.fragment fragment :: ·) ih

/-- Without variables of fragments, a text is read as it is. -/
theorem read_of_parse {source : String} {document : Document}
    (parsed : Document.parse ⟨false⟩ source = .ok document) :
    readDefinitions (.ofPositions source) source.toList = .ok document.definitions := by
  obtain ⟨text, table, found, prepared, read, rfl⟩ := parse_ok parsed
  obtain ⟨rfl, rfl⟩ : source.toList = text ∧ [] = table := by
    simpa [Document.prepare] using prepared
  rw [attach_nothing]
  exact read

/-- An own text that a fragment was read from. -/
structure Spelled (own : List Char) (fragment : Fragment) : Prop where
  plain : Plain own
  reads : ∃ budget place locator size others,
    (tokensFrom budget place own).ending = .endOfInput ∧
    definition locator size ((tokensFrom budget place own).tokens ++ others) =
      .ok (.fragment fragment, others)

/-- Fragments that are spelled alike differ in their locations only. -/
theorem spelled_same {own own' : List Char} {fragment fragment' : Fragment}
    (spelled : Spelled own fragment) (spelled' : Spelled own' fragment')
    (same : canonical own = canonical own') : fragment.strip false = fragment'.strip false := by
  obtain ⟨plain, budget, place, locator, size, others, ended, read⟩ := spelled
  obtain ⟨plain', budget', place', locator', size', others', ended', read'⟩ := spelled'
  have alike : StreamsAlike (tokensFrom (budget + budget') place own)
      (tokensFrom (budget + budget') place' own') :=
    tokens_side_by_side plain plain' ((canonical_eq_iff own own').mp same)
  rw [tokens_budget budget' ended, Nat.add_comm, tokens_budget budget ended'] at alike
  simpa [SameDefinition, Definition.strip] using segments_same read read' alike.tokens

section
variable {options options' : SessionOptions} {source source' : String}

/-- What a regular text is read as, by positions and exactly. -/
theorem regular_read (regular : Regular options source) {document : Document}
    (parsed : Document.parse ⟨options.fragmentVariables⟩ source = .ok document) :
    readDefinitions (.ofPositions source) source.toList = .ok document.definitions := by
  rw [parse_eq, regular.uncut] at parsed
  simp only [] at parsed
  split at parsed
  · cases parsed
  · next found read =>
    cases parsed
    rw [read, attach_nothing]

theorem regular_ownTexts (regular : Regular options source) {found : List Definition}
    (read : readDefinitions (.exact source) source.toList = .ok found) :
    ownTexts ⟨options.fragmentVariables⟩ source = (fragmentsOf found).map fun fragment =>
      (fragment.name, ownText source.toList source.toList fragment) := by
  unfold ownTexts
  rw [regular.uncut]
  simp only [String.ofList_toList, read]

private theorem own_exact {fragment : Fragment} (stretch : Stretch source.toList)
    (location : fragment.location = (Locator.exact source).node stretch.keyword stretch.closing) :
    ownText source.toList source.toList fragment = stretch.span.own := by
  rw [← stretch.ownIn_self]
  apply ownText_eq stretch source.toList
  rw [location, String.ofList_toList]

/-- The fragments of a regular text, with the names and keys that are found: a key is the canonical
form of the own text of its fragment. -/
theorem regular_keys (regular : Regular options source) {document : Document}
    (parsed : Document.parse ⟨options.fragmentVariables⟩ source = .ok document) :
    List.Forall₂ (fun fragment entry => ∃ own, Spelled own fragment ∧
        (fragment.name, String.ofList (canonical own)) = entry)
      (fragmentsOf document.definitions) (Parser.standard.found options source) := by
  have alike : StreamsAlike (.ofText source.toList) (.ofText source.toList) :=
    ⟨Reader.alike_refl _, rfl⟩
  obtain ⟨found, read, twins⟩ :=
    readDefinitions_alike (.exact source) alike (regular_read regular parsed)
  rw [regular.faithful, ownKeys, regular_ownTexts regular read, List.map_map,
    List.forall₂_map_right_iff]
  refine (fragments_stand twins).imp ?_
  rintro fragment other ⟨twin⟩
  obtain ⟨size, others, reads⟩ := twin.reads
  obtain ⟨budget, tokens, ended⟩ := twin.here.span.inside
  refine ⟨twin.here.span.own, ⟨regular.plain.of_sublist twin.here.own_sublist, budget,
    twin.here.span.start, .ofPositions source, size, others, ended, ?_⟩, ?_⟩
  · rw [tokens]
    exact reads
  · have name : (fragment.strip false).name = (other.strip false).name :=
      congrArg Fragment.name twin.same
    simp only [Function.comp_apply, own_exact twin.here twin.one]
    exact Prod.ext name rfl

/-- The own text of a fragment of a regular text, whose canonical form is its key. -/
theorem regular_spelled (regular : Regular options source) {document : Document}
    (parsed : Document.parse ⟨options.fragmentVariables⟩ source = .ok document)
    {fragment : Fragment} (member : fragment ∈ fragmentsOf document.definitions) :
    ∃ own, Spelled own fragment ∧ (fragment.name, String.ofList (canonical own)) ∈
      Parser.standard.found options source := by
  obtain ⟨entry, found, own, spelled, rfl⟩ := forall₂_mem_left (regular_keys regular parsed) member
  exact ⟨own, spelled, found⟩

/-- In a regular text one key is found under one name. -/
theorem regular_named (regular : Regular options source) {name other key : String}
    (found : (name, key) ∈ Parser.standard.found options source)
    (found' : (other, key) ∈ Parser.standard.found options source) : name = other := by
  cases parsed : Document.parse ⟨options.fragmentVariables⟩ source with
  | error failure => simp [Parser.found, Parser.read, Parser.standard, parsed, Except.map] at found
  | ok document =>
    have keys := (regular_keys regular parsed).flip
    obtain ⟨fragment, -, own, spelled, entry⟩ := forall₂_mem_left keys found
    obtain ⟨fragment', -, own', spelled', entry'⟩ := forall₂_mem_left keys found'
    obtain ⟨rfl, rfl⟩ := Prod.mk.inj entry
    obtain ⟨rfl, same⟩ := Prod.mk.inj entry'
    have name : (fragment.strip false).name = (fragment'.strip false).name :=
      congrArg Fragment.name (spelled_same spelled spelled' (String.ofList_injective same.symm))
    exact name

variable (regular : Regular options source) (regular' : Regular options' source')
  (same : Text.normalize source = Text.normalize source')
include regular regular' same

/-- Regular texts of one canonical form are both parsed or neither is, and into the same
definitions. -/
theorem regular_parse {document : Document}
    (parsed : Document.parse ⟨options.fragmentVariables⟩ source = .ok document) :
    ∃ document', Document.parse ⟨options'.fragmentVariables⟩ source' = .ok document' ∧
      List.Forall₂ SameDefinition document.definitions document'.definitions := by
  have alike : StreamsAlike (.ofText source.toList) (.ofText source'.toList) :=
    tokens_side_by_side regular.plain regular'.plain ((normalize_eq_iff _ _).mp same)
  obtain ⟨found, read, twins⟩ :=
    readDefinitions_alike (.ofPositions source') alike (regular_read regular parsed)
  refine ⟨_, parse_of_read regular'.uncut read, ?_⟩
  rw [attach_nothing]
  exact twins.imp fun _ _ ⟨twin⟩ => twin.same

/-- In regular texts of one canonical form the same keys are found. -/
theorem regular_found :
    Parser.standard.found options source = Parser.standard.found options' source' := by
  have glyphs := (normalize_eq_iff _ _).mp same
  have alike : StreamsAlike (.ofText source.toList) (.ofText source'.toList) :=
    tokens_side_by_side regular.plain regular'.plain glyphs
  rw [regular.faithful, regular'.faithful, ownKeys, ownKeys]
  have either := readDefinitions_isOk (.exact source) (.exact source') alike
  cases read : readDefinitions (.exact source) source.toList with
  | error failure =>
    cases read' : readDefinitions (.exact source') source'.toList with
    | error failure' =>
      unfold ownTexts
      rw [regular.uncut, regular'.uncut]
      simp only [String.ofList_toList, read, read']
    | ok found' =>
      rw [read, read'] at either
      cases either
  | ok found =>
    obtain ⟨found', read', twins⟩ := readDefinitions_alike (.exact source') alike read
    rw [regular_ownTexts regular read, regular_ownTexts regular' read', List.map_map, List.map_map]
    refine forall₂_map_eq ((fragments_stand twins).imp ?_)
    rintro left right ⟨twin⟩
    have name := congrArg Fragment.name twin.same
    have own := spans_side_by_side regular.plain regular'.plain glyphs twin.earlier twin.inside
      twin.here.span twin.there.span
    rw [← canonical_eq_iff] at own
    simp only [Function.comp_apply, own_exact twin.here twin.location,
      own_exact twin.there twin.location', own]
    exact Prod.ext name rfl

end
end QueryStore
