import QueryStore.Proofs.Fragment.OwnTexts
import QueryStore.Proofs.Retained
import QueryStore.Proofs.Session.Answers

/-! Texts whose fragments are known by their own texts. The key of a fragment is made of what
its lines and columns lead to in the source, which need not be its own text. A text is
faithful when it is; straight texts are (`straight_faithful`). -/
namespace QueryStore
open Text Grammar

/-- The fragments among definitions. -/
def fragmentsOf (found : List Definition) : List Fragment := found.filterMap Definition.asFragment

theorem fragmentsOf_append (left right : List Definition) :
    fragmentsOf (left ++ right) = fragmentsOf left ++ fragmentsOf right := List.filterMap_append

theorem mem_fragmentsOf {found : List Definition} {fragment : Fragment} :
    fragment ∈ fragmentsOf found ↔ Definition.fragment fragment ∈ found := by
  rw [fragmentsOf, List.mem_filterMap]
  constructor
  · rintro ⟨definition, member, same⟩
    cases definition with
    | operation operation => cases same
    | fragment other =>
      cases same
      exact member
  · intro member
    exact ⟨_, member, rfl⟩

/-- The own texts of the fragments of a source, with their names. -/
def ownTexts (options : ParseOptions) (source : String) : List (String × List Char) :=
  match Document.prepare options source with
  | .error _ => []
  | .ok (text, _) =>
    match readDefinitions (.exact (String.ofList text)) text with
    | .error _ => []
    | .ok found => (fragmentsOf found).map fun fragment =>
        (fragment.name, ownText source.toList text fragment)

/-- The names of the fragments of a source with the canonical forms of their own texts. -/
def ownKeys (options : ParseOptions) (source : String) : List (String × String) :=
  (ownTexts options source).map fun own => (own.1, String.ofList (canonical own.2))

/-- A source in which every fragment is known by its own text. -/
def Faithful (options : SessionOptions) (source : String) : Prop :=
  Parser.standard.found options source = ownKeys ⟨options.fragmentVariables⟩ source

/-- Fragments that stand in corresponding stretches of two texts. -/
structure FragmentTwins (locator locator' : Locator) (text text' : List Char)
    (left right : Fragment) where
  here : Stretch text
  there : Stretch text'
  location : left.location = locator.node here.keyword here.closing
  location' : right.location = locator'.node there.keyword there.closing
  reads : ∃ size others, definition locator size (here.taken ++ others) =
    .ok (.fragment left, others)
  earlier : List.Forall₂ Token.Alike here.first there.first
  inside : List.Forall₂ Token.Alike here.taken there.taken
  same : left.strip false = right.strip false

section
variable {locator locator' : Locator} {text text' : List Char}

private theorem twins_stand {size size' : Nat} {left right : Fragment}
    (twins : Twins locator locator' size size' (TokenStream.ofText text).tokens
      (TokenStream.ofText text').tokens (.fragment left) (.fragment right)) :
    Nonempty (FragmentTwins locator locator' text text' left right) := by
  obtain ⟨keyword, inner, closing, taken, brace, location⟩ := fragment_tokens twins.read
  obtain ⟨keyword', inner', closing', taken', brace', location'⟩ := fragment_tokens twins.read'
  have split := twins.split
  have split' := twins.split'
  have inside := twins.inside
  rw [taken] at split inside
  rw [taken'] at split' inside
  obtain ⟨here, first, all, rfl, rfl⟩ := tokens_stand brace split
  obtain ⟨there, first', all', rfl, rfl⟩ := tokens_stand brace' split'
  refine ⟨here, there, location, location', ⟨size, twins.others, ?_⟩, ?_, ?_, ?_⟩
  · rw [all, ← taken]
    exact twins.read
  · rw [first, first']
    exact twins.earlier
  · rw [all, all']
    exact inside
  · simpa [SameDefinition, Definition.strip] using twins.same

/-- The fragments among corresponding definitions stand in corresponding stretches. -/
theorem fragments_stand {size size' : Nat} {found found' : List Definition}
    (twins : List.Forall₂ (fun left right => Nonempty (Twins locator locator' size size'
      (TokenStream.ofText text).tokens (TokenStream.ofText text').tokens left right)) found found') :
    List.Forall₂ (fun left right => Nonempty (FragmentTwins locator locator' text text' left right))
      (fragmentsOf found) (fragmentsOf found') := by
  induction twins with
  | nil => exact .nil
  | @cons left right found found' twin _ ih =>
    obtain ⟨twin⟩ := twin
    have same := twin.same
    cases left with
    | operation operation =>
      cases right with
      | operation operation' => exact ih
      | fragment fragment => cases same
    | fragment fragment =>
      cases right with
      | operation operation => cases same
      | fragment fragment' => exact .cons (twins_stand twin) ih

/-- In one text, corresponding fragments stand in one stretch. -/
theorem FragmentTwins.one {left right : Fragment}
    (twins : FragmentTwins locator locator' text text left right) :
    right.location = locator'.node twins.here.keyword twins.here.closing := by
  obtain ⟨others, split⟩ := twins.here.split
  obtain ⟨others', split'⟩ := twins.there.split
  rw [split] at split'
  obtain ⟨-, later⟩ := List.append_inj split' twins.earlier.length_eq
  obtain ⟨taken, -⟩ := List.append_inj later twins.inside.length_eq
  have keywords : twins.here.keyword = twins.there.keyword := by
    have head := twins.here.head
    rw [taken, twins.there.head] at head
    exact (Option.some.inj head).symm
  have closings : twins.here.closing = twins.there.closing := by
    have last := twins.here.last
    rw [taken, twins.there.last] at last
    exact (Option.some.inj last).symm
  rw [twins.location', keywords, closings]

end

theorem forall₂_map_eq {α β γ : Type} {f : α → γ} {g : β → γ} {left : List α} {right : List β}
    (same : List.Forall₂ (fun one other => f one = g other) left right) :
    left.map f = right.map g := by
  rw [← List.forall₂_eq_eq_eq, List.forall₂_map_left_iff, List.forall₂_map_right_iff]
  exact same

theorem forall₂_mem_left {α β : Type} {R : α → β → Prop} {left : List α} {right : List β}
    (related : List.Forall₂ R left right) {one : α} (member : one ∈ left) :
    ∃ other ∈ right, R one other := by
  induction related with
  | nil => cases member
  | cons here _ ih =>
    rcases List.mem_cons.mp member with rfl | later
    · exact ⟨_, List.mem_cons_self, here⟩
    · obtain ⟨other, member', there⟩ := ih later
      exact ⟨other, List.mem_cons_of_mem _ member', there⟩

/-- The name of a fragment and its key. -/
def Fragment.entry (fragment : Fragment) : String × String :=
  (fragment.name, fragment.key?.getD "")

/-- The fragments of a text are observed under their names and keys. -/
theorem keyed_entries {found : List Definition} {keyed : List KeyedDefinition}
    (keys : keyDefinitions found = .ok keyed) :
    observations keyed = (fragmentsOf found).map Fragment.entry := by
  induction found generalizing keyed with
  | nil =>
    cases keys
    rfl
  | cons definition found ih =>
    cases definition with
    | operation operation =>
      obtain ⟨others, later, rfl⟩ := keyed_operation.mp keys
      have rest := ih later
      exact rest
    | fragment fragment =>
      obtain ⟨key, others, own, later, rfl⟩ := keyed_fragment.mp keys
      have here : fragment.entry = (fragment.name, key) := by simp [Fragment.entry, own]
      simp only [observations, ih later, ← here]
      rfl

theorem keyed_of_all {found : List Definition}
    (all : ∀ fragment ∈ fragmentsOf found, fragment.key?.isSome = true) :
    ∃ keyed, keyDefinitions found = .ok keyed := by
  induction found with
  | nil => exact ⟨[], rfl⟩
  | cons definition found ih =>
    cases definition with
    | operation operation =>
      obtain ⟨keyed, later⟩ := ih all
      exact ⟨_, keyed_operation.mpr ⟨keyed, later, rfl⟩⟩
    | fragment fragment =>
      have parts : ∀ other ∈ fragment :: fragmentsOf found, other.key?.isSome = true := all
      obtain ⟨here, others⟩ := List.forall_mem_cons.mp parts
      obtain ⟨key, own⟩ := Option.isSome_iff_exists.mp here
      obtain ⟨keyed, later⟩ := ih others
      exact ⟨_, keyed_fragment.mpr ⟨key, keyed, own, later, rfl⟩⟩

/-- What is seen of definitions apart from the variables of fragments does not change when
variables are attached. -/
theorem attached_views {α : Type} (view : Definition → α)
    (blind : ∀ fragment definitions,
      view (.fragment { fragment with variableDefinitions := definitions }) =
        view (.fragment fragment))
    (table : VariableTable) (found : List Definition) :
    (attachVariables table found).map view = found.map view := by
  induction found generalizing table with
  | nil => rfl
  | cons definition found ih =>
    cases definition with
    | operation operation => exact congrArg (view (.operation operation) :: ·) (ih table)
    | fragment fragment =>
      unfold attachVariables
      split
      · exact congrArg (view (.fragment fragment) :: ·) (ih table)
      · next definitions _ => exact List.cons_eq_cons.mpr ⟨blind fragment definitions, ih _⟩

/-- Attaching variables changes nothing else of the fragments. -/
theorem attached_map {α : Type} (view : Fragment → α)
    (blind : ∀ fragment definitions,
      view { fragment with variableDefinitions := definitions } = view fragment)
    (table : VariableTable) (found : List Definition) :
    (fragmentsOf (attachVariables table found)).map view = (fragmentsOf found).map view := by
  have views : ∀ found : List Definition, (fragmentsOf found).map view =
      (found.map fun definition => definition.asFragment.map view).filterMap id := by
    intro found
    simp only [fragmentsOf, List.map_filterMap, List.filterMap_map, Function.comp_def, id_eq]
  have same := attached_views (fun definition => definition.asFragment.map view)
    (fun fragment definitions => congrArg some (blind fragment definitions)) table found
  rw [views, views, same]

/-- What holds of all fragments holds of them when variables are attached. -/
theorem attached_forall {α : Type} (view : Fragment → α) (fits : α → Prop)
    {found : List Definition} (all : ∀ fragment ∈ fragmentsOf found, fits (view fragment))
    (blind : ∀ fragment definitions,
      view { fragment with variableDefinitions := definitions } = view fragment)
    (table : VariableTable) :
    ∀ fragment ∈ fragmentsOf (attachVariables table found), fits (view fragment) := by
  intro fragment member
  have listed : view fragment ∈ (fragmentsOf (attachVariables table found)).map view :=
    List.mem_map_of_mem member
  rw [attached_map view blind] at listed
  obtain ⟨other, member', same⟩ := List.mem_map.mp listed
  exact same ▸ all other member'

/-- Attaching variables changes neither the names of fragments nor their keys. -/
theorem attached_keys (table : VariableTable) (found : List Definition) :
    (fragmentsOf (attachVariables table found)).map (fun fragment => (fragment.name, fragment.key?)) =
      (fragmentsOf found).map fun fragment => (fragment.name, fragment.key?) :=
  attached_map _ (fun _ _ => rfl) table found

/-- What the standard parser finds in a text that it reads. -/
theorem standard_found {options : SessionOptions} {source : String} {text : List Char}
    {table : VariableTable} {found : List Definition}
    (prepared : Document.prepare ⟨options.fragmentVariables⟩ source = .ok (text, table))
    (read : readDefinitions (.ofPositions source) text = .ok found)
    (all : ∀ fragment ∈ fragmentsOf found, fragment.key?.isSome = true) :
    Parser.standard.found options source = (fragmentsOf found).map Fragment.entry := by
  have keys := attached_keys table found
  have entries : (fragmentsOf (attachVariables table found)).map Fragment.entry =
      (fragmentsOf found).map Fragment.entry := by
    have both := congrArg (List.map fun pair : String × Option String =>
      (pair.1, pair.2.getD "")) keys
    rwa [List.map_map, List.map_map] at both
  have attached := attached_forall Fragment.key? (·.isSome = true) all (fun _ _ => rfl) table
  obtain ⟨keyed, named⟩ := keyed_of_all attached
  simp only [Parser.found, Parser.read, Parser.standard, parse_eq, prepared, read, Except.map,
    named]
  rw [keyed_entries named, entries]

/-- The fragments of a straight text, by positions and exactly: their keys are made of their own
texts. -/
private theorem straight_stand {options : ParseOptions} {source : String} {text : List Char}
    {table : VariableTable} {found : List Definition} (straight : Straight source.toList)
    (prepared : Document.prepare options source = .ok (text, table))
    (read : readDefinitions (.ofPositions source) text = .ok found) :
    ∃ found', readDefinitions (.exact (String.ofList text)) text = .ok found' ∧
      List.Forall₂ (fun left right => left.key? = some (String.ofList
        (canonical (ownText source.toList text right))) ∧ left.name = right.name)
        (fragmentsOf found) (fragmentsOf found') := by
  have alike : StreamsAlike (.ofText text) (.ofText text) := ⟨Reader.alike_refl _, rfl⟩
  obtain ⟨found', read', twins⟩ :=
    readDefinitions_alike (.exact (String.ofList text)) alike read
  have blanked := prepare_blanked prepared
  refine ⟨found', read', (fragments_stand twins).imp ?_⟩
  rintro left right ⟨twin⟩
  have name := congrArg Fragment.name twin.same
  rw [ownText_eq twin.here source.toList twin.one]
  exact ⟨straight_key twin.here blanked (straight.blanked blanked) twin.location, name⟩

/-- Every fragment of a straight text has a key. -/
theorem straight_keyed {options : ParseOptions} {source : String} {text : List Char}
    {table : VariableTable} {found : List Definition} (straight : Straight source.toList)
    (prepared : Document.prepare options source = .ok (text, table))
    (read : readDefinitions (.ofPositions source) text = .ok found) :
    ∀ fragment ∈ fragmentsOf found, fragment.key?.isSome = true := by
  intro fragment member
  obtain ⟨found', -, keys⟩ := straight_stand straight prepared read
  obtain ⟨other, -, key, -⟩ := forall₂_mem_left keys member
  rw [key]
  rfl

/-- **Straight texts are faithful.** Where no tab, no byte-order mark and no stray carriage
return stands in a source, every fragment is known by its own text. -/
theorem straight_faithful (options : SessionOptions) {source : String}
    (straight : Straight source.toList) : Faithful options source := by
  unfold Faithful ownKeys ownTexts
  cases prepared : Document.prepare ⟨options.fragmentVariables⟩ source with
  | error failure => simp [Parser.found, Parser.read, Parser.standard, parse_eq, prepared, Except.map]
  | ok result =>
    obtain ⟨text, table⟩ := result
    cases read : readDefinitions (.ofPositions source) text with
    | error failure =>
      have alike : StreamsAlike (.ofText text) (.ofText text) := ⟨Reader.alike_refl _, rfl⟩
      have exact' := readDefinitions_isOk (.ofPositions source) (.exact (String.ofList text)) alike
      cases other : readDefinitions (.exact (String.ofList text)) text with
      | error failure' =>
        simp [Parser.found, Parser.read, Parser.standard, parse_eq, prepared, read, Except.map, other]
      | ok found =>
        rw [read, other] at exact'
        cases exact'
    | ok found =>
      obtain ⟨found', read', keys⟩ := straight_stand straight prepared read
      have equal : (fragmentsOf found).map Fragment.entry = (fragmentsOf found').map fun fragment =>
          (fragment.name, String.ofList (canonical (ownText source.toList text fragment))) := by
        refine forall₂_map_eq (keys.imp ?_)
        rintro left right ⟨key, name⟩
        simp [Fragment.entry, key, name]
      rw [standard_found prepared read (straight_keyed straight prepared read), equal]
      simp only [read', List.map_map]
      rfl

end QueryStore
