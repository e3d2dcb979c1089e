import Mathlib.Data.List.Induction
import QueryStore.Proofs.Fragment.Regular
import QueryStore.Proofs.Session.Interpolation

/-! Fragments that are left out of a document. A document loses nothing when each of them is the
same, locations apart, as one that is kept before it (`Thins`). What decides is the key of a
fragment alone, which knows neither its name nor its selections. So nothing is lost exactly when no
key stands for two fragments that differ (`thins_iff`), as in regular texts; but the comments
between the words of a fragment may hide its name from its key. -/
namespace QueryStore
open Text Grammar

/-- Definitions without some of the fragments, each of them the same as one that was kept before
it. The first list holds what was kept already. -/
inductive Thins : List Definition → List Definition → List Definition → Prop
  | nil {earlier : List Definition} : Thins earlier [] []
  | keep {earlier found kept : List Definition} {definition : Definition}
    (rest : Thins (earlier ++ [definition]) found kept) :
    Thins earlier (definition :: found) (definition :: kept)
  | drop {earlier found kept : List Definition} {fragment other : Fragment}
    (held : .fragment other ∈ earlier) (same : other.strip false = fragment.strip false)
    (rest : Thins earlier found kept) : Thins earlier (.fragment fragment :: found) kept

/-- Of every definition something is kept that is the same. -/
theorem Thins.nothing_lost {earlier found kept : List Definition}
    (thins : Thins earlier found kept) :
    ∀ definition ∈ found, ∃ other ∈ earlier ++ kept, other.strip false = definition.strip false := by
  induction thins with
  | nil => simp
  | @keep earlier found kept definition _ ih =>
    rw [List.append_assoc] at ih
    exact List.forall_mem_cons.mpr ⟨⟨definition, by simp, rfl⟩, ih⟩
  | drop held same _ ih =>
    exact List.forall_mem_cons.mpr
      ⟨⟨_, List.mem_append_left _ held, congrArg Definition.fragment same⟩, ih⟩

/-- What is kept later might as well have been kept before. -/
theorem Thins.sooner {earlier found kept : List Definition} {fragment : Fragment}
    (thins : Thins earlier found (.fragment fragment :: kept)) :
    Thins (earlier ++ [.fragment fragment]) found kept := by
  generalize whole : Definition.fragment fragment :: kept = all at thins
  induction thins with
  | nil => cases whole
  | keep rest =>
    cases whole
    exact .drop (List.mem_append_right _ (List.mem_singleton_self _)) rfl rest
  | drop held same _ ih => exact .drop (List.mem_append_left _ held) same (ih whole)

section
variable {before found : List Definition}

theorem repeats_append {definition : Definition} (repeated : definition.repeats before = true)
    (more : List Definition) : definition.repeats (before ++ more) = true := by
  cases definition with
  | operation operation => cases repeated
  | fragment fragment =>
    simp only [Definition.repeats, decide_eq_true_eq] at repeated ⊢
    rw [fragmentsOf, List.filterMap_append, List.map_append]
    exact List.mem_append_left _ repeated

theorem repeats_self (before : List Definition) (fragment : Fragment) :
    (Definition.fragment fragment).repeats (before ++ [.fragment fragment]) = true := by
  simp [Definition.repeats, fragmentsOf, Definition.asFragment]

/-- What is kept repeats nothing that came before. -/
theorem firstOccurrences_fresh {definition : Definition}
    (kept : definition ∈ firstOccurrences before found) : definition.repeats before = false := by
  induction found generalizing before with
  | nil => cases kept
  | cons first found ih =>
    have later : definition ∈ firstOccurrences (before ++ [first]) found →
        definition.repeats before = false := by
      intro kept
      rw [Bool.eq_false_iff]
      intro repeated
      have fresh := ih kept
      rw [repeats_append repeated] at fresh
      cases fresh
    simp only [firstOccurrences] at kept
    split at kept
    · exact later kept
    · next fresh =>
      rcases List.mem_cons.mp kept with rfl | kept
      · exact Bool.eq_false_iff.mpr fresh
      · exact later kept

theorem firstOccurrences_append (before left right : List Definition) :
    firstOccurrences before (left ++ right) =
      firstOccurrences before left ++ firstOccurrences (before ++ left) right := by
  induction left generalizing before with
  | nil => simp [firstOccurrences]
  | cons first left ih =>
    simp only [List.cons_append, firstOccurrences, ih, List.append_assoc, List.nil_append]
    split <;> rfl

theorem firstOccurrences_snoc (before : List Definition) (definition : Definition) :
    firstOccurrences [] (before ++ [definition]) =
      firstOccurrences [] before ++ if definition.repeats before then [] else [definition] := by
  simp [firstOccurrences_append, firstOccurrences]

/-- Operations are never left out. -/
theorem firstOccurrences_operations (before found : List Definition) :
    (firstOccurrences before found).filterMap Definition.asOperation =
      found.filterMap Definition.asOperation := by
  induction found generalizing before with
  | nil => rfl
  | cons first found ih =>
    cases first with
    | operation operation =>
      exact congrArg (operation :: ·) (ih _)
    | fragment fragment =>
      simp only [firstOccurrences]
      split <;> exact ih _

/-- Of the fragments with one key one is kept. -/
theorem firstOccurrences_keyed {fragment : Fragment} (member : fragment ∈ fragmentsOf found) :
    ∃ other, .fragment other ∈ firstOccurrences [] found ∧ other.key? = fragment.key? := by
  induction found using List.reverseRecOn generalizing fragment with
  | nil => cases member
  | append_singleton found last ih =>
    rw [firstOccurrences_snoc]
    rcases List.mem_append.mp (mem_fragmentsOf.mp member) with earlier | own
    · obtain ⟨other, kept, same⟩ := ih (mem_fragmentsOf.mpr earlier)
      exact ⟨other, List.mem_append_left _ kept, same⟩
    · obtain rfl := List.mem_singleton.mp own
      by_cases repeated : (Definition.fragment fragment).repeats found = true
      · simp only [Definition.repeats, decide_eq_true_eq, List.mem_map] at repeated
        obtain ⟨first, member', same'⟩ := repeated
        obtain ⟨other, kept, same⟩ := ih member'
        exact ⟨other, List.mem_append_left _ kept, same.trans same'⟩
      · exact ⟨fragment, by simp [repeated], rfl⟩

/-- A fragment that is the same as one that is kept of the definitions before it. -/
def Fragment.Echoes (before : List Definition) (fragment : Fragment) : Prop :=
  ∃ other, .fragment other ∈ firstOccurrences [] before ∧ other.strip false = fragment.strip false

/-- What holds of each fragment and of the definitions before it, the first definition apart. -/
private theorem forall_fragment_cons {first : Definition} {found : List Definition}
    {property : List Definition → Fragment → Prop} :
    (∀ middle fragment after, first :: found = middle ++ .fragment fragment :: after →
        property middle fragment) ↔
      (∀ fragment, first = .fragment fragment → property [] fragment) ∧
        ∀ middle fragment after, found = middle ++ .fragment fragment :: after →
          property (first :: middle) fragment := by
  constructor
  · intro every
    refine ⟨fun fragment same => every [] fragment found (by rw [same]; rfl), ?_⟩
    intro middle fragment after split
    exact every (first :: middle) fragment after (by rw [split]; rfl)
  · rintro ⟨here, there⟩ middle fragment after split
    cases middle with
    | nil => exact here fragment (List.cons_eq_cons.mp split).1
    | cons _ middle =>
      obtain ⟨rfl, split'⟩ := List.cons_eq_cons.mp split
      exact there middle fragment after split'

/-- The first occurrences lose nothing exactly when each fragment that repeats the key of an
earlier one is the same as one that is kept before it. -/
theorem thins_iff : Thins (firstOccurrences [] before) found (firstOccurrences before found) ↔
    ∀ middle fragment after, found = middle ++ .fragment fragment :: after →
      (Definition.fragment fragment).repeats (before ++ middle) = true →
        fragment.Echoes (before ++ middle) := by
  induction found generalizing before with
  | nil =>
    refine iff_of_true .nil fun middle fragment after split => ?_
    cases middle <;> cases split
  | cons first found ih =>
    have later := @ih (before ++ [first])
    simp only [List.append_assoc, List.singleton_append] at later
    rw [forall_fragment_cons, ← later, firstOccurrences_snoc, firstOccurrences, List.append_nil]
    by_cases repeated : first.repeats before = true
    · simp only [repeated, ↓reduceIte, List.append_nil]
      cases first with
      | operation operation => cases repeated
      | fragment fragment =>
        constructor
        · intro thins
          -- What repeats a key is not kept later on, so that it is left out here.
          generalize whole :
            firstOccurrences (before ++ [.fragment fragment]) found = kept at thins ⊢
          cases thins with
          | keep rest =>
            have fresh := firstOccurrences_fresh (whole ▸ List.mem_cons_self)
            rw [repeats_self] at fresh
            cases fresh
          | drop held same rest =>
            refine ⟨?_, rest⟩
            rintro _ ⟨⟩ -
            exact ⟨_, held, same⟩
        · rintro ⟨echoes, rest⟩
          obtain ⟨other, held, same⟩ := echoes fragment rfl repeated
          exact .drop held same rest
    · simp only [repeated, Bool.false_eq_true, ↓reduceIte]
      constructor
      · intro thins
        refine ⟨fun fragment same again => absurd (same ▸ again) repeated, ?_⟩
        cases thins with
        | keep rest => exact rest
        | drop _ _ rest => exact rest.sooner
      · rintro ⟨-, rest⟩
        exact .keep rest

end

/-- In a regular text, fragments with one key are the same. -/
theorem regular_same {options : SessionOptions} {source : String} {document : Document}
    {keyed : List KeyedDefinition} (regular : Regular options source)
    (accepted : Document.parse ⟨options.fragmentVariables⟩ source = .ok document)
    (keys : keyDefinitions document.definitions = .ok keyed) {left right : Fragment}
    (member : left ∈ fragmentsOf document.definitions)
    (member' : right ∈ fragmentsOf document.definitions) (same : left.key? = right.key?) :
    left.strip false = right.strip false := by
  have found : Parser.standard.found options source =
      (fragmentsOf document.definitions).map Fragment.entry := by
    rw [Parser.found, standard_read_iff.mpr ⟨accepted, keys⟩]
    exact keyed_entries keys
  have spelled := regular_keys regular accepted
  rw [found, List.forall₂_map_right_iff, List.forall₂_same] at spelled
  obtain ⟨own, spells, entry⟩ := spelled left member
  obtain ⟨own', spells', entry'⟩ := spelled right member'
  refine spelled_same spells spells' (String.ofList_injective ?_)
  have key := congrArg Prod.snd entry
  have key' := congrArg Prod.snd entry'
  simp only [Fragment.entry, same] at key key'
  exact key.trans key'.symm

/-- A regular text repeats the keys of fragments only in fragments that are the same. -/
theorem regular_echoes {options : SessionOptions} {source : String} {document : Document}
    {keyed : List KeyedDefinition} (regular : Regular options source)
    (accepted : Document.parse ⟨options.fragmentVariables⟩ source = .ok document)
    (keys : keyDefinitions document.definitions = .ok keyed) {before after : List Definition}
    {fragment : Fragment} (split : document.definitions = before ++ .fragment fragment :: after)
    (repeated : (Definition.fragment fragment).repeats before = true) : fragment.Echoes before := by
  simp only [Definition.repeats, decide_eq_true_eq, List.mem_map] at repeated
  obtain ⟨earlier, listed, same⟩ := repeated
  obtain ⟨other, kept, same'⟩ := firstOccurrences_keyed listed
  have member : Definition.fragment other ∈ before :=
    (firstOccurrences_sublist [] before).subset kept
  refine ⟨other, kept, regular_same regular accepted keys ?_ ?_ (same'.trans same)⟩
  · exact mem_fragmentsOf.mpr (split ▸ List.mem_append_left _ member)
  · exact mem_fragmentsOf.mpr (split ▸ List.mem_append_right _ List.mem_cons_self)

/-- **When deduplication loses nothing.** A text that the standard parser accepts is not in the
cache, and is answered. The document has the definitions of the text in order, without their
locations and without the fragments whose key repeats that of an earlier one. All operations are
kept. Only fragments that are the same as one that is kept before them are left out exactly when
each that repeats a key is such a fragment, and then something that is the same is kept of every
definition. That is so for every regular text. -/
theorem deduplication_lossless_iff (session : Session) {source : String} {document : Document}
    (accepted : Document.parse ⟨session.options.fragmentVariables⟩ source = .ok document)
    (uncached : session.cache.get? (Text.normalize source) = none) {stored : StoredDocument}
    (answered : (session.parseDocument .standard source).result = .ok stored) :
    let kept := firstOccurrences [] document.definitions
    let definitions := stored.parsed.document.definitions
    definitions = kept.map (Definition.strip false) ∧
      kept.filterMap Definition.asOperation =
        document.definitions.filterMap Definition.asOperation ∧
      (Thins [] document.definitions kept ↔
        ∀ before fragment after, document.definitions = before ++ .fragment fragment :: after →
          (Definition.fragment fragment).repeats before = true → fragment.Echoes before) ∧
      (Thins [] document.definitions kept →
        ∀ definition ∈ document.definitions, definition.strip false ∈ definitions) ∧
      (Regular session.options source → Thins [] document.definitions kept) := by
  intro kept definitions
  obtain ⟨document', keyed, read, made⟩ :=
    (session.answered_iff .standard source uncached).mp answered
  obtain ⟨accepted', keys⟩ := standard_read_iff.mp read
  obtain rfl : document = document' := Except.ok.inj (accepted.symm.trans accepted')
  have stays : definitions = kept.map (Definition.strip false) := by
    simp only [definitions, made, assembled_definitions keys, kept]
  have exactly : Thins [] document.definitions kept ↔ _ := @thins_iff [] document.definitions
  refine ⟨stays, firstOccurrences_operations _ _, exactly, fun thins definition member => ?_,
    fun regular => exactly.mpr fun before fragment after => regular_echoes regular accepted keys⟩
  obtain ⟨other, held, same⟩ := thins.nothing_lost definition member
  rw [stays, ← same]
  exact List.mem_map_of_mem held

private theorem exists_of_isOk {ε α : Type} {result : Except ε α} (succeeded : result.isOk = true) :
    ∃ value, result = .ok value := by
  cases result with
  | ok value => exact ⟨value, rfl⟩
  | error error => cases succeeded

/-- A fragment that is written again with other line breaks is left out once, in a session that
knows another fragment of that name. -/
theorem repeated_fragment_left_out :
    let session := (Session.start Session.defaultOptions).after .standard
      [.parse "fragment F on T \x7b b \x7d" []]
    let source := "fragment F on T \x7b a \x7d query \x7b ...F \x7d\nfragment F on T \x7b\n a\n\x7d"
    ∃ document stored, Document.parse ⟨session.options.fragmentVariables⟩ source = .ok document ∧
      (session.parseDocument .standard source).result = .ok stored ∧
      document.fragments.length = 2 ∧ stored.parsed.document.fragments.length = 1 ∧
      ∀ definition ∈ document.definitions,
        definition.strip false ∈ stored.parsed.document.definitions := by
  intro session source
  have uncached : session.cache.get? (Text.normalize source) = none :=
    Option.not_isSome_iff_eq_none.mp (by decide +kernel)
  have sizes : (Document.parse ⟨session.options.fragmentVariables⟩ source).toOption.map
        (fun document => document.fragments.length) = some 2 ∧
      (session.parseDocument .standard source).result.toOption.map
        (fun stored => stored.parsed.document.fragments.length) = some 1 := by
    decide +kernel
  obtain ⟨document, accepted⟩ : ∃ document,
      Document.parse ⟨session.options.fragmentVariables⟩ source = .ok document :=
    exists_of_isOk (by decide +kernel)
  obtain ⟨stored, answered⟩ : ∃ stored,
      (session.parseDocument .standard source).result = .ok stored :=
    exists_of_isOk (by decide +kernel)
  rw [accepted, answered] at sizes
  obtain ⟨-, -, -, lossless, regular⟩ :=
    deduplication_lossless_iff session accepted uncached answered
  have simple : Simple source.toList := by decide +kernel
  have off : session.options.fragmentVariables = false := by decide +kernel
  exact ⟨document, stored, accepted, answered, Option.some.inj sizes.1, Option.some.inj sizes.2,
    lossless (regular (simple.regular off))⟩

/-- The comments between the words of two fragments differ in where they end, which their keys do
not tell. So the second fragment, of another name, is left out, and nothing of it is kept. -/
theorem commented_fragment_lost :
    let source := "fragment #\nF # G\non T \x7b a \x7d\nfragment # F #\nG on T \x7b a \x7d"
    ∃ document stored, Document.parse ⟨false⟩ source = .ok document ∧
      ((Session.start Session.defaultOptions).parseDocument .standard source).result = .ok stored ∧
      document.fragments.map Fragment.name = ["F", "G"] ∧
      stored.parsed.document.fragments.map Fragment.name = ["F"] ∧
      ∀ kept, stored.parsed.document.definitions = kept.map (Definition.strip false) →
        ¬ Thins [] document.definitions kept := by
  intro source
  have names : (Document.parse ⟨false⟩ source).toOption.map
        (fun document => document.fragments.map Fragment.name) = some ["F", "G"] ∧
      ((Session.start Session.defaultOptions).parseDocument .standard source).result.toOption.map
        (fun stored => stored.parsed.document.fragments.map Fragment.name) = some ["F"] := by
    decide +kernel
  obtain ⟨document, accepted⟩ : ∃ document, Document.parse ⟨false⟩ source = .ok document :=
    exists_of_isOk (by decide +kernel)
  obtain ⟨stored, answered⟩ : ∃ stored,
      ((Session.start Session.defaultOptions).parseDocument .standard source).result = .ok stored :=
    exists_of_isOk (by decide +kernel)
  rw [accepted, answered] at names
  have found : document.fragments.map Fragment.name = ["F", "G"] := Option.some.inj names.1
  have known : stored.parsed.document.fragments.map Fragment.name = ["F"] := Option.some.inj names.2
  refine ⟨document, stored, accepted, answered, found, known, fun kept stays thins => ?_⟩
  -- The fragment G would have to have its like among the fragments that are kept.
  obtain ⟨fragment, member, named⟩ : ∃ fragment ∈ document.fragments, fragment.name = "G" :=
    List.mem_map.mp (by rw [found]; simp)
  obtain ⟨other, held, same⟩ := thins.nothing_lost _ (mem_fragmentsOf.mp member)
  cases other with
  | operation operation => cases same
  | fragment other =>
    have listed : other.strip false ∈ stored.parsed.document.fragments :=
      mem_fragmentsOf.mpr (stays ▸ List.mem_map_of_mem (f := Definition.strip false) held)
    have name : (other.strip false).name = "G" :=
      (congrArg Fragment.name (Definition.fragment.inj same)).trans named
    have lost := List.mem_map_of_mem (f := Fragment.name) listed
    rw [known, name] at lost
    exact absurd lost (by decide)

end QueryStore
