import QueryStore.Proofs.Session.Duplicates

/-! The pass over the fragments of a document, whatever parser it comes from. The pass either names
the first fragment whose location has no text, before the registry hears of any, or keeps what is
to be kept and tells the registry of every fragment (`Passed`). Both are said of any document and
any registry (`pass_meets_specification`), and a session does nothing else with the fragments of a
document (`store_pass`). -/
namespace QueryStore

/-- The registry after names and keys were observed, one after the other. -/
def Registry.observeAll (registry : Registry) (entries : List (String × String)) : Registry :=
  entries.foldl (fun registry entry => (registry.observe entry.1 entry.2).2) registry

/-- The text that a fragment is located at. -/
def Fragment.text? (fragment : Fragment) : Option String := fragment.location.bind Location.text?

/-- What comes of the fragments of a document, or the name of the fragment that has no text. -/
def Document.pass (document : Document) (registry : Registry) : Except String Retained :=
  (keyDefinitions document.definitions).map (retain [] registry)

/-- For each distinct key of fragments the first of them with that key, the keys in the order in
which they first come. -/
def firstBearers (fragments : List Fragment) : List Fragment :=
  (fragments.map Fragment.key?).eraseDups.filterMap fun key =>
    fragments.find? fun fragment => fragment.key? = key

/-- What is to come of the definitions of a document. -/
structure Passed (document : Document) (registry : Registry) (retained : Retained) : Prop where
  subsequence : retained.definitions.Sublist document.definitions
  operations : retained.definitions.filterMap Definition.asOperation = document.operations
  fragments : retained.definitions.filterMap Definition.asFragment =
    firstBearers document.fragments
  places : retained.definitions = firstOccurrences [] document.definitions
  pairs : retained.fragmentKeys =
    (retained.definitions.filterMap Definition.asFragment).map Fragment.entry
  registered : retained.registry =
    registry.observeAll (document.fragments.map Fragment.entry)

/-- A session takes a document in by the pass over its fragments. When that fails the session is as
it was. -/
theorem store_pass (session : Session) (key source : String) (document : Document) :
    session.store key source document =
      match document.pass session.registry with
      | .error name => ⟨.error (.returned (.missingLocation name)), session, []⟩
      | .ok retained =>
        let parsed : ParsedDocument :=
          { key
            document := Document.strip false ⟨retained.definitions, document.location⟩
            fragmentKeys := retained.fragmentKeys
            source := retainedSource source document.location }
        let put := session.cache.put key ⟨session.made, parsed⟩
        let warnings := if session.options.warnOnConflict then retained.conflicts else []
        { result := .ok put.1
          session := { session with
            cache := put.2, registry := retained.registry, made := session.made + 1 }
          events := warnings.map .conflict ++
            [.caching key parsed.document.definitions.length] } := by
  simp only [Session.store, Document.pass]
  cases keyDefinitions document.definitions <;> rfl

theorem key?_eq_none_iff (fragment : Fragment) : fragment.key? = none ↔ fragment.text? = none :=
  Option.map_eq_none_iff

theorem key?_isSome (fragment : Fragment) : fragment.key?.isSome = fragment.text?.isSome :=
  Option.isSome_map

/-- One more fragment is a first bearer unless there was one with its key. -/
theorem firstBearers_snoc (fragments : List Fragment) (last : Fragment) :
    firstBearers (fragments ++ [last]) = firstBearers fragments ++
      if last.key? ∈ fragments.map Fragment.key? then [] else [last] := by
  -- A key that came before finds its fragment before the last one.
  have earlier : (fragments.map Fragment.key?).eraseDups.filterMap
      (fun key => (fragments ++ [last]).find? fun fragment => fragment.key? = key) =
        firstBearers fragments := by
    refine List.filterMap_congr fun key member => ?_
    obtain ⟨bearer, held, rfl⟩ := List.mem_map.mp (List.mem_eraseDups.mp member)
    have found : (fragments.find? fun fragment => fragment.key? = bearer.key?).isSome = true :=
      List.find?_isSome.mpr ⟨bearer, held, decide_eq_true rfl⟩
    rw [List.find?_append, Option.or_of_isSome found]
  have keys : (fragments ++ [last]).map Fragment.key? =
      fragments.map Fragment.key? ++ [last.key?] := by
    rw [List.map_append, List.map_singleton]
  rw [firstBearers, keys, List.eraseDups_append, List.filterMap_append, earlier]
  by_cases repeated : last.key? ∈ fragments.map Fragment.key?
  · simp [List.cons_removeAll, repeated]
  · have fresh : fragments.find? (fun fragment => fragment.key? = last.key?) = none := by
      refine List.find?_eq_none.mpr fun fragment member same => repeated ?_
      exact of_decide_eq_true same ▸ List.mem_map_of_mem member
    have alone : ([last.key?].removeAll (fragments.map Fragment.key?)).eraseDups = [last.key?] := by
      simp [List.cons_removeAll, repeated, List.eraseDups_cons]
    have own : (fragments ++ [last]).find? (fun fragment => fragment.key? = last.key?) =
        some last := by
      simp only [List.find?_append, fresh, Option.none_or, List.find?_singleton, decide_true,
        if_true]
    simp only [alone, if_neg repeated, List.filterMap_cons, own, List.filterMap_nil]

/-- The fragments among the first occurrences are the first bearers of the keys. -/
theorem firstOccurrences_fragments (found : List Definition) :
    fragmentsOf (firstOccurrences [] found) = firstBearers (fragmentsOf found) := by
  induction found using List.reverseRecOn with
  | nil => rfl
  | append_singleton found last ih =>
    rw [firstOccurrences_snoc, fragmentsOf_append, fragmentsOf_append, ih]
    cases last with
    | operation operation =>
      have own : fragmentsOf [.operation operation] = [] := rfl
      rw [own, List.append_nil]
      exact List.append_nil _
    | fragment fragment =>
      have own : fragmentsOf [.fragment fragment] = [fragment] := rfl
      rw [own, firstBearers_snoc]
      simp only [Definition.repeats, decide_eq_true_eq]
      split <;> rfl

/-- The registry is told of the fragments in their order, of those that are dropped too. -/
theorem retain_registry (seen : List String) (registry : Registry)
    (keyed : List KeyedDefinition) :
    (retain seen registry keyed).registry = registry.observeAll (observations keyed) := by
  induction keyed generalizing seen registry with
  | nil => rfl
  | cons definition rest ih =>
    cases definition with
    | operation operation => exact ih seen registry
    | fragment fragment key =>
      have later := ih (key :: seen) (registry.observe fragment.name key).2
      simp only [retain]
      split <;> exact later

/-- The fragments that stay are listed in order with their names and keys. -/
theorem retain_entries {found : List Definition} {keyed : List KeyedDefinition}
    (keys : keyDefinitions found = .ok keyed) (seen : List String) (registry : Registry) :
    (retain seen registry keyed).fragmentKeys =
      (fragmentsOf (retain seen registry keyed).definitions).map Fragment.entry := by
  induction found generalizing keyed seen registry with
  | nil =>
    cases keys
    rfl
  | cons definition found ih =>
    cases definition with
    | operation operation =>
      obtain ⟨others, later, rfl⟩ := keyed_operation.mp keys
      have rest := ih later seen registry
      exact rest
    | fragment fragment =>
      obtain ⟨key, others, own, later, rfl⟩ := keyed_fragment.mp keys
      have rest := ih later (key :: seen) (registry.observe fragment.name key).2
      have entry : fragment.entry = (fragment.name, key) := by simp [Fragment.entry, own]
      simp only [retain]
      split
      · exact rest
      · exact List.cons_eq_cons.mpr ⟨entry.symm, rest⟩

/-- What is kept of definitions that all have their keys. -/
theorem passed_of_keyed {document : Document} {keyed : List KeyedDefinition}
    (keys : keyDefinitions document.definitions = .ok keyed) (registry : Registry) :
    Passed document registry (retain [] registry keyed) := by
  have places : (retain [] registry keyed).definitions = firstOccurrences [] document.definitions :=
    retain_firstOccurrences keys (by simp [fragmentsOf]) registry
  exact
    { subsequence := places ▸ firstOccurrences_sublist [] document.definitions
      operations := by
        rw [places]
        exact firstOccurrences_operations [] document.definitions
      fragments := by
        rw [places]
        exact firstOccurrences_fragments document.definitions
      places
      pairs := retain_entries keys [] registry
      registered := by
        rw [retain_registry, keyed_entries keys]
        rfl }

/-- **The pass over the fragments of a document.** For any document and registry the pass fails
exactly when the location of some fragment has no text, with the name of the first such fragment,
and a session that takes the document in is then as it was. Otherwise the definitions that stay are
a subsequence that has every operation and, for each distinct key, the first fragment with that key
and no other; the names and keys are those of the fragments that stay, in order; and the registry
that the session goes on with is the one after all fragments of the document, dropped ones
included, were observed from first to last. -/
theorem pass_meets_specification (document : Document) (session : Session) :
    (∀ name, document.pass session.registry = .error name ↔
      ∃ before fragment after, document.fragments = before ++ fragment :: after ∧
        (∀ earlier ∈ before, earlier.text?.isSome = true) ∧ fragment.text? = none ∧
        fragment.name = name) ∧
    (∀ name, document.pass session.registry = .error name → ∀ key source,
      session.store key source document = ⟨.error (.returned (.missingLocation name)), session, []⟩) ∧
    ∀ retained, document.pass session.registry = .ok retained →
      Passed document session.registry retained ∧ ∀ key source,
        (session.store key source document).session.registry = retained.registry ∧
        (session.cache.get? key = none → ∃ stored,
          (session.store key source document).result = .ok stored ∧
          stored.parsed.document = Document.strip false ⟨retained.definitions, document.location⟩ ∧
          stored.parsed.fragmentKeys = retained.fragmentKeys) := by
  refine ⟨fun name => ?_, fun name failed key source => ?_, fun retained passed => ⟨?_, ?_⟩⟩
  · have failed : document.pass session.registry = .error name ↔
        keyDefinitions document.definitions = .error name := by
      rw [Document.pass]
      cases keyDefinitions document.definitions <;> simp [Except.map]
    rw [failed, keyDefinitions_error_iff]
    simp only [key?_eq_none_iff, key?_isSome, Document.fragments]
  · rw [store_pass, failed]
  · cases keys : keyDefinitions document.definitions with
    | error name => simp [Document.pass, keys, Except.map] at passed
    | ok keyed =>
      obtain rfl : retain [] session.registry keyed = retained := by
        simpa [Document.pass, keys, Except.map] using passed
      exact passed_of_keyed keys session.registry
  · intro key source
    rw [store_pass, passed]
    refine ⟨rfl, fun missing => ?_⟩
    simp only [Cache.put, missing]
    exact ⟨_, rfl, rfl, rfl⟩

/-- Of a document in which two fragments have one key under two names the second is dropped, and
the registry hears of it between the others. If one more fragment has no text, the session keeps
what it had. -/
theorem mixed_document_passed :
    let fragment (name text : String) : Fragment :=
      ⟨name, [], "T", [], ⟨[], none⟩, some ⟨0, text.utf8ByteSize, some text⟩⟩
    let document : Document := ⟨[.fragment (fragment "F" "a"),
      .operation ⟨.query, none, [], [], ⟨[], none⟩, none⟩, .fragment (fragment "G" " a "),
      .fragment (fragment "F" "b")], none⟩
    let unwritten : Fragment := ⟨"H", [], "T", [], ⟨[], none⟩, some ⟨0, 1, none⟩⟩
    let session := Session.start Session.defaultOptions
    (∃ retained, document.pass session.registry = .ok retained ∧
      Passed document session.registry retained ∧
      retained.fragmentKeys = [("F", "a"), ("F", "b")] ∧
      retained.registry.entries = [("F", ["a", "b"]), ("G", ["a"])]) ∧
    session.store "key" "source" ⟨document.definitions ++ [.fragment unwritten], none⟩ =
      ⟨.error (.returned (.missingLocation "H")), session, []⟩ := by
  intro fragment document unwritten session
  constructor
  · have told : (document.pass session.registry).toOption.map (fun retained =>
        (retained.fragmentKeys, retained.registry.entries)) =
        some ([("F", "a"), ("F", "b")], [("F", ["a", "b"]), ("G", ["a"])]) := by
      decide +kernel
    cases passed : document.pass session.registry with
    | error name =>
      rw [passed] at told
      cases told
    | ok retained =>
      rw [passed] at told
      obtain ⟨-, -, kept⟩ := pass_meets_specification document session
      obtain ⟨meets, -⟩ := kept retained passed
      obtain ⟨keys, entries⟩ := Prod.mk.inj (Option.some.inj told)
      exact ⟨retained, rfl, meets, keys, entries⟩
  · obtain ⟨fails, unchanged, -⟩ :=
      pass_meets_specification ⟨document.definitions ++ [.fragment unwritten], none⟩ session
    have written : ∀ earlier ∈ document.fragments, earlier.text?.isSome = true := by decide +kernel
    have failed := (fails "H").mpr ⟨document.fragments, unwritten, [], rfl, written, rfl, rfl⟩
    exact unchanged "H" failed "key" "source"

end QueryStore
