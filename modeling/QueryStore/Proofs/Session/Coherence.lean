import QueryStore.Proofs.Document.Locations
import QueryStore.Proofs.Retained
import QueryStore.Proofs.Session.Answers

/-! The cache and the registry tell of the same fragments. Every cached document is what some
submitted text came to, and is sound in itself; the keys it lists are registered under their
names, and every registered key is listed by some cached document. A turn keeps all this
(`coherent_turn`), whatever parser it meets. -/
namespace QueryStore

/-- A parsed document that agrees with itself: its keys are canonical and distinct, they belong
to its fragments in order, and no node has a location. -/
structure ParsedDocument.Sound (parsed : ParsedDocument) : Prop where
  canonical : Text.normalize parsed.key = parsed.key
  unlocated : parsed.document.locations = []
  names : parsed.fragmentKeys.map Prod.fst = parsed.document.fragments.map Fragment.name
  distinct : (parsed.fragmentKeys.map Prod.snd).Nodup
  keys : ∀ entry ∈ parsed.fragmentKeys, Text.normalize entry.2 = entry.2

private theorem fragments_strip (definitions : List Definition) (location : Option Location) :
    (Document.strip false ⟨definitions, location⟩).fragments.map Fragment.name =
      (definitions.filterMap Definition.asFragment).map Fragment.name := by
  simp only [Document.strip, Document.fragments]
  induction definitions with
  | nil => rfl
  | cons definition rest ih =>
    cases definition with
    | operation operation => exact ih
    | fragment fragment => exact congrArg (fragment.name :: ·) ih

/-- What is stored for a text is sound, if its keys are the fragments' own. -/
theorem assemble_sound (source : String) {document : Document} {keyed : List KeyedDefinition}
    (keys : keyDefinitions document.definitions = .ok keyed) :
    (assemble source document keyed).Sound where
  canonical := Text.normalize_normalize source
  unlocated := Document.locations_strip false _
  names := (retain_names [] .empty keyed).trans (fragments_strip _ _).symm
  distinct := (retain_distinct [] .empty keyed).1
  keys entry listed := keys_canonical keys entry (retain_observed [] .empty keyed entry listed)

/-- What is read of a text is a document that the parser makes of it, with the keys of its
fragments. -/
theorem Parser.read_ok {parser : Parser} {options : SessionOptions} {source : String}
    {document : Document} {keyed : List KeyedDefinition}
    (read : parser.read options source = .ok (document, keyed)) :
    parser ⟨options.fragmentVariables⟩ source = .ok (.document document) ∧
      keyDefinitions document.definitions = .ok keyed := by
  unfold Parser.read at read
  split at read
  · cases read
  · next parsed =>
    split at read
    · cases read
    · next found =>
      cases read
      exact ⟨parsed, found⟩
  · cases read

/-- A turn submits a text, and its parser makes the document of it. -/
def Turn.Reads (turn : Turn) (source : String) (parsed : ParsedDocument) : Prop :=
  (∃ own fragments, turn.request = .parse own fragments ∧ source = joinSources own fragments) ∧
    ∃ options document keyed, turn.parser.read options source = .ok (document, keyed) ∧
      parsed = assemble source document keyed

/-- The cache and the registry of a session after turns agree. -/
structure Coherent (turns : List Turn) (session : Session) : Prop where
  filed : ∀ entry ∈ session.cache.entries, entry.2.parsed.key = entry.1 ∧
    ∃ turn ∈ turns, ∃ source, turn.Reads source entry.2.parsed ∧
      entry.1 = Text.normalize source
  sound : ∀ entry ∈ session.cache.entries, entry.2.parsed.Sound
  registered : ∀ entry ∈ session.cache.entries, ∀ fragment ∈ entry.2.parsed.fragmentKeys,
    fragment.2 ∈ session.registry.keysOf fragment.1
  listed : ∀ name, ∀ key ∈ session.registry.keysOf name,
    ∃ entry ∈ session.cache.entries, key ∈ entry.2.parsed.fragmentKeys.map Prod.snd
  consistent : session.registry.Consistent

section
variable {turns : List Turn} {session : Session}

/-- A session that holds nothing is coherent. -/
theorem coherent_cleared (turns : List Turn) (cache : session.cache = .empty)
    (registry : session.registry = .empty) : Coherent turns session where
  filed := by simp [cache, Cache.empty]
  sound := by simp [cache, Cache.empty]
  registered := by simp [cache, Cache.empty]
  listed := by simp [registry, Registry.keysOf, Registry.variants?, Registry.empty]
  consistent := registry ▸ Registry.empty_consistent

/-- Turns that leave the cache and the registry alone are as good as none. -/
theorem Coherent.later (coherent : Coherent turns session) (turn : Turn) {after : Session}
    (cache : after.cache = session.cache) (registry : after.registry = session.registry) :
    Coherent (turns ++ [turn]) after where
  filed := by
    intro entry member
    obtain ⟨same, earlier, held, reads⟩ := coherent.filed entry (cache ▸ member)
    exact ⟨same, earlier, List.mem_append_left _ held, reads⟩
  sound := cache ▸ coherent.sound
  registered := cache ▸ registry ▸ coherent.registered
  listed := cache ▸ registry ▸ coherent.listed
  consistent := registry ▸ coherent.consistent

/-- A text that is read brings its document and its keys along. -/
theorem Coherent.keeping (coherent : Coherent turns session) {turn : Turn} {own : String}
    {fragments : List ParsedDocument} {options : SessionOptions} {document : Document}
    {keyed : List KeyedDefinition} (request : turn.request = .parse own fragments)
    (read : turn.parser.read options (joinSources own fragments) = .ok (document, keyed)) :
    Coherent (turns ++ [turn])
      (session.keeping (joinSources own fragments) document keyed) where
  filed := by
    simp only [Session.keeping, List.forall_mem_append, List.forall_mem_singleton]
    refine ⟨fun entry member => ?_, rfl, turn, by simp, joinSources own fragments,
      ⟨⟨own, fragments, request, rfl⟩, options, document, keyed, read, rfl⟩, rfl⟩
    obtain ⟨same, earlier, held, reads⟩ := coherent.filed entry member
    exact ⟨same, earlier, List.mem_append_left _ held, reads⟩
  sound := by
    simp only [Session.keeping, List.forall_mem_append, List.forall_mem_singleton]
    exact ⟨coherent.sound, assemble_sound _ (Parser.read_ok read).2⟩
  registered := by
    simp only [Session.keeping, List.forall_mem_append, List.forall_mem_singleton]
    refine ⟨fun entry member fragment held => ?_, fun fragment held => ?_⟩
    · exact (mem_keysOf_retain ..).mpr (Or.inl (coherent.registered entry member fragment held))
    · exact (mem_keysOf_retain ..).mpr (Or.inr (retain_observed [] .empty keyed fragment held))
  listed := by
    intro name key held
    simp only [Session.keeping, List.mem_append, List.mem_singleton, or_and_right, exists_or,
      exists_eq_left]
    rcases (mem_keysOf_retain ..).mp held with known | observed
    · exact Or.inl (coherent.listed name key known)
    · exact Or.inr ((observed_retained [] .empty keyed _ observed).resolve_left
        List.not_mem_nil)
  consistent := retain_consistent coherent.consistent [] keyed

/-- A turn keeps the cache and the registry in agreement. -/
theorem coherent_turn (coherent : Coherent turns session) (turn : Turn) :
    Coherent (turns ++ [turn]) (session.turn turn) := by
  cases request : turn.request with
  | parse own fragments =>
    simp only [Session.turn, request, Session.perform, Session.parse]
    -- A hit and a failure leave both stores alone; only a text that is read adds to them.
    rcases session.parse_document_cases turn.parser (joinSources own fragments) with
      ⟨stored, -, replied⟩ | ⟨error, -, -, replied⟩ | ⟨document, keyed, -, read, replied⟩
    · exact replied ▸ coherent.later turn rfl rfl
    · exact replied ▸ coherent.later turn rfl rfl
    · exact replied ▸ coherent.keeping request read
  | reset =>
    simp only [Session.turn, request, Session.perform]
    exact coherent_cleared _ rfl rfl
  | setFragmentVariables enabled =>
    simp only [Session.turn, request, Session.perform]
    exact coherent.later turn rfl rfl
  | setWarnOnConflict enabled =>
    simp only [Session.turn, request, Session.perform]
    exact coherent.later turn rfl rfl

/-- Every list of turns keeps the cache and the registry in agreement. -/
theorem coherent_turns (coherent : Coherent turns session) (later : List Turn) :
    Coherent (turns ++ later) (session.afterTurns later) := by
  induction later generalizing turns session with
  | nil => exact (List.append_nil turns).symm ▸ coherent
  | cons turn rest ih =>
    have step := ih (coherent_turn coherent turn)
    rwa [List.append_assoc] at step

end

/-- **Cache and registry stay coherent.** After any turns, whatever parsers they met, a cached
document stands under its own key, the canonical form of the text it was parsed from, and is
sound; the keys that it lists are registered under their names, and no key is registered but
those that some cached document lists. -/
theorem cache_and_registry_coherent (options : SessionOptions) (turns : List Turn) :
    Coherent turns ((Session.start options).afterTurns turns) :=
  coherent_turns (coherent_cleared [] rfl rfl) turns

end QueryStore
