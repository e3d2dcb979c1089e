import QueryStore.Session
import QueryStore.Proofs.Variants

/-! What a single submission can do, and what follows for runs. What a text comes to on its own
(`Parser.read`, `assemble`) does not depend on what the session has seen; `parse_document_cases`
says once that a session either repeats what it stored, or fails and counts a parser call, or stores
what the text comes to. Everything about runs is derived from these three cases. How often parsers
were called, and whether one panicked, is only noted: sessions that differ in this give the same
answers (`run_noting`). -/
namespace QueryStore

/-- What a parser makes of a text: a document whose fragments all have keys, or the reason
why there is none. -/
def Parser.read (parser : Parser) (options : SessionOptions) (source : String) :
    Except (Failure SessionError) (Document × List KeyedDefinition) :=
  match parser ⟨options.fragmentVariables⟩ source with
  | .error failure => .error (failure.map .malformed)
  | .ok (.document document) =>
    match keyDefinitions document.definitions with
    | .error name => .error (.returned (.missingLocation name))
    | .ok keyed => .ok (document, keyed)
  | .ok node => .error (.returned (.notADocument node.kindName))

/-- The names and keys of the fragments that a parser finds in a text. -/
def Parser.found (parser : Parser) (options : SessionOptions) (source : String) :
    List (String × String) :=
  match parser.read options source with
  | .error _ => []
  | .ok (_, keyed) => observations keyed

/-- The document that is stored for a text, repeated fragments dropped and locations
removed. -/
def assemble (source : String) (document : Document) (keyed : List KeyedDefinition) :
    ParsedDocument :=
  let retained := retain [] .empty keyed
  { key := Text.normalize source
    document := Document.strip false ⟨retained.definitions, document.location⟩
    fragmentKeys := retained.fragmentKeys
    source := retainedSource source document.location }

/-- Which definitions stay, and with which keys, is decided by the document alone. -/
theorem retain_registry_free (seen : List String) (left right : Registry)
    (keyed : List KeyedDefinition) :
    (retain seen left keyed).definitions = (retain seen right keyed).definitions ∧
      (retain seen left keyed).fragmentKeys = (retain seen right keyed).fragmentKeys := by
  induction keyed generalizing seen left right with
  | nil => exact ⟨rfl, rfl⟩
  | cons definition rest ih =>
    cases definition with
    | operation operation =>
      obtain ⟨definitions, keys⟩ := ih seen left right
      exact ⟨congrArg (Definition.operation operation :: ·) definitions, keys⟩
    | fragment fragment key =>
      obtain ⟨definitions, keys⟩ := ih (key :: seen) (left.observe fragment.name key).2
        (right.observe fragment.name key).2
      simp only [retain]
      split
      · exact ⟨definitions, keys⟩
      · exact ⟨congrArg (Definition.fragment fragment :: ·) definitions,
          congrArg ((fragment.name, key) :: ·) keys⟩

namespace Session

/-- A session in which more parser calls are counted, and the lock is poisoned if one of them
panicked. -/
def noting (calls : Nat) (panicked : Bool) (session : Session) : Session :=
  { session with
    parserCalls := session.parserCalls + calls
    poisoned := session.poisoned || panicked }

@[simp] theorem noting_toState (calls : Nat) (panicked : Bool) (session : Session) :
    (session.noting calls panicked).toState = session.toState := rfl

@[simp] theorem noting_options (calls : Nat) (panicked : Bool) (session : Session) :
    (session.noting calls panicked).options = session.options := rfl

/-- The session after a text was read for the first time. -/
def keeping (session : Session) (source : String) (document : Document)
    (keyed : List KeyedDefinition) : Session :=
  { session with
    cache := ⟨session.cache.entries ++
      [(Text.normalize source, ⟨session.made, assemble source document keyed⟩)]⟩
    registry := (retain [] session.registry keyed).registry
    made := session.made + 1
    parserCalls := session.parserCalls + 1 }

/-- The warnings of a text that is read for the first time. -/
def warnings (session : Session) (keyed : List KeyedDefinition) : List String :=
  if session.options.warnOnConflict then (retain [] session.registry keyed).conflicts else []

theorem mem_warnings {session : Session} {keyed : List KeyedDefinition} {name : String}
    (reported : name ∈ session.warnings keyed) :
    name ∈ (retain [] session.registry keyed).conflicts := by
  unfold warnings at reported
  split at reported
  · exact reported
  · cases reported

variable (parser : Parser) (session : Session) (source : String)

/-- What the cache holds under the key of a text answers it. -/
theorem cached_reply {stored : StoredDocument}
    (found : session.cache.get? (Text.normalize source) = some stored) :
    session.parseDocument parser source =
      ⟨.ok stored, session, [.cacheHit (Text.normalize source)]⟩ := by
  simp only [parseDocument, locked_eq, found]

/-- A submission is answered from the cache, or fails, or is stored. -/
theorem parse_document_cases :
    (∃ stored, session.cache.get? (Text.normalize source) = some stored ∧
      session.parseDocument parser source =
        ⟨.ok stored, session, [.cacheHit (Text.normalize source)]⟩) ∨
    (∃ failure, session.cache.get? (Text.normalize source) = none ∧
      parser.read session.options source = .error failure ∧
      session.parseDocument parser source =
        ⟨.error failure, session.noting 1 (failure = .panicked),
          [.parsing (Text.normalize source)]⟩) ∨
    (∃ document keyed, session.cache.get? (Text.normalize source) = none ∧
      parser.read session.options source = .ok (document, keyed) ∧
      session.parseDocument parser source =
        ⟨.ok ⟨session.made, assemble source document keyed⟩,
          session.keeping source document keyed,
          .parsing (Text.normalize source) :: ((session.warnings keyed).map .conflict ++
            [.caching (Text.normalize source)
              (assemble source document keyed).document.definitions.length])⟩) := by
  cases found : session.cache.get? (Text.normalize source) with
  | some stored => exact Or.inl ⟨stored, rfl, session.cached_reply parser source found⟩
  | none =>
    apply Or.inr
    -- A failure that is not a panic leaves the lock as it is.
    have returned (error : SessionError) : session.noting 1 (Failure.returned error = .panicked) =
        { session with parserCalls := session.parserCalls + 1 } := by
      simp [noting]
    simp only [parseDocument, locked_eq, found, parseAnew, Parser.read, true_and]
    cases parsed : parser ⟨session.options.fragmentVariables⟩ source with
    | error failure =>
      cases failure with
      | returned error => exact Or.inl ⟨.returned _, rfl, by rw [returned]⟩
      | panicked => exact Or.inl ⟨.panicked, rfl, by simp [noting]⟩
    | ok node =>
      cases node with
      | document document =>
        simp only [store]
        cases keys : keyDefinitions document.definitions with
        | error name => exact Or.inl ⟨.returned _, rfl, by rw [returned]⟩
        | ok keyed =>
          refine Or.inr ⟨document, keyed, rfl, ?_⟩
          obtain ⟨definitions, fragmentKeys⟩ :=
            retain_registry_free [] session.registry .empty keyed
          simp only [Cache.put, found, definitions, fragmentKeys, assemble, keeping, warnings]
      | _ => exact Or.inl ⟨.returned _, rfl, by rw [returned]⟩

/-- A text that is not in the cache is answered with a document exactly when it is read, and that
document is made of what was read. -/
theorem answered_iff (missing : session.cache.get? (Text.normalize source) = none)
    {stored : StoredDocument} :
    (session.parseDocument parser source).result = .ok stored ↔
      ∃ document keyed, parser.read session.options source = .ok (document, keyed) ∧
        stored = ⟨session.made, assemble source document keyed⟩ := by
  rcases session.parse_document_cases parser source with
    ⟨held, cached, -⟩ | ⟨error, -, read, replied⟩ | ⟨document, keyed, -, read, replied⟩
  · rw [missing] at cached
    cases cached
  · simp [replied, read]
  · rw [replied, read]
    constructor
    · rintro ⟨⟩
      exact ⟨document, keyed, rfl, rfl⟩
    · rintro ⟨_, _, ⟨⟩, rfl⟩
      rfl

/-- A session that has seen nothing answers with what the text comes to on its own. -/
theorem fresh_result (options : SessionOptions) :
    ((start options).parseDocument parser source).result =
      (parser.read options source).map fun read => ⟨0, assemble source read.1 read.2⟩ := by
  rcases (start options).parse_document_cases parser source with
    ⟨stored, found, -⟩ | ⟨error, -, read, replied⟩ | ⟨document, keyed, -, read, replied⟩
  · simp [start, Cache.get?, Cache.empty] at found
  · have same : parser.read options source = .error error := read
    rw [replied, same]
    rfl
  · have same : parser.read options source = .ok (document, keyed) := read
    rw [replied, same]
    rfl

end Session

/-- A response with more parser calls, and maybe a panic, noted in its session. -/
def Response.noting (calls : Nat) (panicked : Bool) (response : Response) : Response :=
  { response with session := response.session.noting calls panicked }

namespace Session
variable (calls : Nat) (panicked : Bool) (session : Session)

/-- A text is answered alike however often parsers were called, and whether or not one panicked. -/
theorem parseDocument_noting (parser : Parser) (source : String) :
    (session.noting calls panicked).parseDocument parser source =
      { session.parseDocument parser source with
        session := (session.parseDocument parser source).session.noting calls panicked } := by
  have more : session.parserCalls + calls + 1 = session.parserCalls + 1 + calls :=
    Nat.add_right_comm ..
  cases found : session.cache.get? (Text.normalize source) with
  | some stored =>
    have found' : (session.noting calls panicked).cache.get? (Text.normalize source) =
        some stored := found
    rw [cached_reply _ _ _ found, cached_reply _ _ _ found']
  | none =>
    simp only [parseDocument, locked_eq, noting, found, parseAnew]
    cases parser ⟨session.options.fragmentVariables⟩ source with
    | error failure =>
      cases failure with
      | returned error => simp only [more]
      | panicked => simp only [more, Bool.true_or]
    | ok node =>
      cases node with
      | document document =>
        simp only [store, more]
        cases keyDefinitions document.definitions <;> rfl
      | _ => simp only [more]

/-- A request is answered alike however often parsers were called, and whether or not one
panicked. -/
theorem perform_noting (parser : Parser) (request : Request) :
    (session.noting calls panicked).perform parser request =
      (session.perform parser request).noting calls panicked := by
  cases request with
  | parse source fragments =>
    simp only [perform, parse, parseDocument_noting, Response.noting]
  | reset => simp only [perform, reset, locked_eq, Response.noting, noting]
  | _ => rfl

/-- A run is answered alike however often parsers were called, and whether or not one panicked. -/
theorem run_noting (turns : List Turn) :
    (session.noting calls panicked).runTurns turns =
      (session.runTurns turns).map (.noting calls panicked) := by
  induction turns generalizing session with
  | nil => rfl
  | cons next rest ih =>
    have step : (session.noting calls panicked).turn next =
        (session.turn next).noting calls panicked := by
      simp only [turn, perform_noting, Response.noting]
    simp only [runTurns, List.map_cons, perform_noting, step, ih]

end Session
end QueryStore
