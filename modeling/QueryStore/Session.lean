import QueryStore.State
import QueryStore.Document.Basic
import QueryStore.Text.Words
import QueryStore.Document.Parse

/-! A session parses each distinct text once. It answers from its cache where it can, and
otherwise calls the parser, registers the fragments and caches the document. Each fragment is known
by the canonical form of its text: all keys are found before the registry hears of any; then every
fragment is observed, and of those with one key only the first stays in the document. -/
namespace QueryStore

/-- A definition, a fragment with its key. -/
inductive KeyedDefinition
  | operation (operation : Operation)
  | fragment (fragment : Fragment) (key : String)

/-- The key of a fragment, if its location has a text. -/
def Fragment.key? (fragment : Fragment) : Option String :=
  (fragment.location.bind Location.text?).map Text.normalize

/-- The definitions with their keys; the error is the name of the first fragment without a
key. -/
def keyDefinitions : List Definition → Except String (List KeyedDefinition)
  | [] => .ok []
  | .operation operation :: rest => (keyDefinitions rest).map (.operation operation :: ·)
  | .fragment fragment :: rest =>
    match fragment.key? with
    | none => .error fragment.name
    | some key => (keyDefinitions rest).map (.fragment fragment key :: ·)

/-- What comes of the definitions of a document: the registry after all observations, the
definitions that stay, the names and keys of the fragments among them, and the names whose
observation was a conflict. -/
structure Retained where
  registry : Registry
  definitions : List Definition
  fragmentKeys : List (String × String)
  conflicts : List String

/-- Retains definitions; `seen` holds the keys of the fragments before them. -/
def retain (seen : List String) (registry : Registry) : List KeyedDefinition → Retained
  | [] => ⟨registry, [], [], []⟩
  | .operation operation :: rest =>
    let after := retain seen registry rest
    { after with definitions := .operation operation :: after.definitions }
  | .fragment fragment key :: rest =>
    let (observation, observed) := registry.observe fragment.name key
    let after := retain (key :: seen) observed rest
    let conflicts :=
      if observation = .conflict then fragment.name :: after.conflicts else after.conflicts
    if key ∈ seen then { after with conflicts }
    else
      { registry := after.registry
        definitions := .fragment fragment :: after.definitions
        fragmentKeys := (fragment.name, key) :: after.fragmentKeys
        conflicts }

/-- Whether variables of fragments are understood, and whether conflicts are reported. -/
structure SessionOptions where
  fragmentVariables : Bool
  warnOnConflict : Bool
deriving DecidableEq, Repr

/-- The options as a session shows them. -/
def SessionOptions.describe (options : SessionOptions) : String :=
  "GraphQLTag \x7b options: TagOptions \x7b experimental_fragment_variables: "
    ++ toString options.fragmentVariables ++ ", warn_on_fragment_conflict: "
    ++ toString options.warnOnConflict ++ " \x7d, .. \x7d"

/-- The errors that a session returns for a text without a document. -/
inductive SessionError
  | malformed (error : SyntaxError)
  | notADocument (kind : String)
  | missingLocation (fragmentName : String)
deriving DecidableEq, Repr

/-- What is said about a text without a document. -/
def SessionError.message : SessionError → String
  | malformed error => "GraphQL syntax error: " ++ error.message
  | notADocument kind => "Not a valid GraphQL document: parsed a `" ++ kind ++ "` node"
  | missingLocation name =>
    "Fragment `" ++ name ++ "` was produced by the parser without location information, so its "
      ++ "source cannot be identified"

/-- What a session reports while it works. -/
inductive Event
  | cacheHit (key : String)
  | parsing (key : String)
  | conflict (fragmentName : String)
  | caching (key : String) (definitions : Nat)
deriving DecidableEq, Repr

/-- Conflicts are warnings; what the cache answers is a trace. -/
def Event.level : Event → String
  | cacheHit _ => "TRACE"
  | parsing _ => "DEBUG"
  | conflict _ => "WARN"
  | caching _ _ => "DEBUG"

/-- What is said about an event. -/
def Event.message : Event → String
  | cacheHit key => "Document cache hit for `" ++ key ++ "`."
  | parsing key => "Parsing uncached document `" ++ key ++ "`."
  | conflict name =>
    "Fragment with name `" ++ name ++ "` already exists with a different definition. Fragment "
      ++ "names are not scoped to the document that defines them, so they must be unique across "
      ++ "the whole application."
  | caching key definitions => "Caching document `" ++ key ++ s!"` ({definitions} definitions)."

/-- A session: the state behind its lock, and what stands outside of it. The lock is poisoned once
a call has panicked while it held it. `made` numbers the documents that were stored, resets
notwithstanding, and is the serial number of the next one. -/
structure Session extends State where
  poisoned : Bool
  options : SessionOptions
  made : Nat
  parserCalls : Nat

/-- How a text was answered, the session after it and the events on the way. -/
structure Reply where
  result : Except (Failure SessionError) StoredDocument
  session : Session
  events : List Event

/-- The text of a document that is kept: what its location points at, or else everything. -/
def retainedSource (source : String) (location : Option Location) : String :=
  match location with
  | none => source
  | some location =>
    match Text.slice source.toList location.start location.stop with
    | none => source
    | some text => String.ofList text

/-- A text followed by the texts of documents whose fragments it uses, each on a new line. -/
def joinSources (source : String) (fragments : List ParsedDocument) : String :=
  source ++ String.join (fragments.map fun document => "\n" ++ document.source)

namespace Session

/-- A session that has seen nothing. -/
def start (options : SessionOptions) : Session := ⟨⟨.empty, .empty⟩, false, options, 0, 0⟩

/-- Variables of fragments are refused and conflicts reported, unless a session is told
otherwise. -/
def defaultOptions : SessionOptions := ⟨false, true⟩

/-- What a call gets when it takes the lock: the state, but as an error if the lock is poisoned. -/
def lock (session : Session) : Except State State :=
  if session.poisoned then .error session.toState else .ok session.toState

/-- The state, which is also taken from a poisoned lock. -/
def lockState (session : Session) : State :=
  match session.lock with
  | .ok state => state
  | .error state => state

/-- A poisoned lock still gives the state that was left behind it. -/
@[simp] theorem lockState_eq (session : Session) : session.lockState = session.toState := by
  unfold lockState lock
  cases session.poisoned <;> rfl

/-- The session as a call sees it that has taken the lock. -/
def locked (session : Session) : Session := { session with toState := session.lockState }

@[simp] theorem locked_eq (session : Session) : session.locked = session := by
  rw [locked, lockState_eq]

/-- The number of distinct documents in the cache. -/
def cachedDocumentCount (session : Session) : Nat := session.lockState.cache.size

/-- The names under which distinct definitions were observed, with these. -/
def fragmentConflicts (session : Session) : List (String × List String) :=
  session.lockState.registry.conflicts

@[simp] theorem cached_eq (session : Session) :
    session.cachedDocumentCount = session.cache.size := by
  rw [cachedDocumentCount, lockState_eq]

@[simp] theorem conflicts_eq (session : Session) :
    session.fragmentConflicts = session.registry.conflicts := by
  rw [fragmentConflicts, lockState_eq]

/-- Forgets all documents and fragments. -/
def reset (session : Session) : Session :=
  { session.locked with cache := .empty, registry := .empty }

/-- Takes a new document into the session under a key, the lock being held. -/
def store (session : Session) (key source : String) (document : Document) : Reply :=
  match keyDefinitions document.definitions with
  | .error name => ⟨.error (.returned (.missingLocation name)), session, []⟩
  | .ok keyed =>
    let retained := retain [] session.registry keyed
    let parsed : ParsedDocument :=
      { key
        document := Document.strip false ⟨retained.definitions, document.location⟩
        fragmentKeys := retained.fragmentKeys
        source := retainedSource source document.location }
    let (stored, cache) := session.cache.put key ⟨session.made, parsed⟩
    let warnings := if session.options.warnOnConflict then retained.conflicts else []
    { result := .ok stored
      session := { session with cache, registry := retained.registry, made := session.made + 1 }
      events := warnings.map .conflict ++ [.caching key parsed.document.definitions.length] }

/-- Answers a text that is not in the cache, the lock being held. A parser that panics leaves it
poisoned. -/
def parseAnew (parser : Parser) (session : Session) (key source : String) : Reply :=
  let called := { session with parserCalls := session.parserCalls + 1 }
  match parser ⟨session.options.fragmentVariables⟩ source with
  | .error (.returned error) => ⟨.error (.returned (.malformed error)), called, []⟩
  | .error .panicked => ⟨.error .panicked, { called with poisoned := true }, []⟩
  | .ok (.document document) => called.store key source document
  | .ok node => ⟨.error (.returned (.notADocument node.kindName)), called, []⟩

/-- Answers a text. The lock is held from the look into the cache to the end of the call. -/
def parseDocument (parser : Parser) (session : Session) (source : String) : Reply :=
  let key := Text.normalize source
  let held := session.locked
  match held.cache.get? key with
  | some stored => ⟨.ok stored, held, [.cacheHit key]⟩
  | none =>
    let reply := held.parseAnew parser key source
    { reply with events := .parsing key :: reply.events }

/-- Answers a text with the texts of earlier documents added to it. -/
def parse (parser : Parser) (session : Session) (source : String)
    (fragments : List ParsedDocument) : Reply :=
  session.parseDocument parser (joinSources source fragments)

end Session

/-- What can be asked of a session that may change it. -/
inductive Request
  | parse (source : String) (fragments : List ParsedDocument)
  | reset
  | setFragmentVariables (enabled : Bool)
  | setWarnOnConflict (enabled : Bool)

/-- A request, and the parser that is called if the cache cannot answer it. A parser that keeps a
state of its own, or panics now and then, is another function at every turn. -/
structure Turn where
  parser : Parser
  request : Request

/-- What a request comes to; only texts have a result. -/
structure Response where
  result : Option (Except (Failure SessionError) StoredDocument)
  session : Session
  events : List Event

namespace Session

/-- Does what is asked. -/
def perform (parser : Parser) (session : Session) : Request → Response
  | .parse source fragments =>
    let reply := session.parse parser source fragments
    ⟨some reply.result, reply.session, reply.events⟩
  | .reset => ⟨none, session.reset, []⟩
  | .setFragmentVariables enabled =>
    ⟨none, { session with options.fragmentVariables := enabled }, []⟩
  | .setWarnOnConflict enabled => ⟨none, { session with options.warnOnConflict := enabled }, []⟩

/-- The session after a turn. -/
def turn (session : Session) (turn : Turn) : Session :=
  (session.perform turn.parser turn.request).session

/-- The session after turns, one after the other. -/
def afterTurns (session : Session) (turns : List Turn) : Session := turns.foldl Session.turn session

/-- The responses to turns, one after the other. -/
def runTurns (session : Session) : List Turn → List Response
  | [] => []
  | turn :: rest =>
    session.perform turn.parser turn.request :: (session.turn turn).runTurns rest

/-- The session after requests that all meet one parser. -/
def after (parser : Parser) (session : Session) (requests : List Request) : Session :=
  session.afterTurns (requests.map (Turn.mk parser))

/-- The responses to requests that all meet one parser. -/
def run (parser : Parser) (session : Session) (requests : List Request) : List Response :=
  session.runTurns (requests.map (Turn.mk parser))

section
variable (parser : Parser) (session : Session) (request : Request) (rest : List Request)

@[simp] theorem after_nil : session.after parser [] = session := rfl

@[simp] theorem after_cons : session.after parser (request :: rest) =
    (session.perform parser request).session.after parser rest := rfl

@[simp] theorem run_nil : session.run parser [] = [] := rfl

@[simp] theorem run_cons : session.run parser (request :: rest) =
    session.perform parser request :: (session.perform parser request).session.run parser rest :=
  rfl

end

end Session
end QueryStore
