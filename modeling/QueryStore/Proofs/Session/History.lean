import Mathlib.Data.Finset.Card
import Mathlib.Data.List.Dedup
import QueryStore.Proofs.Session.Answers

/-! The history of a session: the exchanges since its caches were last cleared. The cache
and the registry are functions of the history (`Remembers`): a key is cached exactly when
some exchange succeeded for a text with that key, and a fragment key is registered exactly
when a text in which it occurs was read. Only names that are listed were warned of. One request keeps this (`remembers_step`), hence
every run does (`remembers_run`). -/
namespace QueryStore

/-- A text that was submitted: the session it met, and the reply. -/
structure Exchange where
  before : Session
  source : String
  reply : Reply

namespace Exchange

/-- The canonical form of the text. -/
def key (exchange : Exchange) : String := Text.normalize exchange.source

/-- The document that the exchange returned. -/
def Returns (exchange : Exchange) (stored : StoredDocument) : Prop :=
  exchange.reply.result = .ok stored

/-- The exchange returned a document. -/
def succeeded (exchange : Exchange) : Bool := exchange.reply.result.isOk

/-- The text was not in the cache. -/
def Anew (exchange : Exchange) : Prop := exchange.before.cache.get? exchange.key = none

end Exchange

/-- What happened since the caches were last cleared, and the session right then. -/
structure History where
  base : Session
  exchanges : List Exchange

namespace History

/-- A history goes on with each submission; clearing the caches begins a new one. -/
def next (parser : Parser) (session : Session) (history : History) : Request → History
  | .parse source fragments =>
    { history with
      exchanges := history.exchanges ++
        [⟨session, joinSources source fragments, session.parse parser source fragments⟩] }
  | .reset => ⟨session.reset, []⟩
  | .setFragmentVariables _ => history
  | .setWarnOnConflict _ => history

/-- The history after further requests. -/
def extend (parser : Parser) (session : Session) (history : History) : List Request → History
  | [] => history
  | request :: rest =>
    extend parser (session.perform parser request).session (history.next parser session request)
      rest

/-- The history of a run. -/
def ofRun (parser : Parser) (options : SessionOptions) (requests : List Request) : History :=
  extend parser (.start options) ⟨.start options, []⟩ requests

/-- The keys of the texts for which a document was returned. -/
def keys (history : History) : Finset String :=
  ((history.exchanges.filter Exchange.succeeded).map Exchange.key).toFinset

/-- The number of exchanges that returned no document. -/
def failures (history : History) : Nat :=
  (history.exchanges.filter (!Exchange.succeeded ·)).length

end History

/-- The names and keys of the fragments that a parser finds in the text of an exchange. -/
def Exchange.found (parser : Parser) (exchange : Exchange) : List (String × String) :=
  parser.found exchange.before.options exchange.source

/-- The exchange warned of a conflict under a name. -/
def Exchange.Warns (exchange : Exchange) (name : String) : Prop :=
  .conflict name ∈ exchange.reply.events

/-- A session holds what its history says, and nothing else. -/
structure Remembers (parser : Parser) (history : History) (session : Session) : Prop where
  replies : ∀ exchange ∈ history.exchanges,
    exchange.reply = exchange.before.parseDocument parser exchange.source
  cached : ∀ key stored, session.cache.get? key = some stored ↔
    ∃ exchange ∈ history.exchanges, exchange.key = key ∧ exchange.Returns stored
  origin : ∀ key stored, session.cache.get? key = some stored →
    ∃ exchange ∈ history.exchanges, exchange.Anew ∧ exchange.key = key ∧ exchange.Returns stored
  keys : (session.cache.entries.map Prod.fst).Nodup
  serials : (session.cache.entries.map fun entry => entry.2.serial).Nodup
  range : ∀ entry ∈ session.cache.entries,
    history.base.made ≤ entry.2.serial ∧ entry.2.serial < session.made
  made : history.base.made ≤ session.made
  calls : session.parserCalls =
    history.base.parserCalls + (history.failures + session.cache.size)
  consistent : session.registry.Consistent
  registered : ∀ name key, key ∈ session.registry.keysOf name ↔
    ∃ exchange ∈ history.exchanges, exchange.Anew ∧ (name, key) ∈ exchange.found parser
  warned : ∀ exchange ∈ history.exchanges, ∀ name, exchange.Warns name →
    session.registry.Lists name

section
variable {parser : Parser} {history : History} {session : Session}

/-- A cleared session remembers an empty history. -/
theorem remembers_cleared (cache : session.cache = .empty) (registry : session.registry = .empty) :
    Remembers parser ⟨session, []⟩ session where
  replies := by simp
  cached := by simp [cache, Cache.get?, Cache.empty]
  origin := by simp [cache, Cache.get?, Cache.empty]
  keys := by simp [cache, Cache.empty]
  serials := by simp [cache, Cache.empty]
  range := by simp [cache, Cache.empty]
  made := Nat.le_refl _
  calls := by simp [History.failures, cache, Cache.size, Cache.empty]
  consistent := registry ▸ Registry.empty_consistent
  registered := by simp [registry, Registry.keysOf, Registry.variants?, Registry.empty]
  warned := by simp

private theorem replies_snoc (known : Remembers parser history session) (source : String) :
    ∀ exchange ∈ history.exchanges ++ [⟨session, source, session.parseDocument parser source⟩],
      exchange.reply = exchange.before.parseDocument parser exchange.source := by
  simp only [List.forall_mem_append, List.forall_mem_singleton, and_true]
  exact known.replies

private theorem failures_snoc (history : History) (exchange : Exchange) :
    History.failures ⟨history.base, history.exchanges ++ [exchange]⟩ =
      history.failures + if exchange.succeeded then 0 else 1 := by
  cases answered : exchange.succeeded <;> simp [History.failures, List.filter_append, answered]

/-- An exchange that leaves the session as it is, and returns what the cache holds. -/
private theorem remembers_hit (known : Remembers parser history session) {source : String}
    {stored : StoredDocument}
    (found : session.cache.get? (Text.normalize source) = some stored)
    (replied : session.parseDocument parser source =
      ⟨.ok stored, session, [.cacheHit (Text.normalize source)]⟩) :
    Remembers parser
      ⟨history.base,
        history.exchanges ++ [⟨session, source, session.parseDocument parser source⟩]⟩
      session where
  replies := replies_snoc known source
  cached := by
    intro key other
    rw [known.cached]
    constructor
    · rintro ⟨exchange, member, fits⟩
      exact ⟨exchange, List.mem_append_left _ member, fits⟩
    · rintro ⟨exchange, member, fits⟩
      rcases List.mem_append.mp member with member | member
      · exact ⟨exchange, member, fits⟩
      · obtain rfl := List.mem_singleton.mp member
        obtain ⟨rfl, returned⟩ := fits
        simp only [Exchange.Returns, replied, Except.ok.injEq] at returned
        exact (known.cached _ _).mp (returned ▸ found)
  origin := by
    intro key other held
    obtain ⟨exchange, member, fits⟩ := known.origin key other held
    exact ⟨exchange, List.mem_append_left _ member, fits⟩
  keys := known.keys
  serials := known.serials
  range := known.range
  made := known.made
  calls := by
    rw [known.calls, failures_snoc]
    simp [Exchange.succeeded, replied, Except.isOk, Except.toBool]
  consistent := known.consistent
  registered := by
    intro name key
    rw [known.registered]
    constructor
    · rintro ⟨exchange, member, fits⟩
      exact ⟨exchange, List.mem_append_left _ member, fits⟩
    · rintro ⟨exchange, member, anew, fits⟩
      rcases List.mem_append.mp member with member | member
      · exact ⟨exchange, member, anew, fits⟩
      · obtain rfl := List.mem_singleton.mp member
        simp [Exchange.Anew, Exchange.key, found] at anew
  warned := by
    simp only [List.forall_mem_append, List.forall_mem_singleton, Exchange.Warns, replied]
    exact ⟨known.warned, by simp⟩

/-- An exchange that fails counts a parser call, and maybe poisons the lock. -/
private theorem remembers_failure (known : Remembers parser history session) {source : String}
    {failure : Failure SessionError} {panicked : Bool}
    (unread : parser.read session.options source = .error failure)
    (replied : session.parseDocument parser source =
      ⟨.error failure, session.noting 1 panicked, [.parsing (Text.normalize source)]⟩) :
    Remembers parser
      ⟨history.base,
        history.exchanges ++ [⟨session, source, session.parseDocument parser source⟩]⟩
      (session.noting 1 panicked) where
  replies := replies_snoc known source
  cached := by
    intro key other
    rw [Session.noting_toState, known.cached]
    simp [Exchange.Returns, replied, or_and_right, exists_or]
  origin := by
    intro key other held
    obtain ⟨exchange, member, fits⟩ := known.origin key other held
    exact ⟨exchange, List.mem_append_left _ member, fits⟩
  keys := known.keys
  serials := known.serials
  range := known.range
  made := known.made
  calls := by
    have failed : Exchange.succeeded ⟨session, source, session.parseDocument parser source⟩ =
        false := by
      simp [Exchange.succeeded, replied, Except.isOk, Except.toBool]
    simp only [Session.noting, known.calls, failures_snoc, failed, Bool.false_eq_true, ↓reduceIte]
    omega
  consistent := known.consistent
  registered := by
    intro name key
    rw [Session.noting_toState, known.registered]
    simp [Exchange.found, Parser.found, unread, or_and_right, exists_or]
  warned := by
    simp only [List.forall_mem_append, List.forall_mem_singleton, Exchange.Warns, replied]
    exact ⟨known.warned, by simp⟩

private theorem get_keeping (session : Session) (source : String) (document : Document)
    (keyed : List KeyedDefinition) (missing : session.cache.get? (Text.normalize source) = none)
    (key : String) (stored : StoredDocument) :
    (session.keeping source document keyed).cache.get? key = some stored ↔
      session.cache.get? key = some stored ∨
        (Text.normalize source = key ∧
          ⟨session.made, assemble source document keyed⟩ = stored) := by
  simp only [Cache.get?, Session.keeping, List.lookup_append] at missing ⊢
  by_cases same : key = Text.normalize source
  · subst key
    simp [missing]
  · have differ : (key == Text.normalize source) = false := beq_false_of_ne same
    simp [List.lookup_cons, differ, Ne.symm same]

/-- An exchange that reads a text stores its document, with a serial number of its own, and
observes its fragments. -/
private theorem remembers_reading (known : Remembers parser history session) {source : String}
    {document : Document} {keyed : List KeyedDefinition}
    (missing : session.cache.get? (Text.normalize source) = none)
    (read : parser.read session.options source = .ok (document, keyed))
    (replied : session.parseDocument parser source =
      ⟨.ok ⟨session.made, assemble source document keyed⟩, session.keeping source document keyed,
        .parsing (Text.normalize source) :: ((session.warnings keyed).map .conflict ++
          [.caching (Text.normalize source)
            (assemble source document keyed).document.definitions.length])⟩) :
    Remembers parser
      ⟨history.base,
        history.exchanges ++ [⟨session, source, session.parseDocument parser source⟩]⟩
      (session.keeping source document keyed) where
  replies := replies_snoc known source
  cached := by
    intro key stored
    rw [get_keeping session source document keyed missing, known.cached]
    simp only [List.mem_append, List.mem_singleton, or_and_right, exists_or, exists_eq_left,
      Exchange.Returns, replied, Except.ok.injEq, Exchange.key]
  origin := by
    intro key stored held
    rcases (get_keeping session source document keyed missing key stored).mp held with
      held | ⟨same, made⟩
    · obtain ⟨exchange, member, fits⟩ := known.origin key stored held
      exact ⟨exchange, List.mem_append_left _ member, fits⟩
    · refine ⟨_, List.mem_append_right _ (List.mem_singleton_self _), missing, same, ?_⟩
      simp only [Exchange.Returns, replied, made]
  keys := by
    simp only [Session.keeping, List.map_append, List.map_cons, List.map_nil]
    refine List.nodup_append.mpr ⟨known.keys, List.nodup_singleton _, ?_⟩
    rintro key member _ (_ | ⟨_, ⟨⟩⟩) rfl
    have absent := List.lookup_eq_none_iff.mp missing
    obtain ⟨entry, held, same⟩ := List.mem_map.mp member
    simpa [same] using absent entry held
  serials := by
    simp only [Session.keeping, List.map_append, List.map_cons, List.map_nil]
    refine List.nodup_append.mpr ⟨known.serials, List.nodup_singleton _, ?_⟩
    rintro serial member _ (_ | ⟨_, ⟨⟩⟩) rfl
    obtain ⟨entry, held, same⟩ := List.mem_map.mp member
    have below := (known.range entry held).2
    omega
  range := by
    have made := known.made
    simp only [Session.keeping, List.forall_mem_append, List.forall_mem_singleton]
    refine ⟨fun entry held => ?_, made, Nat.lt_succ_self _⟩
    have range := known.range entry held
    omega
  made := Nat.le_succ_of_le known.made
  calls := by
    have answered : Exchange.succeeded ⟨session, source, session.parseDocument parser source⟩ =
        true := by
      simp [Exchange.succeeded, replied, Except.isOk, Except.toBool]
    simp only [Session.keeping, known.calls, failures_snoc, answered, ↓reduceIte, Cache.size,
      List.length_append, List.length_singleton]
    omega
  consistent := retain_consistent known.consistent [] keyed
  registered := by
    intro name key
    simp only [Session.keeping, mem_keysOf_retain, known.registered]
    have fresh : Exchange.Anew ⟨session, source, session.parseDocument parser source⟩ := missing
    have found : Exchange.found parser ⟨session, source, session.parseDocument parser source⟩ =
        observations keyed := by
      simp [Exchange.found, Parser.found, read]
    simp only [List.mem_append, List.mem_singleton, or_and_right, exists_or, exists_eq_left, found,
      fresh, true_and]
  warned := by
    have still : ∀ name, session.registry.Lists name →
        (session.keeping source document keyed).registry.Lists name :=
      fun name => retain_lists known.consistent [] keyed
    simp only [List.forall_mem_append, List.forall_mem_singleton, Exchange.Warns]
    refine ⟨fun exchange member name reported => still name ?_, fun name reported => ?_⟩
    · exact known.warned exchange member name reported
    · have conflict : name ∈ session.warnings keyed := by simpa [replied] using reported
      exact retain_conflicts_listed known.consistent (Session.mem_warnings conflict)

/-- One request keeps what is remembered. -/
theorem remembers_step (known : Remembers parser history session) (request : Request) :
    Remembers parser (history.next parser session request)
      (session.perform parser request).session := by
  cases request with
  | parse source fragments =>
    simp only [History.next, Session.perform, Session.parse]
    generalize joinSources source fragments = text
    rcases session.parse_document_cases parser text with
      ⟨stored, found, replied⟩ | ⟨failure, -, unread, replied⟩ |
      ⟨document, keyed, missing, read, replied⟩
    · have remembered := remembers_hit known found replied
      rwa [replied] at remembered ⊢
    · have remembered := remembers_failure known unread replied
      rwa [replied] at remembered ⊢
    · have remembered := remembers_reading known missing read replied
      rwa [replied] at remembered ⊢
  | reset => exact remembers_cleared rfl rfl
  | setFragmentVariables enabled => exact { known with }
  | setWarnOnConflict enabled => exact { known with }

/-- Every run keeps what is remembered. -/
theorem remembers_extend (known : Remembers parser history session) (requests : List Request) :
    Remembers parser (history.extend parser session requests)
      (session.after parser requests) := by
  induction requests generalizing history session with
  | nil => exact known
  | cons request rest ih => exact ih (remembers_step known request)

/-- After every run a session holds what its history says. -/
theorem remembers_run (parser : Parser) (options : SessionOptions) (requests : List Request) :
    Remembers parser (.ofRun parser options requests)
      ((Session.start options).after parser requests) :=
  remembers_extend (remembers_cleared rfl rfl) requests

end
end QueryStore
