import QueryStore.Proofs.Session.Answers

/-! Submissions that come to no document. Whether the parser refuses the text, panics, finds no
document or leaves a fragment without a text, nothing was stored or observed before: all keys of a
document are found before the registry hears of any. A panic poisons the lock, but a poisoned lock
still gives the state. So the session is as it was, and goes on as if the text had not been submitted
(`failures_leave_no_trace`). -/
namespace QueryStore

/-- Why a result holds no document. -/
def failure? : Except (Failure SessionError) StoredDocument → Option (Failure SessionError)
  | .error failure => some failure
  | .ok _ => none

theorem failure_eq_some {result : Except (Failure SessionError) StoredDocument}
    {failure : Failure SessionError} : failure? result = some failure ↔ result = .error failure := by
  cases result <;> simp [failure?]

/-- Reading panics exactly if the parser does. -/
theorem Parser.read_panicked {parser : Parser} {options : SessionOptions} {source : String} :
    parser.read options source = .error .panicked ↔
      parser ⟨options.fragmentVariables⟩ source = .error .panicked := by
  rw [Parser.read]
  cases parser ⟨options.fragmentVariables⟩ source with
  | error failure => cases failure <;> simp [Failure.map]
  | ok node =>
    cases node with
    | document document => cases keys : keyDefinitions document.definitions <;> simp [keys]
    | _ => simp

namespace Session
variable (parser : Parser) (session : Session) (source : String)

/-- A text comes to no document exactly when it is not in the cache and the parser's answer to
it holds none. -/
theorem refused_iff (failure : Failure SessionError) :
    (session.parseDocument parser source).result = .error failure ↔
      session.cache.get? (Text.normalize source) = none ∧
        parser.read session.options source = .error failure := by
  rcases session.parse_document_cases parser source with
    ⟨stored, found, replied⟩ | ⟨failure', missing, read, replied⟩ |
    ⟨document, keyed, missing, read, replied⟩
  · simp [replied, found]
  · simp [replied, missing, read]
  · simp [replied, read]

/-- What a text that comes to no document changes, and reports. -/
theorem refused_reply {failure : Failure SessionError}
    (refused : (session.parseDocument parser source).result = .error failure) :
    (session.parseDocument parser source).session = session.noting 1 (failure = .panicked) ∧
      (session.parseDocument parser source).events = [.parsing (Text.normalize source)] := by
  rcases session.parse_document_cases parser source with
    ⟨stored, -, replied⟩ | ⟨failure', -, -, replied⟩ | ⟨document, keyed, -, -, replied⟩
  · rw [replied] at refused
    cases refused
  · rw [replied] at refused ⊢
    cases refused
    exact ⟨rfl, rfl⟩
  · rw [replied] at refused
    cases refused

/-- What a text that comes to a document changes. -/
theorem answered_session {stored : StoredDocument}
    (answered : (session.parseDocument parser source).result = .ok stored) :
    (session.parseDocument parser source).session.options = session.options ∧
      ((session.parseDocument parser source).session.cache = session.cache ∨
        (session.parseDocument parser source).session.cache.entries =
          session.cache.entries ++ [(Text.normalize source, stored)]) ∧
      ∀ name keys, session.registry.variants? name = some keys → ∃ more,
        (session.parseDocument parser source).session.registry.variants? name =
          some (keys ++ more) := by
  rcases session.parse_document_cases parser source with
    ⟨held, -, replied⟩ | ⟨failure, -, -, replied⟩ | ⟨document, keyed, -, -, replied⟩
  · rw [replied]
    exact ⟨rfl, Or.inl rfl, fun name keys known => ⟨[], by rw [known, List.append_nil]⟩⟩
  · rw [replied] at answered
    cases answered
  · rw [replied] at answered ⊢
    cases answered
    exact ⟨rfl, Or.inr rfl, fun name keys known => variants_retain known [] keyed⟩

end Session

/-- **Failures leave no trace.** After any turns, a submission fails exactly when its text is not in
the cache and the parser's answer to it holds no document all of whose fragments have a key; it
panics exactly when the parser does. Then the lock gives the cache and the registry that it gave
before, and the options are the same; the lock is poisoned if it was before or if the submission
panicked. Nothing else changes but that one more parser call is counted, nothing is warned of, and
all later turns have the responses that they would have had without the submission, this count and
the poison apart. A submission that is answered adds at most its own document to the cache, under
the canonical form of its text, and adds only to the ends of the lists of keys. -/
theorem failures_leave_no_trace (options : SessionOptions) (turns : List Turn) (parser : Parser)
    (source : String) (fragments : List ParsedDocument) :
    let session := (Session.start options).afterTurns turns
    let text := joinSources source fragments
    let reply := session.parse parser source fragments
    (∀ failure, reply.result = .error failure ↔
      session.cache.get? (Text.normalize text) = none ∧
        parser.read session.options text = .error failure) ∧
    (reply.result = .error .panicked ↔
      session.cache.get? (Text.normalize text) = none ∧
        parser ⟨session.options.fragmentVariables⟩ text = .error .panicked) ∧
    (∀ failure, reply.result = .error failure →
      reply.session.lockState = session.lockState ∧ reply.session.options = session.options ∧
      (reply.session.poisoned = true ↔ session.poisoned = true ∨ failure = .panicked) ∧
      reply.session = session.noting 1 (failure = .panicked) ∧
      (∀ event ∈ reply.events, event.level ≠ "WARN") ∧
      ∀ later, reply.session.runTurns later =
        (session.runTurns later).map (.noting 1 (failure = .panicked))) ∧
    (∀ stored, reply.result = .ok stored →
      reply.session.options = session.options ∧
      (reply.session.cache = session.cache ∨
        reply.session.cache.entries =
          session.cache.entries ++ [(Text.normalize text, stored)]) ∧
      ∀ name keys, session.registry.variants? name = some keys →
        ∃ more, reply.session.registry.variants? name = some (keys ++ more)) := by
  intro session text reply
  refine ⟨session.refused_iff parser text, ?_, ?_, fun stored => session.answered_session parser text⟩
  · rw [← Parser.read_panicked]
    exact session.refused_iff parser text .panicked
  · intro failure refused
    obtain ⟨unchanged, events⟩ := session.refused_reply parser text refused
    have kept : reply.session = session.noting 1 (failure = .panicked) := unchanged
    have reported : reply.events = [.parsing (Text.normalize text)] := events
    refine ⟨?_, ?_, ?_, kept, ?_, fun later => ?_⟩
    · -- The lock gives the state that was left behind it, poisoned or not.
      rw [kept, Session.lockState_eq, Session.lockState_eq]
      rfl
    · rw [kept]
      rfl
    · simp [kept, Session.noting]
    · simp [reported, Event.level]
    · rw [kept, Session.run_noting]

/-- A fragment without a location behind one that would be a conflict is refused, and its document
forgotten. A parser that panics, at a block string whose indent ends inside a character, poisons the
lock. Behind both the fragments are stored with their locations, and the key of the first stands
behind the one that was known. -/
theorem unlocated_fragment_forgotten :
    let turns : List Turn := [⟨.standard, .parse "fragment F on T \x7b a \x7d" []⟩]
    let session := (Session.start Session.defaultOptions).afterTurns turns
    let source := "fragment F on T \x7b b \x7d fragment G on T \x7b c \x7d"
    let uneven := "\x7b a(s: \"\"\"\n a\n\u00A0b\"\"\") \x7d"
    let refused := session.parse .withoutLocations source []
    let broken := refused.session.parse .standard uneven []
    let answered := broken.session.parse .standard source []
    refused.result = .error (.returned (.missingLocation "F")) ∧
      refused.session = session.noting 1 false ∧
      broken.result = .error .panicked ∧ broken.session.poisoned = true ∧
      broken.session.lockState = session.lockState ∧
      (∀ later, broken.session.runTurns later = (session.runTurns later).map (.noting 2 true)) ∧
      ∃ stored more, answered.result = .ok stored ∧
        answered.session.registry.variants? "F" = some ("fragment F on T \x7b a \x7d" :: more) := by
  intro turns session source uneven refused broken answered
  have failed : refused.result = .error (.returned (.missingLocation "F")) :=
    failure_eq_some.mp (by decide +kernel)
  have panicked : broken.result = .error .panicked := failure_eq_some.mp (by decide +kernel)
  -- Each submission is the last one behind turns that are no others.
  let before := turns ++ [⟨.withoutLocations, .parse source []⟩]
  obtain ⟨-, -, traceless, -⟩ := failures_leave_no_trace Session.defaultOptions turns
    .withoutLocations source []
  obtain ⟨state, -, -, kept, -, later⟩ := traceless _ failed
  obtain ⟨-, -, traceless', -⟩ := failures_leave_no_trace Session.defaultOptions before
    .standard uneven []
  obtain ⟨state', -, poisoned, -, -, later'⟩ := traceless' _ panicked
  obtain ⟨-, -, -, grows⟩ := failures_leave_no_trace Session.defaultOptions
    (before ++ [⟨.standard, .parse uneven []⟩]) .standard source []
  refine ⟨failed, kept, panicked, poisoned.mpr (Or.inr rfl), state'.trans state, fun more => ?_, ?_⟩
  · have both : Response.noting 2 true = Response.noting 1 true ∘ Response.noting 1 false := by
      funext response
      simp [Response.noting, Session.noting]
    rw [both, ← List.map_map]
    exact (later' more).trans (congrArg (List.map (Response.noting 1 true)) (later more))
  · cases result : answered.result with
    | error failure =>
      have succeeded : failure? answered.result = none := by decide +kernel
      rw [result] at succeeded
      cases succeeded
    | ok stored =>
      obtain ⟨-, -, behind⟩ := grows stored result
      obtain ⟨more, known⟩ := behind "F" ["fragment F on T \x7b a \x7d"] (by decide +kernel)
      exact ⟨stored, more, rfl, known⟩

end QueryStore
