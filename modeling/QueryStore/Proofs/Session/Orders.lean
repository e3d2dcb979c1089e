import Mathlib.Data.List.Count
import QueryStore.Proofs.Session.Coherence

/-! Texts that are submitted in different orders. A text is answered by the document under its
key, or else by what the parser makes of it, so texts with keys of their own do not meet in the
cache: each is answered as if it came first (`submitted_answers`). What they leave behind are a
set of cached keys and a set of observed keys (`submitted_cached`, `submitted_keysOf`), and the
warnings under a name are as many as the keys that it has gained behind its first one
(`submitted_warnings`). None of this depends on the order. -/
namespace QueryStore

/-- Texts as requests, without fragments of other documents. -/
def submissions (sources : List String) : List Request := sources.map fun source => .parse source []

/-- What a response says, documents being taken by value. -/
def Response.value (response : Response) : Option (Except (Failure SessionError) ParsedDocument) :=
  response.result.map fun result => result.map StoredDocument.parsed

theorem joinSources_nil (source : String) : joinSources source [] = source := by
  simp [joinSources, String.join]

namespace Session

/-- What a session answers to a text, documents being taken by value. -/
def answer (parser : Parser) (session : Session) (source : String) :
    Except (Failure SessionError) ParsedDocument :=
  match session.cache.get? (Text.normalize source) with
  | some stored => .ok stored.parsed
  | none => (parser.read session.options source).map fun read => assemble source read.1 read.2

/-- The names and keys that a text adds to the registry of a session. -/
def observed (parser : Parser) (session : Session) (source : String) : List (String × String) :=
  match session.cache.get? (Text.normalize source) with
  | some _ => []
  | none => parser.found session.options source

/-- What is said of texts that are submitted one after the other, each with its text. -/
def answers (parser : Parser) (session : Session) (sources : List String) :
    List (String × Option (Except (Failure SessionError) ParsedDocument)) :=
  sources.zip ((session.run parser (submissions sources)).map Response.value)

/-- The number of warnings under a name while texts are submitted one after the other. -/
def warnedOf (parser : Parser) (session : Session) (sources : List String) (name : String) : Nat :=
  ((session.run parser (submissions sources)).flatMap Response.events).count (.conflict name)

section
variable (parser : Parser) (session : Session) (source : String)

/-- The session after a text. -/
def behind : Session := (session.parseDocument parser source).session

theorem answer_eq :
    (session.parseDocument parser source).result.map StoredDocument.parsed =
      session.answer parser source := by
  rcases session.parse_document_cases parser source with
    ⟨stored, found, replied⟩ | ⟨error, missing, read, replied⟩ |
    ⟨document, keyed, missing, read, replied⟩
  · rw [replied, answer, found]
    rfl
  · rw [replied, answer, missing, read]
    rfl
  · rw [replied, answer, missing, read]
    rfl

theorem behind_options : (session.behind parser source).options = session.options := by
  rcases session.parse_document_cases parser source with
    ⟨stored, -, replied⟩ | ⟨error, -, -, replied⟩ | ⟨document, keyed, -, -, replied⟩ <;>
  simp [behind, replied, keeping]

theorem behind_consistent (sound : session.registry.Consistent) :
    (session.behind parser source).registry.Consistent := by
  rcases session.parse_document_cases parser source with
    ⟨stored, -, replied⟩ | ⟨error, -, -, replied⟩ | ⟨document, keyed, -, -, replied⟩ <;>
  rw [behind, replied]
  · exact sound
  · exact sound
  · exact retain_consistent sound [] keyed

/-- A text does not touch what stands under other keys. -/
theorem behind_other {key : String} (other : key ≠ Text.normalize source) :
    (session.behind parser source).cache.get? key = session.cache.get? key := by
  rcases session.parse_document_cases parser source with
    ⟨stored, -, replied⟩ | ⟨error, -, -, replied⟩ | ⟨document, keyed, -, -, replied⟩ <;>
  rw [behind, replied]
  · rfl
  · have differ : (key == Text.normalize source) = false := beq_false_of_ne other
    simp [keeping, Cache.get?, List.lookup_append, List.lookup_cons, differ]

/-- A text has a document under its key exactly if it is answered with one. -/
theorem behind_own : (session.behind parser source).cache.contains (Text.normalize source) =
    (session.answer parser source).isOk := by
  rcases session.parse_document_cases parser source with
    ⟨stored, found, replied⟩ | ⟨error, missing, read, replied⟩ |
    ⟨document, keyed, missing, read, replied⟩ <;>
  rw [behind, replied]
  · simp [Cache.contains, answer, found, Except.isOk, Except.toBool]
  · simp [Cache.contains, answer, missing, read, Except.map, Except.isOk, Except.toBool]
  · have absent : session.cache.entries.lookup (Text.normalize source) = none := missing
    simp [Cache.contains, Cache.get?, keeping, List.lookup_append, absent, answer, read, Except.map,
      Except.isOk, Except.toBool]

theorem behind_keysOf (name key : String) :
    key ∈ (session.behind parser source).registry.keysOf name ↔
      key ∈ session.registry.keysOf name ∨ (name, key) ∈ session.observed parser source := by
  rcases session.parse_document_cases parser source with
    ⟨stored, found, replied⟩ | ⟨error, missing, read, replied⟩ |
    ⟨document, keyed, missing, read, replied⟩ <;>
  rw [behind, replied]
  · simp [observed, found]
  · simp [observed, missing, Parser.found, read]
  · simp [observed, missing, Parser.found, read, keeping, mem_keysOf_retain]

/-- A text is warned of, if warnings are on, as often as a name gains a key behind its first. -/
theorem behind_warnings (sound : session.registry.Consistent) (name : String) :
    if session.options.warnOnConflict then
      (session.behind parser source).registry.excess name = session.registry.excess name +
        (session.parseDocument parser source).events.count (.conflict name)
    else (session.parseDocument parser source).events.count (.conflict name) = 0 := by
  rcases session.parse_document_cases parser source with
    ⟨stored, -, replied⟩ | ⟨error, -, -, replied⟩ | ⟨document, keyed, -, -, replied⟩ <;>
  rw [behind, replied]
  · simp
  · simp
  · have injective : Function.Injective Event.conflict := fun _ _ same => Event.conflict.inj same
    have counted (warnings : List String) :
        (warnings.map Event.conflict).count (.conflict name) = warnings.count name :=
      List.count_map_of_injective warnings Event.conflict injective name
    cases warn : session.options.warnOnConflict
    · simp [warnings, warn]
    · simp [warnings, warn, keeping, counted, retain_excess sound]

end

section
variable {parser : Parser} {session : Session} {sources : List String}

/-- The first of texts that are submitted one after the other. -/
theorem perform_submission (source : String) :
    session.perform parser (.parse source []) =
      ⟨some (session.parseDocument parser source).result, session.behind parser source,
        (session.parseDocument parser source).events⟩ := by
  simp only [perform, Session.parse, joinSources_nil, behind]

theorem answer_behind {source other : String}
    (apart : Text.normalize other ≠ Text.normalize source) :
    (session.behind parser source).answer parser other = session.answer parser other := by
  simp only [answer, behind_other parser session source apart, behind_options]

theorem observed_behind {source other : String}
    (apart : Text.normalize other ≠ Text.normalize source) :
    (session.behind parser source).observed parser other = session.observed parser other := by
  simp only [observed, behind_other parser session source apart, behind_options]

/-- Texts with keys of their own are each answered as if they came first. -/
theorem submitted_answers (apart : (sources.map Text.normalize).Nodup) :
    session.answers parser sources =
      sources.map fun source => (source, some (session.answer parser source)) := by
  induction sources generalizing session with
  | nil => rfl
  | cons source rest ih =>
    obtain ⟨own, others⟩ := List.nodup_cons.mp apart
    have later := @ih (session.behind parser source) others
    simp only [answers, submissions] at later
    simp only [answers, submissions, List.map_cons, run_cons, perform_submission, List.zip_cons_cons,
      Response.value, Option.map_some, answer_eq, List.cons.injEq, true_and, later]
    refine List.map_congr_left fun other member => ?_
    have differ : Text.normalize other ≠ Text.normalize source :=
      fun same => own (same ▸ List.mem_map_of_mem member)
    rw [answer_behind differ]

private theorem after_submission (source : String) (rest : List String) :
    session.after parser (submissions (source :: rest)) =
      (session.behind parser source).after parser (submissions rest) := by
  simp only [submissions, List.map_cons, after_cons, perform_submission]

/-- A key is cached behind texts if it was before, or is the key of one that is answered with a
document. -/
theorem submitted_cached (apart : (sources.map Text.normalize).Nodup) (key : String) :
    (session.after parser (submissions sources)).cache.contains key = true ↔
      session.cache.contains key = true ∨
        ∃ source ∈ sources, Text.normalize source = key ∧
          (session.answer parser source).isOk = true := by
  induction sources generalizing session with
  | nil => simp [submissions]
  | cons source rest ih =>
    obtain ⟨own, others⟩ := List.nodup_cons.mp apart
    have differ : ∀ other ∈ rest, Text.normalize other ≠ Text.normalize source :=
      fun other member same => own (same ▸ List.mem_map_of_mem member)
    have first : (session.behind parser source).cache.contains key = true ↔
        session.cache.contains key = true ∨
          Text.normalize source = key ∧ (session.answer parser source).isOk = true := by
      by_cases same : key = Text.normalize source
      · subst key
        rw [behind_own]
        simp only [true_and, iff_or_self]
        intro held
        obtain ⟨stored, found⟩ := Option.isSome_iff_exists.mp held
        rw [answer, found]
        rfl
      · simp [Cache.contains, behind_other parser session source same, Ne.symm same]
    rw [after_submission, ih others, first, List.exists_mem_cons_iff, or_assoc]
    refine or_congr_right (or_congr_right (exists_congr fun other => and_congr_right fun member => ?_))
    rw [answer_behind (differ other member)]

/-- A key is registered behind texts if it was before, or if one of them adds it. -/
theorem submitted_keysOf (apart : (sources.map Text.normalize).Nodup) (name key : String) :
    key ∈ (session.after parser (submissions sources)).registry.keysOf name ↔
      key ∈ session.registry.keysOf name ∨
        ∃ source ∈ sources, (name, key) ∈ session.observed parser source := by
  induction sources generalizing session with
  | nil => simp [submissions]
  | cons source rest ih =>
    obtain ⟨own, others⟩ := List.nodup_cons.mp apart
    have differ : ∀ other ∈ rest, Text.normalize other ≠ Text.normalize source :=
      fun other member same => own (same ▸ List.mem_map_of_mem member)
    rw [after_submission, ih others, behind_keysOf, List.exists_mem_cons_iff, or_assoc]
    refine or_congr_right (or_congr_right (exists_congr fun other => and_congr_right fun member => ?_))
    rw [observed_behind (differ other member)]

theorem submitted_consistent (sound : session.registry.Consistent) (sources : List String) :
    (session.after parser (submissions sources)).registry.Consistent := by
  induction sources generalizing session with
  | nil => exact sound
  | cons source rest ih =>
    rw [after_submission]
    exact ih (behind_consistent parser session source sound)

/-- Texts are warned of, if warnings are on, as often as a name gains a key behind its first. -/
theorem submitted_warnings (sound : session.registry.Consistent) (sources : List String)
    (name : String) :
    if session.options.warnOnConflict then
      (session.after parser (submissions sources)).registry.excess name =
        session.registry.excess name + session.warnedOf parser sources name
    else session.warnedOf parser sources name = 0 := by
  induction sources generalizing session with
  | nil => simp [submissions, warnedOf]
  | cons source rest ih =>
    have first := session.behind_warnings parser source sound name
    have later := ih (behind_consistent parser session source sound)
    have counted : session.warnedOf parser (source :: rest) name =
        (session.parseDocument parser source).events.count (.conflict name) +
          (session.behind parser source).warnedOf parser rest name := by
      simp only [warnedOf, submissions, List.map_cons, run_cons, perform_submission, List.flatMap_cons,
        List.count_append]
    rw [behind_options] at later
    rw [after_submission, counted]
    split at first
    · simp_all; omega
    · simp_all

end
end Session

/-- **The order of independent texts does not matter.** From any state of a session, whatever
parsers it has met, texts with different canonical forms are submitted in two orders. Each text
comes to the same error or the same document; the same keys are cached, the same names known,
each with the same variants, and the same names listed as conflicts with these variants; and each
name is warned of as often. -/
theorem order_insignificant (parser : Parser) (options : SessionOptions) (turns : List Turn)
    {sources order : List String} (apart : (sources.map Text.normalize).Nodup)
    (reordered : order.Perm sources) :
    let session := (Session.start options).afterTurns turns
    let left := session.after parser (submissions sources)
    let right := session.after parser (submissions order)
    (session.answers parser order).Perm (session.answers parser sources) ∧
    (∀ key, right.cache.contains key = left.cache.contains key) ∧
    (∀ name, (right.registry.variants? name).isSome = (left.registry.variants? name).isSome) ∧
    (∀ name key, key ∈ right.registry.keysOf name ↔ key ∈ left.registry.keysOf name) ∧
    List.Forall₂ (fun one other => one.1 = other.1 ∧ one.2.Perm other.2)
      right.registry.conflicts left.registry.conflicts ∧
    ∀ name, session.warnedOf parser order name = session.warnedOf parser sources name := by
  intro session left right
  have apart' : (order.map Text.normalize).Nodup := (reordered.map _).nodup_iff.mpr apart
  have sound : session.registry.Consistent := (coherent_turns (coherent_cleared [] rfl rfl) turns).consistent
  have soundLeft : left.registry.Consistent := Session.submitted_consistent sound sources
  have soundRight : right.registry.Consistent := Session.submitted_consistent sound order
  have keys (name key : String) :
      key ∈ right.registry.keysOf name ↔ key ∈ left.registry.keysOf name := by
    rw [Session.submitted_keysOf apart', Session.submitted_keysOf apart]
    simp only [reordered.mem_iff]
  have empty (name : String) :
      right.registry.keysOf name = [] ↔ left.registry.keysOf name = [] := by
    simp only [List.eq_nil_iff_forall_not_mem, keys]
  refine ⟨?_, fun key => ?_, fun name => ?_, keys, soundRight.conflicts_alike soundLeft keys,
    fun name => ?_⟩
  · rw [Session.submitted_answers apart', Session.submitted_answers apart]
    exact reordered.map _
  · rw [Bool.eq_iff_iff, Session.submitted_cached apart', Session.submitted_cached apart]
    simp only [reordered.mem_iff]
  · rw [Bool.eq_iff_iff, soundRight.known_iff, soundLeft.known_iff, ne_eq, ne_eq, empty]
  · have excess : right.registry.excess name = left.registry.excess name := by
      have same := (List.perm_ext_iff_of_nodup (soundRight.keysOf_nodup name)
        (soundLeft.keysOf_nodup name)).mpr (keys name)
      rw [Registry.excess, Registry.excess, same.length_eq]
    have counted : if session.options.warnOnConflict then left.registry.excess name =
          session.registry.excess name + session.warnedOf parser sources name
        else session.warnedOf parser sources name = 0 :=
      Session.submitted_warnings sound sources name
    have counted' : if session.options.warnOnConflict then right.registry.excess name =
          session.registry.excess name + session.warnedOf parser order name
        else session.warnedOf parser order name = 0 :=
      Session.submitted_warnings sound order name
    split at counted <;> simp_all

/-- Behind a text with a fragment `F`, one text repeats it beside another `F`, one has a third,
and one is no document. In both orders two of the fragments are warned of. -/
theorem contradictions_reordered :
    let turns : List Turn := [⟨.standard, .parse "fragment F on T \x7b a \x7d" []⟩]
    let session := (Session.start Session.defaultOptions).afterTurns turns
    let repeating := "fragment F on T \x7b a \x7d fragment F on T \x7b b \x7d"
    let sources := [repeating, "\x7b x", "fragment F on T \x7b c \x7d"]
    let order := ["fragment F on T \x7b c \x7d", repeating, "\x7b x"]
    (session.answers .standard order).Perm (session.answers .standard sources) ∧
    (∀ key, key ∈ (session.after .standard (submissions order)).registry.keysOf "F" ↔
      key ∈ (session.after .standard (submissions sources)).registry.keysOf "F") ∧
    session.warnedOf .standard order "F" = session.warnedOf .standard sources "F" ∧
    session.warnedOf .standard sources "F" = 2 := by
  intro turns session repeating sources order
  have apart : (sources.map Text.normalize).Nodup := by decide +kernel
  have reordered : order.Perm sources := by decide +kernel
  obtain ⟨answers, -, -, keys, -, warned⟩ :=
    order_insignificant .standard Session.defaultOptions turns apart reordered
  exact ⟨answers, keys "F", warned "F", by decide +kernel⟩

end QueryStore
