import QueryStore.Proofs.Fragment.Regular
import QueryStore.Proofs.Session.Sharing

/-! When caching does not show. A session answers a text as a fresh session would exactly if
the text that was stored first under the same key is answered so (`transparent_iff`).
Between regular texts this is always the case (`regular_answer`). Other texts may share a
key although they come to different documents, or one of them to none: the key does not
tell a line end that closes a comment from a space, nor spaces in a string from one space.
-/
namespace QueryStore
open Text Grammar

/-- Answers that a caller who ignores locations cannot tell apart: two failures, or documents
with the same definitions. -/
inductive SameAnswer : Except (Failure SessionError) StoredDocument → Except (Failure SessionError) StoredDocument →
    Prop
  | failed (left right : Failure SessionError) : SameAnswer (.error left) (.error right)
  | returned {left right : StoredDocument}
    (same : left.parsed.document.definitions = right.parsed.document.definitions) :
    SameAnswer (.ok left) (.ok right)

namespace SameAnswer
variable {left right other : Except (Failure SessionError) StoredDocument}

theorem refl (answer : Except (Failure SessionError) StoredDocument) : SameAnswer answer answer := by
  cases answer with
  | error error => exact .failed error error
  | ok stored => exact .returned rfl

theorem symm (same : SameAnswer left right) : SameAnswer right left := by
  cases same with
  | failed left right => exact .failed right left
  | returned same => exact .returned same.symm

theorem trans (first : SameAnswer left other) (second : SameAnswer other right) :
    SameAnswer left right := by
  cases first with
  | failed => cases second; exact .failed _ _
  | returned same =>
    cases second with
    | returned same' => exact .returned (same.trans same')

theorem isOk_eq (same : SameAnswer left right) : left.isOk = right.isOk := by
  cases same <;> rfl

end SameAnswer

/-- What a session that has seen nothing answers to a text. -/
def freshAnswer (parser : Parser) (options : SessionOptions) (source : String) :
    Except (Failure SessionError) StoredDocument :=
  ((Session.start options).parseDocument parser source).result

section
variable {parser : Parser} {history : History} {session : Session}

/-- Serial numbers apart, a session returns for a text that is not in its cache what a fresh
session would. -/
theorem unheard_same {source : String}
    (missing : session.cache.get? (Text.normalize source) = none) :
    SameAnswer (session.parseDocument parser source).result
      (freshAnswer parser session.options source) := by
  rw [freshAnswer, Session.fresh_result]
  rcases session.parse_document_cases parser source with
    ⟨stored, found, -⟩ | ⟨error, -, read, replied⟩ | ⟨document, keyed, -, read, replied⟩
  · rw [missing] at found
    cases found
  · rw [replied, read]
    exact .failed _ _
  · rw [replied, read]
    exact .returned rfl

/-- What was stored for a text is what a fresh session would return for it. -/
theorem stored_same (known : Remembers parser history session) {exchange : Exchange}
    (member : exchange ∈ history.exchanges) (anew : exchange.Anew) {stored : StoredDocument}
    (returned : exchange.Returns stored) :
    SameAnswer (.ok stored) (freshAnswer parser exchange.before.options exchange.source) := by
  have same : SameAnswer _ (freshAnswer parser exchange.before.options exchange.source) :=
    unheard_same anew
  rwa [← known.replies exchange member, returned] at same

/-- A text is answered as by a fresh session exactly if the text that was stored first under
its key, where there is one, is answered so. -/
theorem transparent_iff (known : Remembers parser history session) (source : String) :
    SameAnswer (session.parseDocument parser source).result
        (freshAnswer parser session.options source) ↔
      ∀ exchange ∈ history.exchanges, exchange.Anew → exchange.succeeded →
        exchange.key = Text.normalize source →
        SameAnswer (freshAnswer parser exchange.before.options exchange.source)
          (freshAnswer parser session.options source) := by
  cases found : session.cache.get? (Text.normalize source) with
  | none =>
    apply iff_of_true (unheard_same found)
    intro exchange member anew succeeded same
    obtain ⟨stored, returned⟩ := Exchange.succeeded_iff.mp succeeded
    have held := (known.cached _ _).mpr ⟨exchange, member, same, returned⟩
    rw [found] at held
    cases held
  | some stored =>
    have answer : (session.parseDocument parser source).result = .ok stored := by
      rw [session.cached_reply parser source found]
    rw [answer]
    constructor
    · intro agree exchange member anew succeeded same
      obtain ⟨stored', returned⟩ := Exchange.succeeded_iff.mp succeeded
      have held := (known.cached _ _).mpr ⟨exchange, member, same, returned⟩
      rw [found] at held
      cases held
      exact (stored_same known member anew returned).symm.trans agree
    · intro agree
      obtain ⟨exchange, member, anew, same, returned⟩ := known.origin _ _ found
      have succeeded := Exchange.succeeded_iff.mpr ⟨stored, returned⟩
      exact (stored_same known member anew returned).trans
        (agree exchange member anew succeeded same)

end

/-- Definitions that are the same and have the same keys leave the same document. -/
theorem retain_same {found found' : List Definition} {keyed keyed' : List KeyedDefinition}
    (same : List.Forall₂ SameDefinition found found') (keys : keyDefinitions found = .ok keyed)
    (keys' : keyDefinitions found' = .ok keyed') (equal : observations keyed = observations keyed')
    (seen : List String) (registry registry' : Registry) :
    (retain seen registry keyed).definitions.map (Definition.strip false) =
      (retain seen registry' keyed').definitions.map (Definition.strip false) := by
  induction same generalizing keyed keyed' seen registry registry' with
  | nil =>
    cases keys
    cases keys'
    rfl
  | @cons left right found found' here _ ih =>
    cases left with
    | operation operation =>
      cases right with
      | fragment fragment => cases here
      | operation operation' =>
        obtain ⟨others, later, rfl⟩ := keyed_operation.mp keys
        obtain ⟨others', later', rfl⟩ := keyed_operation.mp keys'
        have rest := ih later later' equal seen registry registry'
        simp only [retain, List.map_cons, rest]
        exact congrArg (· :: _) here
    | fragment fragment =>
      cases right with
      | operation operation => cases here
      | fragment fragment' =>
        obtain ⟨key, others, -, later, rfl⟩ := keyed_fragment.mp keys
        obtain ⟨key', others', -, later', rfl⟩ := keyed_fragment.mp keys'
        simp only [observations, List.cons.injEq, Prod.mk.injEq] at equal
        obtain ⟨⟨-, rfl⟩, equal⟩ := equal
        have rest := ih later later' equal (key :: seen) (registry.observe fragment.name key).2
          (registry'.observe fragment'.name key).2
        simp only [retain]
        split
        · exact rest
        · simp only [List.map_cons, rest]
          exact congrArg (· :: _) here

/-- Every fragment of a regular text has a key. -/
private theorem regular_keyed {options : SessionOptions} {source : String}
    (regular : Regular options source) {document : Document}
    (parsed : Document.parse ⟨options.fragmentVariables⟩ source = .ok document) :
    ∃ keyed, keyDefinitions document.definitions = .ok keyed ∧
      Parser.standard.read options source = .ok (document, keyed) := by
  cases keys : keyDefinitions document.definitions with
  | ok keyed =>
    refine ⟨keyed, rfl, ?_⟩
    simp only [Parser.read, Parser.standard, parsed, Except.map, keys]
  | error name =>
    have unfound : Parser.standard.found options source = [] := by
      simp only [Parser.found, Parser.read, Parser.standard, parsed, Except.map, keys]
    have all : ∀ fragment ∈ fragmentsOf document.definitions, fragment.key?.isSome = true := by
      intro fragment member
      obtain ⟨own, -, listed⟩ := regular_spelled regular parsed member
      rw [unfound] at listed
      cases listed
    obtain ⟨keyed, named⟩ := keyed_of_all all
    rw [keys] at named
    cases named

/-- A fresh session returns the same for regular texts with one key. -/
theorem regular_answer {options options' : SessionOptions} {source source' : String}
    (regular : Regular options source) (regular' : Regular options' source')
    (same : Text.normalize source = Text.normalize source') :
    SameAnswer (freshAnswer .standard options source) (freshAnswer .standard options' source') := by
  have onward : ∀ {options options' : SessionOptions} {source source' : String}
      {document : Document}, Regular options source → Regular options' source' →
      Text.normalize source = Text.normalize source' →
      Document.parse ⟨options.fragmentVariables⟩ source = .ok document →
      SameAnswer (freshAnswer .standard options source)
        (freshAnswer .standard options' source') := by
    intro options options' source source' document regular regular' same parsed
    obtain ⟨document', parsed', twins⟩ := regular_parse regular regular' same parsed
    obtain ⟨keyed, keys, read⟩ := regular_keyed regular parsed
    obtain ⟨keyed', keys', read'⟩ := regular_keyed regular' parsed'
    have found := regular_found regular regular' same
    simp only [Parser.found, read, read'] at found
    rw [freshAnswer, freshAnswer, Session.fresh_result, Session.fresh_result, read, read']
    exact .returned (retain_same twins keys keys' found [] .empty .empty)
  cases parsed : Document.parse ⟨options.fragmentVariables⟩ source with
  | ok document => exact onward regular regular' same parsed
  | error failure =>
    cases parsed' : Document.parse ⟨options'.fragmentVariables⟩ source' with
    | ok document => exact (onward regular' regular same.symm parsed').symm
    | error failure' =>
      rw [freshAnswer, freshAnswer, Session.fresh_result, Session.fresh_result]
      simp only [Parser.read, Parser.standard, parsed, parsed', Except.map]
      exact .failed _ _

/-- **When caching is transparent.** After any requests a session answers a text as a fresh
session with its options does, exactly if the text that was read first since the last
clearing under the same key, where there is one, is answered so by a fresh session; and that
is so if it is the same text under the same options, or both texts are regular. -/
theorem caching_transparent_iff (options : SessionOptions) (requests : List Request)
    (source : String) :
    let session := (Session.start options).after .standard requests
    let history := History.ofRun .standard options requests
    (SameAnswer (session.parseDocument .standard source).result
        (freshAnswer .standard session.options source) ↔
      ∀ exchange ∈ history.exchanges, exchange.Anew → exchange.succeeded →
        exchange.key = Text.normalize source →
        SameAnswer (freshAnswer .standard exchange.before.options exchange.source)
          (freshAnswer .standard session.options source)) ∧
    ((∀ exchange ∈ history.exchanges, exchange.Anew → exchange.succeeded →
        exchange.key = Text.normalize source →
        (exchange.source = source ∧ exchange.before.options = session.options) ∨
        (Regular exchange.before.options exchange.source ∧ Regular session.options source)) →
      SameAnswer (session.parseDocument .standard source).result
        (freshAnswer .standard session.options source)) := by
  intro session history
  have known : Remembers .standard history session := remembers_run .standard options requests
  refine ⟨transparent_iff known source, ?_⟩
  intro calm
  apply (transparent_iff known source).mpr
  intro exchange member anew succeeded same
  rcases calm exchange member anew succeeded same with ⟨text, unchanged⟩ | ⟨regular, regular'⟩
  · rw [text, unchanged]
    exact .refl _
  · exact regular_answer regular regular' same

/-- Other white space does not show in the answer. -/
theorem line_breaks_transparent :
    SameAnswer
      (((Session.start Session.defaultOptions).after .standard
        [.parse "\x7b a, b \x7d" []]).parseDocument .standard "\x7b\n  a\n  b\n\x7d").result
      (freshAnswer .standard
        ((Session.start Session.defaultOptions).after .standard
          [.parse "\x7b a, b \x7d" []]).options "\x7b\n  a\n  b\n\x7d") := by
  have texts : ∀ exchange ∈ (History.ofRun .standard Session.defaultOptions
      [.parse "\x7b a, b \x7d" []]).exchanges,
      Simple exchange.source.toList ∧ exchange.before.options.fragmentVariables = false := by
    decide +kernel
  refine (caching_transparent_iff Session.defaultOptions [.parse "\x7b a, b \x7d" []]
    "\x7b\n  a\n  b\n\x7d").2 ?_
  intro exchange member _ _ _
  obtain ⟨simple, off⟩ := texts exchange member
  have simple' : Simple "\x7b\n  a\n  b\n\x7d".toList := by decide +kernel
  exact Or.inr ⟨simple.regular off, simple'.regular (by decide +kernel)⟩

/-- A line end that closes a comment is no part of the key: after the first text the second
is answered with its document, though on its own it is no document. -/
theorem comment_swallows_brace :
    ¬ SameAnswer
      (((Session.start Session.defaultOptions).after .standard
        [.parse "\x7b a # b\n c \x7d" []]).parseDocument .standard "\x7b a # b c \x7d").result
      (freshAnswer .standard Session.defaultOptions "\x7b a # b c \x7d") := by
  intro same
  have both := same.isOk_eq
  revert both
  decide +kernel

end QueryStore
