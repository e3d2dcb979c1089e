import QueryStore.Document.Json
import QueryStore.Json
import QueryStore.Proofs.Fragment.Regular
import QueryStore.Proofs.Session.Sharing

/-! Which names are listed as conflicts. A name is listed exactly when the texts that were
read show two keys under it (`lists_iff_contradicts`), and warnings name only such names.
Between regular texts, fragments of one name that differ have different keys
(`fragment_registered`); in straight texts, fragments that are spelled alike have the same key.
Elsewhere a key may hide a difference in a string, or invent one where a tab moves the
columns. -/
namespace QueryStore
open Text Grammar

/-- The fragments that the standard parser finds in the text of an exchange. -/
def Exchange.fragments (exchange : Exchange) : List Fragment :=
  match Document.parse ⟨exchange.before.options.fragmentVariables⟩ exchange.source with
  | .error _ => []
  | .ok document => fragmentsOf document.definitions

/-- The names of the fragments in the text of an exchange, with the canonical forms of their
own texts. -/
def Exchange.ownKeys (exchange : Exchange) : List (String × String) :=
  QueryStore.ownKeys ⟨exchange.before.options.fragmentVariables⟩ exchange.source

/-- The texts that were read show two keys under a name. -/
def History.Contradicts (parser : Parser) (history : History) (name : String) : Prop :=
  ∃ left ∈ history.exchanges, left.Anew ∧ ∃ right ∈ history.exchanges, right.Anew ∧
    ∃ key key', (name, key) ∈ left.found parser ∧ (name, key') ∈ right.found parser ∧ key ≠ key'

instance (registry : Registry) (name : String) : Decidable (registry.Lists name) :=
  inferInstanceAs (Decidable (name ∈ registry.conflicts.map Prod.fst))

section
variable {parser : Parser} {history : History} {session : Session}

/-- A name is listed exactly when the texts that were read show two keys under it. -/
theorem lists_iff_contradicts (known : Remembers parser history session) (name : String) :
    session.registry.Lists name ↔ history.Contradicts parser name := by
  rw [Registry.lists_iff known.consistent]
  constructor
  · rintro ⟨key, held, key', held', differ⟩
    obtain ⟨left, member, anew, found⟩ := (known.registered name key).mp held
    obtain ⟨right, member', anew', found'⟩ := (known.registered name key').mp held'
    exact ⟨left, member, anew, right, member', anew', key, key', found, found', differ⟩
  · rintro ⟨left, member, anew, right, member', anew', key, key', found, found', differ⟩
    have held := (known.registered name key).mpr ⟨left, member, anew, found⟩
    have held' := (known.registered name key').mpr ⟨right, member', anew', found'⟩
    exact ⟨key, held, key', held', differ⟩

/-- A text in which something was found when it was read was answered with a document. -/
theorem found_succeeded (known : Remembers parser history session) {exchange : Exchange}
    (member : exchange ∈ history.exchanges) (anew : exchange.Anew) {entry : String × String}
    (found : entry ∈ exchange.found parser) : exchange.succeeded = true := by
  have replied := known.replies exchange member
  rcases exchange.before.parse_document_cases parser exchange.source with
    ⟨stored, held, -⟩ | ⟨error, -, read, -⟩ | ⟨document, keyed, -, -, answer⟩
  · have missing : exchange.before.cache.get? (Text.normalize exchange.source) = none := anew
    rw [missing] at held
    cases held
  · simp [Exchange.found, Parser.found, read] at found
  · simp [Exchange.succeeded, replied, answer, Except.isOk, Except.toBool]

/-- The text that was read first under the key of an exchange that succeeded. -/
theorem read_first (known : Remembers parser history session) {exchange : Exchange}
    (member : exchange ∈ history.exchanges) (succeeded : exchange.succeeded = true) :
    ∃ first ∈ history.exchanges, first.Anew ∧ first.key = exchange.key ∧
      first.succeeded = true := by
  obtain ⟨stored, returned⟩ := Exchange.succeeded_iff.mp succeeded
  have held := (known.cached exchange.key stored).mpr ⟨exchange, member, rfl, returned⟩
  obtain ⟨first, member', anew, same, returned'⟩ := known.origin exchange.key stored held
  exact ⟨first, member', anew, same, Exchange.succeeded_iff.mpr ⟨stored, returned'⟩⟩

end

/-- A fragment among definitions has its like among definitions that are the same. -/
theorem fragment_alike {found found' : List Definition}
    (same : List.Forall₂ SameDefinition found found') {fragment : Fragment}
    (member : fragment ∈ fragmentsOf found) :
    ∃ fragment' ∈ fragmentsOf found', fragment.strip false = fragment'.strip false := by
  obtain ⟨definition, member', alike⟩ := forall₂_mem_left same (mem_fragmentsOf.mp member)
  cases definition with
  | operation operation => cases alike
  | fragment fragment' =>
    refine ⟨fragment', mem_fragmentsOf.mpr member', ?_⟩
    simpa [SameDefinition, Definition.strip] using alike

/-- Where all texts of one key are regular, each fragment of a text that was answered is
registered by a text that has a fragment like it. -/
theorem fragment_registered {history : History} {session : Session}
    (known : Remembers .standard history session) {exchange : Exchange}
    (member : exchange ∈ history.exchanges) (succeeded : exchange.succeeded = true)
    (regular : ∀ other ∈ history.exchanges, other.succeeded = true → other.key = exchange.key →
      Regular other.before.options other.source)
    {fragment : Fragment} (listed : fragment ∈ exchange.fragments) :
    ∃ first ∈ history.exchanges, first.Anew ∧ ∃ own fragment', Spelled own fragment' ∧
      fragment.strip false = fragment'.strip false ∧
      (fragment.name, String.ofList (canonical own)) ∈ first.found .standard := by
  obtain ⟨first, member', anew, same, succeeded'⟩ := read_first known member succeeded
  have here := regular exchange member succeeded rfl
  have there := regular first member' succeeded' same
  unfold Exchange.fragments at listed
  split at listed
  · cases listed
  · next document parsed =>
    obtain ⟨document', parsed', twins⟩ := regular_parse here there same.symm parsed
    obtain ⟨fragment', listed', alike⟩ := fragment_alike twins listed
    obtain ⟨own, spelled, found⟩ := regular_spelled there parsed' listed'
    have name : (fragment.strip false).name = (fragment'.strip false).name :=
      congrArg Fragment.name alike
    have named : fragment.name = fragment'.name := name
    rw [← named] at found
    exact ⟨first, member', anew, own, fragment', spelled, alike, found⟩

/-- A fragment written out without its locations. -/
def Fragment.written (fragment : Fragment) : String := (fragment.strip false).toJson.pretty

theorem strip_ne_of_written {fragment fragment' : Fragment}
    (differ : fragment.written ≠ fragment'.written) :
    fragment.strip false ≠ fragment'.strip false := by
  intro same
  exact differ (congrArg (fun stripped => stripped.toJson.pretty) same)

/-- **Which conflicts are detected.** After any requests a name is listed exactly when the
texts read since the last clearing show two keys under it. So it is when two texts that were
answered have fragments of that name that differ in more than their locations, provided that
all texts with the keys of these two are regular. -/
theorem conflict_detected_iff (options : SessionOptions) (requests : List Request)
    (name : String) :
    let session := (Session.start options).after .standard requests
    let history := History.ofRun .standard options requests
    (session.registry.Lists name ↔ history.Contradicts .standard name) ∧
    (∀ left ∈ history.exchanges, ∀ right ∈ history.exchanges,
      left.succeeded = true → right.succeeded = true →
      (∀ exchange ∈ history.exchanges, exchange.succeeded = true →
        exchange.key = left.key ∨ exchange.key = right.key →
        Regular exchange.before.options exchange.source) →
      ∀ fragment ∈ left.fragments, ∀ fragment' ∈ right.fragments,
        fragment.name = name → fragment'.name = name →
        fragment.strip false ≠ fragment'.strip false → session.registry.Lists name) := by
  intro session history
  have known : Remembers .standard history session := remembers_run .standard options requests
  refine ⟨lists_iff_contradicts known name, ?_⟩
  intro left member right member' succeeded succeeded' regular fragment listed fragment' listed'
    named named' differ
  obtain ⟨first, among, anew, own, other, spelled, alike, found⟩ :=
    fragment_registered known member succeeded
      (fun exchange held answered same => regular exchange held answered (Or.inl same)) listed
  obtain ⟨first', among', anew', own', other', spelled', alike', found'⟩ :=
    fragment_registered known member' succeeded'
      (fun exchange held answered same => regular exchange held answered (Or.inr same)) listed'
  rw [named] at found
  rw [named'] at found'
  refine (lists_iff_contradicts known name).mpr
    ⟨first, among, anew, first', among', anew', _, _, found, found', ?_⟩
  intro keys
  have same : canonical own = canonical own' := String.ofList_injective keys
  exact differ (alike.trans ((spelled_same spelled spelled' same).trans alike'.symm))

/-- Two plain fragments of one name that ask for different fields are a conflict. -/
theorem other_field_conflicts :
    let requests : List Request :=
      [.parse "fragment F on T \x7b a \x7d" [], .parse "fragment F on T \x7b b \x7d" []]
    ((Session.start Session.defaultOptions).after .standard requests).registry.Lists "F" := by
  intro requests
  have texts : ∀ exchange ∈
      (History.ofRun .standard Session.defaultOptions requests).exchanges,
      Simple exchange.source.toList ∧ exchange.before.options.fragmentVariables = false := by
    decide +kernel
  have shown : ∃ left ∈ (History.ofRun .standard Session.defaultOptions requests).exchanges,
      ∃ right ∈ (History.ofRun .standard Session.defaultOptions requests).exchanges,
      left.succeeded = true ∧ right.succeeded = true ∧
      ∃ fragment ∈ left.fragments, ∃ fragment' ∈ right.fragments,
        fragment.name = "F" ∧ fragment'.name = "F" ∧ fragment.written ≠ fragment'.written := by
    decide +kernel
  obtain ⟨left, member, right, member', succeeded, succeeded', fragment, listed, fragment',
    listed', named, named', differ⟩ := shown
  refine (conflict_detected_iff Session.defaultOptions requests "F").2 left member right member'
    succeeded succeeded' ?_ fragment listed fragment' listed' named named'
    (strip_ne_of_written differ)
  intro exchange among _ _
  obtain ⟨simple, off⟩ := texts exchange among
  exact simple.regular off

/-- Spaces in a string are no part of a key: two fragments that ask for different texts are
known by one key, and no conflict is listed. -/
theorem spaces_hide_conflict :
    let requests : List Request :=
      [.parse "fragment F on T \x7b a(s: \x22x  y\x22) \x7d" [],
        .parse "\x7b x \x7d fragment F on T \x7b a(s: \x22x y\x22) \x7d" []]
    let history := History.ofRun .standard Session.defaultOptions requests
    ∃ left ∈ history.exchanges, ∃ right ∈ history.exchanges,
      left.succeeded = true ∧ right.succeeded = true ∧
      (∃ fragment ∈ left.fragments, ∃ fragment' ∈ right.fragments,
        fragment.name = "F" ∧ fragment'.name = "F" ∧
        fragment.strip false ≠ fragment'.strip false) ∧
      ¬ ((Session.start Session.defaultOptions).after .standard requests).registry.Lists "F" := by
  intro requests history
  have hidden : ∃ left ∈ history.exchanges, ∃ right ∈ history.exchanges,
      left.succeeded = true ∧ right.succeeded = true ∧
      (∃ fragment ∈ left.fragments, ∃ fragment' ∈ right.fragments,
        fragment.name = "F" ∧ fragment'.name = "F" ∧ fragment.written ≠ fragment'.written) ∧
      ¬ ((Session.start Session.defaultOptions).after .standard requests).registry.Lists "F" := by
    decide +kernel
  obtain ⟨left, member, right, member', succeeded, succeeded', fragments, unlisted⟩ := hidden
  obtain ⟨fragment, listed, fragment', listed', named, named', differ⟩ := fragments
  have different := strip_ne_of_written differ
  exact ⟨left, member, right, member', succeeded, succeeded',
    ⟨fragment, listed, fragment', listed', named, named', different⟩, unlisted⟩

/-- What is found in a text that is straight, or whose fragments of a name are known by their
own texts, is the canonical form of such a text. -/
theorem found_own {exchange : Exchange} {name key : String}
    (located : Straight exchange.source.toList ∨
      ∀ key, (name, key) ∈ exchange.found .standard → (name, key) ∈ exchange.ownKeys)
    (found : (name, key) ∈ exchange.found .standard) : (name, key) ∈ exchange.ownKeys := by
  rcases located with straight | located
  · have faithful := straight_faithful exchange.before.options straight
    rwa [Exchange.found, faithful] at found
  · exact located key found

/-- **Which conflicts are invented.** After any requests a name is not listed exactly when all
texts read since the last clearing show the same key under it, and no warning names a name
that is not listed. If the own texts of its fragments have one canonical form in all these
texts, it is neither listed nor warned of, provided that each text is straight or has its
fragments of that name known by their own texts. -/
theorem conflict_invented_iff (options : SessionOptions) (requests : List Request)
    (name : String) :
    let session := (Session.start options).after .standard requests
    let history := History.ofRun .standard options requests
    (¬ session.registry.Lists name ↔
      ∃ key, ∀ exchange ∈ history.exchanges, exchange.Anew →
        ∀ key', (name, key') ∈ exchange.found .standard → key' = key) ∧
    (∀ exchange ∈ history.exchanges, exchange.Warns name → session.registry.Lists name) ∧
    ((∀ left ∈ history.exchanges, ∀ right ∈ history.exchanges,
        left.succeeded = true → right.succeeded = true → ∀ key key',
        (name, key) ∈ left.ownKeys → (name, key') ∈ right.ownKeys → key = key') →
      (∀ exchange ∈ history.exchanges, exchange.Anew → exchange.succeeded = true →
        Straight exchange.source.toList ∨
          ∀ key, (name, key) ∈ exchange.found .standard → (name, key) ∈ exchange.ownKeys) →
      ¬ session.registry.Lists name ∧ ∀ exchange ∈ history.exchanges, ¬ exchange.Warns name) := by
  intro session history
  have known : Remembers .standard history session := remembers_run .standard options requests
  have warned : ∀ exchange ∈ history.exchanges, exchange.Warns name →
      session.registry.Lists name :=
    fun exchange member warns => known.warned exchange member name warns
  refine ⟨?_, warned, ?_⟩
  · rw [lists_iff_contradicts known]
    constructor
    · intro calm
      by_cases shown : ∃ left ∈ history.exchanges, left.Anew ∧
          ∃ key, (name, key) ∈ left.found .standard
      · obtain ⟨left, member, anew, key, found⟩ := shown
        refine ⟨key, fun right member' anew' key' found' => ?_⟩
        by_contra differ
        exact calm ⟨right, member', anew', left, member, anew, key', key, found', found, differ⟩
      · refine ⟨"", fun right member' anew' key' found' => ?_⟩
        exact absurd ⟨right, member', anew', key', found'⟩ shown
    · rintro ⟨key, all⟩ ⟨left, member, anew, right, member', anew', one, other, found, found',
        differ⟩
      have same := all left member anew one found
      have same' := all right member' anew' other found'
      exact differ (same.trans same'.symm)
  · intro alike located
    have unlisted : ¬ session.registry.Lists name := by
      intro listed
      obtain ⟨left, member, anew, right, member', anew', key, key', found, found', differ⟩ :=
        (lists_iff_contradicts known name).mp listed
      have succeeded := found_succeeded known member anew found
      have succeeded' := found_succeeded known member' anew' found'
      have own := found_own (located left member anew succeeded) found
      have own' := found_own (located right member' anew' succeeded') found'
      exact differ (alike left member right member' succeeded succeeded' key key' own own')
    exact ⟨unlisted, fun exchange member warns => unlisted (warned exchange member warns)⟩

/-- A fragment that is repeated behind other definitions, with other white space, is no
conflict. -/
theorem repeated_fragment_agrees :
    let requests : List Request :=
      [.parse "fragment F on T \x7b a \x7d" [],
        .parse "query Q \x7b ...F \x7d\nfragment F on T \x7b\n  a\n\x7d" []]
    ¬ ((Session.start Session.defaultOptions).after .standard requests).registry.Lists "F" ∧
      ∀ exchange ∈ (History.ofRun .standard Session.defaultOptions requests).exchanges,
        ¬ exchange.Warns "F" := by
  intro requests
  apply (conflict_invented_iff Session.defaultOptions requests "F").2.2
  · have own : ∀ exchange ∈ (History.ofRun .standard Session.defaultOptions requests).exchanges,
        exchange.ownKeys = [("F", "fragment F on T \x7b a \x7d")] := by
      decide +kernel
    intro left member right member' _ _ key key' listed listed'
    rw [own left member, List.mem_singleton] at listed
    rw [own right member', List.mem_singleton] at listed'
    exact (congrArg Prod.snd listed).trans (congrArg Prod.snd listed').symm
  · have texts : ∀ exchange ∈
        (History.ofRun .standard Session.defaultOptions requests).exchanges,
        Simple exchange.source.toList := by
      decide +kernel
    exact fun exchange among _ _ => Or.inl (texts exchange among).straight

/-- A tab before a fragment moves its columns: spelled as before, it gets another key, and a
conflict is listed and warned of. -/
theorem tab_invents_conflict :
    let requests : List Request :=
      [.parse "fragment F on T \x7b a \x7d" [],
        .parse "\x7b x \x7d\tfragment F on T \x7b a \x7d" []]
    let history := History.ofRun .standard Session.defaultOptions requests
    (∀ exchange ∈ history.exchanges, exchange.succeeded = true ∧
      exchange.ownKeys = [("F", "fragment F on T \x7b a \x7d")]) ∧
    ((Session.start Session.defaultOptions).after .standard requests).registry.Lists "F" ∧
    ∃ exchange ∈ history.exchanges, .conflict "F" ∈ exchange.reply.events := by
  decide +kernel

end QueryStore
