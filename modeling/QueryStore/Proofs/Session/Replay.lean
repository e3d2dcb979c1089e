import QueryStore.Proofs.Session.Sharing
import QueryStore.Proofs.Document.Selfsame
import QueryStore.Proofs.Session.Interpolation

/-! Documents replayed from their texts. Each exchange met a session that remembered the exchanges
before it (`met_run`), so the first one that succeeded with a key found nothing in the cache and
made the document (`first_made`), which is the one that all others with the key return
(`first_of_returned`). A document keeps the whole text that it was made of, and the text decides
everything else about it but the options. So the session answers that text with the document
itself, and a cleared session makes an equal one of it (`replayed_from_source`). -/
namespace QueryStore

/-- The first exchange that succeeded for a text with a key. -/
def History.first? (history : History) (key : String) : Option Exchange :=
  history.exchanges.find? fun exchange => exchange.succeeded && exchange.key = key

/-- Each exchange met a session that remembered the exchanges before it. -/
def Met (parser : Parser) (history : History) : Prop :=
  ∀ before exchange after, history.exchanges = before ++ exchange :: after →
    Remembers parser ⟨history.base, before⟩ exchange.before

section
variable {parser : Parser} {history : History} {session : Session}

/-- The exchange of a request meets the session that remembers all exchanges so far. -/
theorem met_step (known : Remembers parser history session) (met : Met parser history)
    (request : Request) : Met parser (history.next parser session request) := by
  cases request with
  | parse source fragments =>
    intro before exchange after split
    rcases List.eq_nil_or_concat after with rfl | ⟨after, last, rfl⟩
    · obtain ⟨rfl, same⟩ := List.append_inj' split rfl
      cases same
      exact known
    · have whole : history.exchanges ++ [_] = (before ++ exchange :: after) ++ [last] :=
        split.trans (by simp)
      obtain ⟨earlier, -⟩ := List.append_inj' whole rfl
      exact met before exchange after earlier
  | reset =>
    intro before exchange after split
    cases before <;> cases split
  | setFragmentVariables enabled => exact met
  | setWarnOnConflict enabled => exact met

theorem met_extend (known : Remembers parser history session) (met : Met parser history)
    (requests : List Request) : Met parser (history.extend parser session requests) := by
  induction requests generalizing history session with
  | nil => exact met
  | cons request rest ih => exact ih (remembers_step known request) (met_step known met request)

theorem met_run (parser : Parser) (options : SessionOptions) (requests : List Request) :
    Met parser (.ofRun parser options requests) := by
  refine met_extend (remembers_cleared rfl rfl) ?_ requests
  intro before exchange after split
  cases before <;> cases split

/-- A document is returned by the first exchange that succeeded with its key. -/
theorem first_of_returned (known : Remembers parser history session) {exchange : Exchange}
    (member : exchange ∈ history.exchanges) {stored : StoredDocument}
    (returned : exchange.Returns stored) :
    ∃ first ∈ history.exchanges, history.first? exchange.key = some first ∧
      first.key = exchange.key ∧ first.Returns stored := by
  cases found : history.first? exchange.key with
  | none =>
    have never := List.find?_eq_none.mp found exchange member
    simp [Exchange.succeeded_iff.mpr ⟨stored, returned⟩] at never
  | some first =>
    have earlier := List.mem_of_find?_eq_some found
    obtain ⟨succeeded, same⟩ : first.succeeded = true ∧ first.key = exchange.key := by
      simpa using List.find?_some found
    obtain ⟨held, returned'⟩ := Exchange.succeeded_iff.mp succeeded
    obtain ⟨shared, -⟩ := results_shared_iff_key known earlier member returned' returned
    exact ⟨first, earlier, rfl, same, shared same ▸ returned'⟩

/-- The first exchange that succeeded with a key read its text. -/
theorem first_made (met : Met parser history) (known : Remembers parser history session)
    {key : String} {first : Exchange} (found : history.first? key = some first)
    {stored : StoredDocument} (returned : first.Returns stored) :
    ∃ document keyed, parser.read first.before.options first.source = .ok (document, keyed) ∧
      stored = ⟨first.before.made, assemble first.source document keyed⟩ := by
  obtain ⟨own, before, after, split, earlier⟩ := List.find?_eq_some_iff_append.mp found
  obtain ⟨-, same⟩ : first.succeeded = true ∧ first.key = key := by simpa using own
  have anew : first.before.cache.get? first.key = none := by
    refine Option.eq_none_iff_forall_ne_some.mpr fun held cached => ?_
    obtain ⟨exchange, member, same', returned'⟩ :=
      ((met before first after split).cached first.key held).mp cached
    have never := earlier exchange member
    simp [Exchange.succeeded_iff.mpr ⟨held, returned'⟩, same', same] at never
  rw [Exchange.Returns, known.replies first (by simp [split])] at returned
  exact (first.before.answered_iff parser first.source anew).mp returned

end

/-- What a text comes to depends on the options only in whether fragments may have variables. -/
theorem Parser.read_congr {parser : Parser} {options options' : SessionOptions}
    (same : options.fragmentVariables = options'.fragmentVariables) (source : String) :
    parser.read options source = parser.read options' source := by
  simp only [Parser.read, same]

/-- The document that is stored for an accepted text equals itself. -/
theorem assembled_selfsame {options : ParseOptions} {source : String} {document : Document}
    {keyed : List KeyedDefinition} (accepted : Document.parse options source = .ok document)
    (keys : keyDefinitions document.definitions = .ok keyed) :
    (assemble source document keyed).same (assemble source document keyed) = true := by
  have own : ∀ definition ∈ (firstOccurrences [] document.definitions).map (Definition.strip false),
      definition.same definition = true := by
    refine List.forall_mem_map.mpr fun definition member => ?_
    rw [definition.same_strip]
    exact parsed_selfsame accepted definition ((firstOccurrences_sublist _ _).subset member)
  have definitions : (assemble source document keyed).document.definitions = _ :=
    assembled_definitions keys
  simp [ParsedDocument.same, Document.same, definitions, sameList_self.mpr own]

/-- **A returned document can be replayed from its source.** After any requests, a document that
was returned since the caches were last cleared has as its source the whole text of the first
submission that succeeded with its key, and its key is the canonical form of its source. The
source is answered with the document itself, whatever the options. Once the caches are cleared,
and with the variables of fragments allowed or not as they were at that first submission, the
source is answered with a document that is equal in all of its parts. -/
theorem replayed_from_source (options : SessionOptions) (requests : List Request)
    {exchange : Exchange} (member : exchange ∈ (History.ofRun .standard options requests).exchanges)
    {stored : StoredDocument} (returned : exchange.Returns stored) :
    let session := (Session.start options).after .standard requests
    let history := History.ofRun .standard options requests
    let parsed := stored.parsed
    ∃ first, history.first? parsed.key = some first ∧ parsed.source = first.source ∧
      Text.normalize parsed.source = parsed.key ∧ parsed.key = exchange.key ∧
      (∀ current : SessionOptions,
        let now := { session with options := current }
        now.parseDocument .standard parsed.source = ⟨.ok stored, now, [.cacheHit parsed.key]⟩) ∧
      ∀ current : SessionOptions,
        current.fragmentVariables = first.before.options.fragmentVariables →
          let cleared := { session.reset with options := current }
          ∃ again, (cleared.parseDocument .standard parsed.source).result = .ok again ∧
            again.parsed = parsed ∧ again.parsed.same parsed = true := by
  intro session history parsed
  have known : Remembers .standard history session := remembers_run .standard options requests
  obtain ⟨first, -, found, same, returned'⟩ := first_of_returned known member returned
  obtain ⟨document, keyed, read, made⟩ :=
    first_made (met_run .standard options requests) known found returned'
  obtain ⟨accepted, keys⟩ := standard_read_iff.mp read
  have whole : parsed = assemble first.source document keyed := congrArg StoredDocument.parsed made
  have source : parsed.source = first.source := by
    rw [whole]
    exact accepted_retained accepted
  have key : parsed.key = exchange.key := by
    rw [whole]
    exact same
  have normal : Text.normalize parsed.source = parsed.key := by
    rw [source, whole]
    rfl
  refine ⟨first, by rw [key]; exact found, source, normal, key, fun current => ?_,
    fun current allowed => ?_⟩
  · have held : session.cache.get? (Text.normalize parsed.source) = some stored := by
      rw [normal, key]
      exact (known.cached _ _).mpr ⟨exchange, member, rfl, returned⟩
    rw [← normal]
    exact Session.cached_reply _ _ _ held
  · intro cleared
    have again : Parser.standard.read cleared.options parsed.source = .ok (document, keyed) := by
      rw [source, ← read]
      exact Parser.read_congr allowed _
    have replied := (cleared.answered_iff .standard parsed.source rfl).mpr
      ⟨document, keyed, again, rfl⟩
    have equal : assemble parsed.source document keyed = parsed := by rw [source, whole]
    refine ⟨_, replied, equal, ?_⟩
    rw [equal, whole]
    exact assembled_selfsame accepted keys

/-- A fragment with a variable, whose default value is a float, is submitted while such are
allowed, and in other words when they are not. The first text is kept, its line end included. -/
theorem first_spelling_replayed :
    let spelling := "fragment F($n: Float = 0.5) on T \x7b\r\n a(n: $n) \x7d"
    let respelling := "fragment F($n: Float = 0.5) on T \x7b a(n: $n) \x7d"
    let requests : List Request := [.setFragmentVariables true, .parse spelling [],
      .setFragmentVariables false, .parse respelling []]
    let session := (Session.start Session.defaultOptions).after .standard requests
    ∃ exchange ∈ (History.ofRun .standard Session.defaultOptions requests).exchanges,
      ∃ stored, exchange.Returns stored ∧ exchange.source = respelling ∧
        stored.parsed.source = spelling ∧
        (session.parseDocument .standard spelling).result = .ok stored ∧
        let cleared := { session.reset with options := ⟨true, false⟩ }
        ∃ again, (cleared.parseDocument .standard spelling).result = .ok again ∧
          again.parsed.same stored.parsed = true := by
  intro spelling respelling requests session
  have last : (History.ofRun .standard Session.defaultOptions requests).exchanges.getLast?.map
      (fun exchange => (exchange.source, exchange.key, exchange.succeeded)) =
        some (respelling, Text.normalize respelling, true) := by
    decide +kernel
  have leads : ((History.ofRun .standard Session.defaultOptions requests).first?
      (Text.normalize respelling)).map (fun first => (first.source, first.before.options)) =
        some (spelling, ⟨true, true⟩) := by
    decide +kernel
  obtain ⟨exchange, behind, met⟩ := Option.map_eq_some_iff.mp last
  simp only [Prod.mk.injEq] at met
  obtain ⟨source, key, succeeded⟩ := met
  obtain ⟨stored, returned⟩ := Exchange.succeeded_iff.mp succeeded
  have member := List.mem_of_getLast? behind
  obtain ⟨first, found, kept, -, own, repeats, replays⟩ :=
    replayed_from_source Session.defaultOptions requests member returned
  rw [own, key] at found
  obtain ⟨same, allowed⟩ : first.source = spelling ∧ first.before.options = ⟨true, true⟩ := by
    simpa [found] using leads
  have whole : stored.parsed.source = spelling := kept.trans same
  rw [whole] at repeats replays
  obtain ⟨again, replied, -, equal⟩ := replays ⟨true, false⟩ (by rw [allowed])
  exact ⟨exchange, member, stored, returned, source, whole,
    congrArg Reply.result (repeats session.options), again, replied, equal⟩

end QueryStore
