import QueryStore.Proofs.Session.History

/-! A text is parsed once and its document shared from then on. The main statement,
`parse_once_share_forever`, compares every submission of every run with the history since
the caches were last cleared: it repeats a stored document exactly when some text with the
same key succeeded before, and otherwise makes one call of the parser. The counts and the
identities of documents follow. -/
namespace QueryStore

/-- Some exchange succeeded for a text with the same key. -/
def History.Recalls (history : History) (text : String) : Prop :=
  ∃ exchange ∈ history.exchanges,
    exchange.key = Text.normalize text ∧ exchange.succeeded = true

theorem Exchange.succeeded_iff {exchange : Exchange} :
    exchange.succeeded = true ↔ ∃ stored, exchange.Returns stored := by
  simp only [succeeded, Returns]
  cases exchange.reply.result <;> simp [Except.isOk, Except.toBool]

section
variable {parser : Parser} {history : History} {session : Session}

/-- A key is cached exactly when the history recalls it. -/
theorem cached_iff_recalls (known : Remembers parser history session) (text : String) :
    (∃ stored, session.cache.get? (Text.normalize text) = some stored) ↔
      history.Recalls text := by
  constructor
  · rintro ⟨stored, found⟩
    obtain ⟨exchange, member, same, returned⟩ := (known.cached _ _).mp found
    exact ⟨exchange, member, same, Exchange.succeeded_iff.mpr ⟨stored, returned⟩⟩
  · rintro ⟨exchange, member, same, succeeded⟩
    obtain ⟨stored, returned⟩ := Exchange.succeeded_iff.mp succeeded
    exact ⟨stored, (known.cached _ _).mpr ⟨exchange, member, same, returned⟩⟩

/-- The cache has one entry for every key that succeeded. -/
theorem cache_size_eq_keys (known : Remembers parser history session) :
    session.cache.size = history.keys.card := by
  have same : history.keys = (session.cache.entries.map Prod.fst).toFinset := by
    ext key
    have held : key ∈ session.cache.entries.map Prod.fst ↔
        ∃ stored, session.cache.get? key = some stored := by
      rw [← Option.isSome_iff_exists, Cache.get?, List.lookup_isSome_iff, List.mem_map]
      simp only [beq_iff_eq]
      exact exists_congr fun entry => and_congr_right fun _ => eq_comm
    simp only [History.keys, List.mem_toFinset, held, known.cached, List.mem_map,
      List.mem_filter, Exchange.succeeded_iff]
    constructor
    · rintro ⟨exchange, ⟨member, stored, returned⟩, same⟩
      exact ⟨stored, exchange, member, same, returned⟩
    · rintro ⟨stored, exchange, member, same, returned⟩
      exact ⟨exchange, ⟨member, stored, returned⟩, same⟩
  rw [same, List.toFinset_card_of_nodup known.keys, List.length_map, Cache.size]

private theorem serial_injective {entries : List (String × StoredDocument)}
    (distinct : (entries.map fun entry => entry.2.serial).Nodup) {key other : String}
    {stored held : StoredDocument} (left : entries.lookup key = some stored)
    (right : entries.lookup other = some held) (same : stored.serial = held.serial) :
    key = other :=
  congrArg Prod.fst
    (List.inj_on_of_nodup_map distinct (mem_of_lookup left) (mem_of_lookup right) same)

/-- Results under one key are one document, and under different keys different ones. -/
theorem results_shared_iff_key (known : Remembers parser history session)
    {left right : Exchange} (first : left ∈ history.exchanges) (second : right ∈ history.exchanges)
    {stored held : StoredDocument} (returned : left.Returns stored) (returned' : right.Returns held) :
    (left.key = right.key → stored = held) ∧
      (left.key ≠ right.key → stored.serial ≠ held.serial) := by
  have found := (known.cached _ _).mpr ⟨left, first, rfl, returned⟩
  have found' := (known.cached _ _).mpr ⟨right, second, rfl, returned'⟩
  constructor
  · intro same
    rw [same, found'] at found
    exact (Option.some.inj found).symm
  · intro differ same
    exact differ (serial_injective known.serials found found' same)

private theorem made_mono (session : Session) (request : Request) :
    session.made ≤ (session.perform parser request).session.made := by
  cases request with
  | parse source fragments =>
    simp only [Session.perform, Session.parse]
    rcases session.parse_document_cases parser (joinSources source fragments) with
      ⟨stored, -, replied⟩ | ⟨error, -, -, replied⟩ | ⟨document, keyed, -, -, replied⟩
    · exact Nat.le_of_eq (by rw [replied])
    · exact Nat.le_of_eq (by rw [replied, Session.noting])
    · rw [replied]
      exact Nat.le_succ _
  | _ => exact Nat.le_refl _

private theorem made_mono_after (session : Session) (requests : List Request) :
    session.made ≤ (session.after parser requests).made := by
  induction requests generalizing session with
  | nil => exact Nat.le_refl _
  | cons request rest ih => exact Nat.le_trans (made_mono session request) (ih _)

private theorem perform_serial_lt (known : Remembers parser history session) {request : Request}
    {stored : StoredDocument}
    (returned : (session.perform parser request).result = some (.ok stored)) :
    stored.serial < (session.perform parser request).session.made := by
  have later := remembers_step known request
  cases request with
  | parse source fragments =>
    have found := (later.cached (Text.normalize (joinSources source fragments)) stored).mpr
      ⟨_, List.mem_append_right _ (List.mem_singleton_self _), rfl, Option.some.inj returned⟩
    exact (later.range _ (mem_of_lookup found)).2
  | _ => simp [Session.perform] at returned

/-- Every document that a run returned, before or after a clearing of the caches, was made
before what is made next. -/
theorem run_serial_lt (known : Remembers parser history session) {requests : List Request}
    {response : Response} (member : response ∈ session.run parser requests)
    {stored : StoredDocument} (returned : response.result = some (.ok stored)) :
    stored.serial < (session.after parser requests).made := by
  induction requests generalizing history session with
  | nil => simp at member
  | cons request rest ih =>
    rcases List.mem_cons.mp member with rfl | later
    · exact Nat.lt_of_lt_of_le (perform_serial_lt known returned) (made_mono_after _ rest)
    · exact ih (remembers_step known request) later

end

/-- A submission asks the parser about its own text only. -/
theorem parse_depends_on_text {parser other : Parser} {session : Session} {text : String}
    (agree : other ⟨session.options.fragmentVariables⟩ text =
      parser ⟨session.options.fragmentVariables⟩ text) :
    session.parseDocument other text = session.parseDocument parser text := by
  simp only [Session.parseDocument, Session.locked_eq, Session.parseAnew, agree]

/-- **Parse once, share forever.** After any requests, a submission whose text the history
recalls is answered with a document returned before, whatever the parser, and leaves the
session as it is. Any other submission calls the parser once, on its text, and what it
returns is a document that no earlier response returned. Hence results since the last
clearing are shared exactly by key, and the parser calls and cached documents are counted
by failures and keys. -/
theorem parse_once_share_forever (parser : Parser) (options : SessionOptions)
    (requests : List Request) :
    let session := (Session.start options).after parser requests
    let history := History.ofRun parser options requests
    (∀ source fragments,
      let text := joinSources source fragments
      let reply := session.parse parser source fragments
      (history.Recalls text →
        (∃ exchange ∈ history.exchanges, ∃ stored, exchange.key = Text.normalize text ∧
          exchange.Returns stored ∧ reply.result = .ok stored) ∧
        reply.session = session ∧
        ∀ other : Parser, session.parse other source fragments = reply) ∧
      (¬ history.Recalls text →
        reply.session.parserCalls = session.parserCalls + 1 ∧
        (∀ other : Parser, other ⟨session.options.fragmentVariables⟩ text =
          parser ⟨session.options.fragmentVariables⟩ text →
            session.parse other source fragments = reply) ∧
        reply.result = (parser.read session.options text).map
          (fun read => ⟨session.made, assemble text read.1 read.2⟩) ∧
        ∀ stored, reply.result = .ok stored →
          ∀ response ∈ (Session.start options).run parser requests,
            ∀ earlier, response.result = some (.ok earlier) →
              earlier.serial ≠ stored.serial)) ∧
    (∀ left ∈ history.exchanges, ∀ right ∈ history.exchanges, ∀ stored held,
      left.Returns stored → right.Returns held →
        (left.key = right.key → stored = held) ∧
        (left.key ≠ right.key → stored.serial ≠ held.serial)) ∧
    session.parserCalls = history.base.parserCalls + (history.failures + history.keys.card) ∧
    session.cache.size = history.keys.card := by
  intro session history
  have known : Remembers parser history session := remembers_run parser options requests
  refine ⟨?_, ?_, ?_, cache_size_eq_keys known⟩
  · intro source fragments text reply
    have repeats : ∀ {stored} (other : Parser),
        session.cache.get? (Text.normalize text) = some stored →
        session.parse other source fragments =
          ⟨.ok stored, session, [.cacheHit (Text.normalize text)]⟩ := by
      intro stored other found
      exact session.cached_reply other text found
    constructor
    · intro recalled
      obtain ⟨stored, found⟩ := (cached_iff_recalls known text).mpr recalled
      obtain ⟨exchange, member, same, returned⟩ := (known.cached _ _).mp found
      have answer : reply = _ := repeats parser found
      refine ⟨⟨exchange, member, stored, same, returned, by rw [answer]⟩, by rw [answer], ?_⟩
      intro other
      rw [answer, repeats other found]
    · intro unknown
      have below : ∀ response ∈ (Session.start options).run parser requests,
          ∀ earlier, response.result = some (.ok earlier) → earlier.serial < session.made := by
        intro response member earlier returned
        exact run_serial_lt (remembers_cleared rfl rfl) member returned
      rcases session.parse_document_cases parser text with
        ⟨stored, found, -⟩ | ⟨error, missing, read, replied⟩ |
        ⟨document, keyed, missing, read, replied⟩
      · exact absurd ((cached_iff_recalls known text).mp ⟨stored, found⟩) unknown
      · have answer : reply = _ := replied
        refine ⟨by rw [answer]; rfl, fun other agree => parse_depends_on_text agree, ?_, ?_⟩
        · rw [answer, read]
          rfl
        · intro stored returned
          rw [answer] at returned
          cases returned
      · have answer : reply = _ := replied
        refine ⟨by rw [answer]; rfl, fun other agree => parse_depends_on_text agree, ?_, ?_⟩
        · rw [answer, read]
          rfl
        · intro stored returned response member earlier returned'
          rw [answer] at returned
          cases returned
          exact Nat.ne_of_lt (below response member earlier returned')
  · intro left first right second stored held returned returned'
    exact results_shared_iff_key known first second returned returned'
  · rw [known.calls, cache_size_eq_keys known]

end QueryStore
