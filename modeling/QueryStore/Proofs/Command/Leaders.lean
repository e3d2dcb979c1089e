import QueryStore.Command.Tasks
import QueryStore.Proofs.Session.Orders
import QueryStore.Proofs.Session.Transparency

/-! Files that one session parses. Of the texts with one key, the first that has a document is the
leader: its document answers the others from then on (`decisive`), and its fragments are the ones
that the registry hears of. A session that heard texts holds what their leaders left behind
(`Heard`), so what comes of every file, in whatever order the files are parsed, is a matter of the
texts alone (`mem_analyse`). -/
namespace QueryStore

/-- What a text comes to on its own, its document being taken by value. -/
def ownDocument (options : SessionOptions) (text : String) : Except (Failure SessionError) ParsedDocument :=
  (freshAnswer .standard options text).map StoredDocument.parsed

/-- The document of a text is made of what the parser reads in it. -/
theorem own_document_eq (options : SessionOptions) (text : String) :
    ownDocument options text =
      (Parser.standard.read options text).map fun read => assemble text read.1 read.2 := by
  rw [ownDocument, freshAnswer, Session.fresh_result]
  cases Parser.standard.read options text <;> rfl

/-- The first text that has the key and a document. -/
def leader? (options : SessionOptions) (heard : List String) (key : String) : Option String :=
  heard.find? fun text => Text.normalize text = key && (ownDocument options text).isOk

/-- The text whose document answers a text behind others. -/
def decisive (options : SessionOptions) (heard : List String) (text : String) : String :=
  (leader? options heard (Text.normalize text)).getD text

section
variable {options : SessionOptions} {heard : List String} {key text : String}

theorem leader_mem (leads : leader? options heard key = some text) : text ∈ heard :=
  List.mem_of_find?_eq_some leads

theorem leader_key (leads : leader? options heard key = some text) :
    Text.normalize text = key ∧ (ownDocument options text).isOk = true := by
  simpa using List.find?_some leads

/-- A key has no leader exactly if no text with the key has a document. -/
theorem leader_eq_none : leader? options heard key = none ↔
    ∀ text ∈ heard, Text.normalize text = key → (ownDocument options text).isOk = false := by
  simp [leader?, List.find?_eq_none]

/-- A leader stays, and a text with a document leads if there was none. -/
theorem leader_snoc (heard : List String) (key text : String) :
    leader? options (heard ++ [text]) key = (leader? options heard key).or
      (if Text.normalize text = key ∧ (ownDocument options text).isOk then some text else none) := by
  simp [leader?, List.find?_append, List.find?_singleton]

theorem leader_append (leads : leader? options heard key = some text) (more : List String) :
    leader? options (heard ++ more) key = some text := by
  have first : heard.find? (fun text => Text.normalize text = key && (ownDocument options text).isOk) =
      some text := leads
  rw [leader?, List.find?_append, first, Option.some_or]

/-- A text with a document has a leader among texts that it is one of. -/
theorem leader_of_mem (member : text ∈ heard) (accepted : (ownDocument options text).isOk = true) :
    ∃ leader, leader? options heard (Text.normalize text) = some leader := by
  cases found : leader? options heard (Text.normalize text) with
  | some leader => exact ⟨leader, rfl⟩
  | none =>
    have refused := leader_eq_none.mp found text member rfl
    rw [refused] at accepted
    cases accepted

end

/-- A session holds the documents and the fragments of the leaders among the texts it heard. -/
structure Heard (options : SessionOptions) (heard : List String) (session : Session) : Prop where
  agreed : session.options = options
  consistent : session.registry.Consistent
  cached : ∀ key, (session.cache.get? key).map StoredDocument.parsed =
    (leader? options heard key).bind fun text => (ownDocument options text).toOption
  registered : ∀ name key, key ∈ session.registry.keysOf name ↔
    ∃ text, leader? options heard (Text.normalize text) = some text ∧
      (name, key) ∈ Parser.standard.found options text

section
variable {options : SessionOptions} {heard : List String} {session : Session}

/-- A session that has seen nothing heard no text. -/
theorem heard_start (options : SessionOptions) : Heard options [] (.start options) where
  agreed := rfl
  consistent := Registry.empty_consistent
  cached _ := rfl
  registered name key := by
    simp [leader?, Session.start, Registry.keysOf, Registry.variants?, Registry.empty]

/-- A key is free exactly if it has no leader. -/
theorem Heard.free_iff (known : Heard options heard session) (key : String) :
    session.cache.get? key = none ↔ leader? options heard key = none := by
  have held := known.cached key
  cases leads : leader? options heard key with
  | none => simp_all
  | some text =>
    obtain ⟨-, accepted⟩ := leader_key leads
    cases own : ownDocument options text with
    | error error => simp [own, Except.isOk, Except.toBool] at accepted
    | ok document =>
      simp only [leads, own, Option.bind_some, Except.toOption, Option.map_eq_some_iff] at held
      obtain ⟨stored, found, -⟩ := held
      simp [found]

/-- A text is answered with the document of the text that decides. -/
theorem Heard.answer (known : Heard options heard session) (text : String) :
    session.answer .standard text = ownDocument options (decisive options heard text) := by
  have held := known.cached (Text.normalize text)
  rw [Session.answer, decisive]
  cases leads : leader? options heard (Text.normalize text) with
  | none =>
    rw [(known.free_iff _).mpr leads, known.agreed, Option.getD_none, own_document_eq]
  | some leader =>
    obtain ⟨-, accepted⟩ := leader_key leads
    cases own : ownDocument options leader with
    | error error => simp [own, Except.isOk, Except.toBool] at accepted
    | ok document =>
      simp only [leads, own, Option.bind_some, Except.toOption, Option.map_eq_some_iff] at held
      obtain ⟨stored, found, rfl⟩ := held
      simp [found, own]

/-- A text that is answered from the cache, or not at all, changes no leader. -/
private theorem leader_unmoved {text : String}
    (idle : (∃ leader, leader? options heard (Text.normalize text) = some leader) ∨
      (ownDocument options text).isOk = false) (key : String) :
    leader? options (heard ++ [text]) key = leader? options heard key := by
  rw [leader_snoc]
  rcases idle with ⟨leader, leads⟩ | refused
  · by_cases same : Text.normalize text = key
    · subst key
      rw [leads, Option.some_or]
    · simp [same]
  · simp [refused]

/-- A text that is read is the leader under its key. -/
private theorem leader_moved {text : String}
    (free : leader? options heard (Text.normalize text) = none)
    (accepted : (ownDocument options text).isOk = true) (key : String) :
    leader? options (heard ++ [text]) key =
      if Text.normalize text = key then some text else leader? options heard key := by
  rw [leader_snoc]
  by_cases same : Text.normalize text = key
  · subst key
    simp [free, accepted]
  · simp [same]

/-- **What one text changes.** A session that heard texts hears one more. -/
theorem heard_step (known : Heard options heard session) (text : String) :
    Heard options (heard ++ [text]) (session.behind .standard text) := by
  have kept (idle : (∃ leader, leader? options heard (Text.normalize text) = some leader) ∨
      (ownDocument options text).isOk = false) : Heard options (heard ++ [text]) session :=
    { agreed := known.agreed
      consistent := known.consistent
      cached key := by rw [leader_unmoved idle]; exact known.cached key
      registered name key := by simp only [leader_unmoved idle]; exact known.registered name key }
  rcases session.parse_document_cases .standard text with
    ⟨stored, found, replied⟩ | ⟨failure, missing, read, replied⟩ |
    ⟨document, keyed, missing, read, replied⟩ <;>
  rw [Session.behind, replied]
  · refine kept (Or.inl (Option.ne_none_iff_exists'.mp fun free => ?_))
    rw [(known.free_iff _).mpr free] at found
    cases found
  · refine { kept (Or.inr ?_) with }
    rw [known.agreed] at read
    simp [own_document_eq, read, Except.map, Except.isOk, Except.toBool]
  · rw [known.agreed] at read
    have free := (known.free_iff _).mp missing
    have own : ownDocument options text = .ok (assemble text document keyed) := by
      rw [own_document_eq, read]
      rfl
    have moved := leader_moved free (by rw [own]; rfl)
    refine ⟨known.agreed, retain_consistent known.consistent [] keyed, fun key => ?_,
      fun name key => ?_⟩
    · rw [moved]
      by_cases same : Text.normalize text = key
      · subst key
        have absent : session.cache.entries.lookup (Text.normalize text) = none := missing
        simp [Session.keeping, Cache.get?, List.lookup_append, absent, own, Except.toOption]
      · have differ : (key == Text.normalize text) = false := beq_false_of_ne (Ne.symm same)
        have held := known.cached key
        simp only [Cache.get?] at held
        simp [Session.keeping, Cache.get?, List.lookup_append, List.lookup_cons, differ, same, held]
    · simp only [Session.keeping, mem_keysOf_retain, known.registered, moved]
      have found : Parser.standard.found options text = observations keyed := by
        rw [Parser.found, read]
      constructor
      · rintro (⟨leader, leads, observed⟩ | observed)
        · have apart : Text.normalize text ≠ Text.normalize leader := by
            intro same
            rw [← same, free] at leads
            cases leads
          exact ⟨leader, by rw [if_neg apart]; exact leads, observed⟩
        · exact ⟨text, if_pos rfl, found ▸ observed⟩
      · rintro ⟨leader, leads, observed⟩
        split at leads
        · cases leads
          exact Or.inr (found ▸ observed)
        · exact Or.inl ⟨leader, leads, observed⟩

end

namespace Command
open Files

/-- What a check of the files can come to: they are parsed in some order, and their results come
in in another. -/
def Completes (system : FileSystem) (options : CheckOptions) (files : List String)
    (analysis : Analysis) : Prop :=
  ∃ order, order.Perm files ∧
    analysis.results.Perm (analyse system (checkSession options) order).results ∧
    analysis.session = (analyse system (checkSession options) order).session

/-- What the command says of a check is what one that parses the files as they were found comes
to. -/
theorem run_check_completes (system : FileSystem) (options : CheckOptions) :
    ∃ analysis, Completes system options (find system options).files analysis ∧
      runCheck system options = (conclude options (find system options) analysis).outcome
        ((find system options).forced.toList.map (forcedWarning options.extensions) ++
          warningsOf analysis.events) :=
  ⟨_, ⟨_, .refl _, .refl _, rfl⟩, rfl⟩

/-- There are no faults exactly if the walk met none and every file has a document. -/
theorem problems_eq_nil {found : Found} {results : List FileResult} :
    problems found results = [] ↔ found.obstacles = [] ∧
      ∀ result ∈ results, ∃ document, result.outcome = .ok document := by
  have fine (result : FileResult) : (∃ document, result.outcome = .ok document) ↔
      ¬ result.panicked = true ∧ result.error? = none := by
    rw [FileResult.panicked, FileResult.error?]
    cases result.outcome with
    | ok document => simp
    | error failure => cases failure <;> simp
  have unsorted (faults : List (String × FileError)) :
      sortByPath Prod.fst faults = [] ↔ faults = [] := by
    rw [← List.length_eq_zero_iff, sortByPath, List.length_mergeSort, List.length_eq_zero_iff]
  simp only [problems, List.append_eq_nil_iff, List.map_eq_nil_iff, unsorted,
    List.filter_eq_nil_iff, List.filterMap_eq_nil_iff, fine]
  grind

/-- The options of the session of a check. -/
def CheckOptions.session (options : CheckOptions) : SessionOptions :=
  ⟨options.fragmentVariables, options.warnings⟩

/-- The texts of the files that can be read. -/
def textsOf (system : FileSystem) (files : List String) : List String :=
  files.filterMap fun path => (readText system path).toOption

/-- What comes of a file behind texts that were heard. -/
def outcomeBehind (system : FileSystem) (options : CheckOptions) (heard : List String)
    (path : String) : Except (Failure FileError) ParsedDocument :=
  match readText system path with
  | .error error => .error (.returned (.unreadable error))
  | .ok text =>
    (ownDocument options.session (decisive options.session heard text)).mapError (.map .rejected)

/-- What comes of a file on its own. -/
def ownOutcome (system : FileSystem) (options : CheckOptions) (path : String) :
    Except (Failure FileError) ParsedDocument :=
  outcomeBehind system options [] path

section
variable {system : FileSystem} {options : CheckOptions} {heard : List String} {session : Session}

theorem texts_append (first last : List String) :
    textsOf system (first ++ last) = textsOf system first ++ textsOf system last :=
  List.filterMap_append

private theorem texts_behind (heard : List String) (path : String) (rest : List String) :
    heard ++ textsOf system (path :: rest) = heard ++ textsOf system [path] ++ textsOf system rest := by
  rw [List.append_assoc, ← texts_append, List.singleton_append]

theorem mem_texts {files : List String} {text : String} :
    text ∈ textsOf system files ↔ ∃ path ∈ files, readText system path = .ok text := by
  simp only [textsOf, List.mem_filterMap]
  refine exists_congr fun path => and_congr_right fun _ => ?_
  cases readText system path <;> simp [Except.toOption]

/-- **What one file changes.** -/
theorem analyse_cons (known : Heard options.session heard session) (path : String)
    (rest : List String) :
    ∃ next, Heard options.session (heard ++ textsOf system [path]) next ∧
      (analyse system session (path :: rest)).results =
        ⟨path, outcomeBehind system options heard path⟩ :: (analyse system next rest).results ∧
      (analyse system session (path :: rest)).session = (analyse system next rest).session := by
  rw [analyse]
  cases read : readText system path with
  | error error =>
    refine ⟨session, ?_, ?_, rfl⟩
    · simpa [textsOf, read, Except.toOption] using known
    · simp [outcomeBehind, read]
  | ok text =>
    refine ⟨session.behind .standard text, ?_, ?_, ?_⟩
    · simpa [textsOf, read, Except.toOption] using heard_step known text
    · simp only [Session.parse, joinSources_nil, outcomeBehind, read, List.cons.injEq, and_true,
        FileResult.mk.injEq, true_and, Session.behind]
      rw [← known.answer, ← Session.answer_eq]
      cases (session.parseDocument .standard text).result <;> rfl
    · simp only [Session.parse, joinSources_nil, Session.behind]

/-- The session after the files heard their texts. -/
theorem analyse_heard (known : Heard options.session heard session) (order : List String) :
    Heard options.session (heard ++ textsOf system order) (analyse system session order).session := by
  induction order generalizing heard session with
  | nil => simpa [textsOf, analyse] using known
  | cons path rest ih =>
    obtain ⟨next, later, -, same⟩ := @analyse_cons system _ _ _ known path rest
    rw [same, texts_behind]
    exact ih later

/-- Each file has one result, in order. -/
theorem analyse_paths (system : FileSystem) (session : Session) (order : List String) :
    (analyse system session order).results.map FileResult.path = order := by
  induction order generalizing session with
  | nil => rfl
  | cons path rest ih =>
    rw [analyse]
    cases readText system path <;> simp [ih]

/-- **What comes of the files.** The results are those of the files, each behind the texts of the
files before it. -/
theorem mem_analyse (known : Heard options.session heard session) {order : List String}
    {result : FileResult} :
    result ∈ (analyse system session order).results ↔
      ∃ before after, order = before ++ result.path :: after ∧
        result.outcome = outcomeBehind system options (heard ++ textsOf system before) result.path := by
  induction order generalizing heard session with
  | nil => simp [analyse]
  | cons path rest ih =>
    obtain ⟨next, later, results, -⟩ := @analyse_cons system _ _ _ known path rest
    rw [results, List.mem_cons, ih later]
    constructor
    · rintro (rfl | ⟨before, after, rfl, outcome⟩)
      · exact ⟨[], rest, rfl, by simp [textsOf]⟩
      · exact ⟨path :: before, after, rfl, by rw [outcome, texts_behind heard path before]⟩
    · rintro ⟨before, after, split, outcome⟩
      rcases List.cons_eq_append_iff.mp split with ⟨rfl, first⟩ | ⟨middle, rfl, rest'⟩
      · obtain ⟨here, -⟩ := List.cons.inj first
        left
        rw [here, show textsOf system [] = [] from rfl, List.append_nil] at outcome
        exact congrArg₂ FileResult.mk here outcome
      · exact Or.inr ⟨middle, after, rest', by rw [outcome, texts_behind heard path middle]⟩

/-- A check of files that were parsed in an order. -/
structure Settled (system : FileSystem) (options : CheckOptions) (order : List String)
    (analysis : Analysis) : Prop where
  heard : Heard options.session (textsOf system order) analysis.session
  paths : (analysis.results.map FileResult.path).Perm order
  results : ∀ result, result ∈ analysis.results ↔ ∃ before after,
    order = before ++ result.path :: after ∧
      result.outcome = outcomeBehind system options (textsOf system before) result.path

theorem Completes.settled {files : List String} {analysis : Analysis}
    (completes : Completes system options files analysis) :
    ∃ order, order.Perm files ∧ Settled system options order analysis := by
  obtain ⟨order, reordered, results, session⟩ := completes
  have started := heard_start options.session
  refine ⟨order, reordered, ?_, ?_, fun result => ?_⟩
  · rw [session]
    exact analyse_heard started order
  · have paths := results.map FileResult.path
    rwa [analyse_paths] at paths
  · rw [results.mem_iff]
    exact mem_analyse started

/-- What comes of a file that can be read is what comes of its text. -/
theorem own_outcome_read {path text : String} (read : readText system path = .ok text) :
    ownOutcome system options path =
      (ownDocument options.session text).mapError (.map .rejected) := by
  rw [ownOutcome, outcomeBehind, read]
  rfl

/-- A file that a leader answers has the leader's document. -/
theorem outcome_led {path text leader : String} (read : readText system path = .ok text)
    (leads : leader? options.session heard (Text.normalize text) = some leader) :
    ∃ document, ownDocument options.session leader = .ok document ∧
      outcomeBehind system options heard path = .ok document := by
  obtain ⟨-, accepted⟩ := leader_key leads
  cases own : ownDocument options.session leader with
  | error refused => simp [own, Except.isOk, Except.toBool] at accepted
  | ok document => exact ⟨document, rfl, by simp [outcomeBehind, read, decisive, leads, own, Except.mapError]⟩

/-- A file that no leader answers is on its own. -/
theorem outcome_unled {path text : String} (read : readText system path = .ok text)
    (free : leader? options.session heard (Text.normalize text) = none) :
    outcomeBehind system options heard path = ownOutcome system options path := by
  rw [own_outcome_read read, outcomeBehind, read]
  simp only [decisive, free, Option.getD_none]

/-- A file without a document has none on its own, for the same reason. -/
theorem fault_own {path : String} {failure : Failure FileError}
    (fault : outcomeBehind system options heard path = .error failure) :
    ownOutcome system options path = .error failure := by
  cases read : readText system path with
  | error unread => simpa [ownOutcome, outcomeBehind, read] using fault
  | ok text =>
    cases leads : leader? options.session heard (Text.normalize text) with
    | none => rw [← outcome_unled read leads, fault]
    | some leader =>
      obtain ⟨document, -, outcome⟩ := @outcome_led system options _ _ _ _ read leads
      rw [outcome] at fault
      cases fault

end
end Command
end QueryStore
