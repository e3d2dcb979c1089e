import QueryStore.Proofs.Command.Leaders
import QueryStore.Proofs.Files.Resolution

/-! Whose content a check judges. A file that is answered from the cache is not parsed, so it is
judged by its leader: what is no document on its own passes if it comes behind a file with the same
key that is one. The verdict is about each file's own content, in every order, exactly if of the
files with one key all are documents or none is (`verdicts_by_content_iff`). -/
namespace QueryStore.Command
open Files Text

/-- The fault of a file on its own. -/
def ownFault (system : FileSystem) (options : CheckOptions) (path : String) :
    Option (String × FileError) :=
  FileResult.error? ⟨path, ownOutcome system options path⟩

/-- Of the files with one key all come to documents on their own, or none does. -/
def Agree (system : FileSystem) (options : CheckOptions) (files : List String) : Prop :=
  ∀ left ∈ files, ∀ right ∈ files, ∀ text other,
    readText system left = .ok text → readText system right = .ok other →
    normalize text = normalize other →
    (ownDocument options.session text).isOk = (ownDocument options.session other).isOk

/-- A verdict about each file's own content: it is a list of faults exactly if there are any, of
the walk or of a file on its own; these it lists, each file once, in the order of the paths; and
else it is a failure exactly if there are conflicts, and they are denied. -/
structure ByContent (system : FileSystem) (options : CheckOptions) (found : Found)
    (analysis : Analysis) : Prop where
  failed : (∃ problems, conclude options found analysis = .failed problems) ↔
    found.obstacles ≠ [] ∨ ∃ path ∈ found.files, (ownOutcome system options path).isOk = false
  lines : ∀ problems, conclude options found analysis = .failed problems →
    ∃ faults : List (String × FileError), faults.Perm (found.files.filterMap (ownFault system options)) ∧
      (faults.Pairwise fun left right => notAfter left.1 right.1 = true) ∧
      problems = found.obstacles.map .walk ++ faults.map fun fault => .file fault.1 fault.2
  denied : (∀ problems, conclude options found analysis ≠ .failed problems) → ∀ warnings,
    (((conclude options found analysis).outcome warnings).success = false ↔
      options.denyConflicts = true ∧ analysis.session.registry.conflicts ≠ [])

section
variable {system : FileSystem} {options : CheckOptions} {found : Found} {analysis : Analysis}

/-- The verdict is a list of faults exactly if there are any. -/
theorem conclude_failed_iff (problems : List Problem) :
    conclude options found analysis = .failed problems ↔
      Command.problems found analysis.results = problems ∧ problems ≠ [] := by
  rw [conclude]
  cases faults : Command.problems found analysis.results with
  | nil => simp; grind
  | cons first rest => simp; grind

/-- Without faults the check fails exactly if there are conflicts, and they are denied. -/
theorem conclude_denied_iff (fine : ∀ problems, conclude options found analysis ≠ .failed problems)
    (warnings : List String) :
    ((conclude options found analysis).outcome warnings).success = false ↔
      options.denyConflicts = true ∧ analysis.session.registry.conflicts ≠ [] := by
  have none : Command.problems found analysis.results = [] := by
    by_contra faulty
    exact fine _ ((conclude_failed_iff _).mpr ⟨rfl, faulty⟩)
  simp only [conclude, none, Session.conflicts_eq]
  by_cases denied : options.denyConflicts = true <;>
    by_cases agreed : analysis.session.registry.conflicts = [] <;>
    simp [denied, agreed, reportConflicts, Verdict.outcome]

theorem fault_eq_some {result : FileResult} {fault : String × FileError} :
    result.error? = some fault ↔
      result.path = fault.1 ∧ result.outcome = .error (.returned fault.2) := by
  rw [FileResult.error?]
  cases result.outcome with
  | ok document => simp
  | error failure => cases failure <;> simp [Prod.ext_iff]

/-- Where no parse panics, the faults are those of the walk and those of the files. -/
theorem problems_unbroken {results : List FileResult}
    (unbroken : ∀ result ∈ results, result.outcome ≠ .error .panicked) :
    Command.problems found results = found.obstacles.map .walk ++
      (sortByPath Prod.fst (results.filterMap FileResult.error?)).map
        fun fault => .file fault.1 fault.2 := by
  have calm : results.filter FileResult.panicked = [] := by
    refine List.filter_eq_nil_iff.mpr fun result listed panicked => ?_
    have broken := unbroken result listed
    rw [FileResult.panicked] at panicked
    split at panicked
    · next outcome => exact broken outcome
    · cases panicked
  rw [Command.problems, calm, List.map_nil, List.append_nil]

/-- Where files with one key agree, a file has the fault that it has on its own. -/
private theorem agree_fault {files before : List String} {path : String}
    (agree : Agree system options files) (earlier : ∀ other ∈ before, other ∈ files)
    (member : path ∈ files) :
    FileResult.error? ⟨path, outcomeBehind system options (textsOf system before) path⟩ =
      ownFault system options path := by
  cases outcome : outcomeBehind system options (textsOf system before) path with
  | error error => rw [ownFault, fault_own outcome]
  | ok document =>
    rw [ownFault]
    cases own : ownOutcome system options path with
    | ok _ => rfl
    | error error =>
      -- A document that the file has not on its own is that of a file before it.
      exfalso
      cases read : readText system path with
      | error unread => simp [outcomeBehind, read] at outcome
      | ok text =>
        cases leads : leader? options.session (textsOf system before) (normalize text) with
        | none =>
          rw [outcome_unled read leads, own] at outcome
          cases outcome
        | some leader =>
          obtain ⟨same, accepted⟩ := leader_key leads
          obtain ⟨other, listed, readOther⟩ := mem_texts.mp (leader_mem leads)
          have alike := agree other (earlier other listed) path member leader text readOther read same
          rw [accepted] at alike
          rw [own_outcome_read read] at own
          cases refused : ownDocument options.session text with
          | ok document => simp [refused, Except.mapError] at own
          | error _ => simp [refused, Except.isOk, Except.toBool] at alike

/-- Where files with one key agree, the faults are those that the files have on their own. -/
private theorem agree_faults {files order : List String} (agree : Agree system options files)
    (reordered : order.Perm files) (settled : Settled system options order analysis) :
    (analysis.results.filterMap FileResult.error?).Perm
      (files.filterMap (ownFault system options)) := by
  have own : analysis.results.filterMap FileResult.error? =
      (analysis.results.map FileResult.path).filterMap (ownFault system options) := by
    rw [List.filterMap_map]
    refine List.filterMap_congr fun result listed => ?_
    obtain ⟨before, after, split, outcome⟩ := (settled.results result).mp listed
    have member (path : String) (inside : path ∈ order) : path ∈ files :=
      reordered.mem_iff.mp inside
    have fault : FileResult.error? ⟨result.path,
        outcomeBehind system options (textsOf system before) result.path⟩ =
          ownFault system options result.path :=
      agree_fault agree (fun path earlier => member path (by rw [split]; simp [earlier]))
        (member _ (by rw [split]; simp))
    rw [← outcome] at fault
    exact fault
  rw [own]
  exact (settled.paths.trans reordered).filterMap _

/-- Where files with one key agree, the verdict is about each file's own content. -/
private theorem agree_by_content
    (unbroken : ∀ path ∈ found.files,
      ownOutcome system options path ≠ .error .panicked)
    (agree : Agree system options found.files)
    (completes : Completes system options found.files analysis) :
    ByContent system options found analysis := by
  obtain ⟨order, reordered, settled⟩ := completes.settled
  have whole : ∀ result ∈ analysis.results, result.outcome ≠ .error .panicked := by
    intro result listed broken
    obtain ⟨before, after, split, outcome⟩ := (settled.results result).mp listed
    exact unbroken result.path (reordered.mem_iff.mp (by rw [split]; simp))
      (fault_own (outcome.symm.trans broken))
  have listed := @problems_unbroken found _ whole
  have sorted : (sortByPath Prod.fst (analysis.results.filterMap FileResult.error?)).Perm
      (found.files.filterMap (ownFault system options)) :=
    (List.mergeSort_perm _ _).trans (agree_faults agree reordered settled)
  refine ⟨?_, fun problems failed => ?_, conclude_denied_iff⟩
  · have fine : Command.problems found analysis.results = [] ↔
        found.obstacles = [] ∧ found.files.filterMap (ownFault system options) = [] := by
      rw [listed, List.append_eq_nil_iff, List.map_eq_nil_iff, List.map_eq_nil_iff]
      exact and_congr_right fun _ => ⟨fun empty => (empty ▸ sorted).nil_eq.symm,
        fun empty => (empty ▸ sorted).eq_nil⟩
    have faulty : (∃ problems, conclude options found analysis = .failed problems) ↔
        Command.problems found analysis.results ≠ [] := by
      simp only [conclude_failed_iff]
      exact ⟨fun ⟨_, same, listed⟩ => same ▸ listed, fun listed => ⟨_, rfl, listed⟩⟩
    have own (path : String) (member : path ∈ found.files) : ownFault system options path = none ↔
        ¬ (ownOutcome system options path).isOk = false := by
      rw [ownFault, FileResult.error?]
      cases outcome : ownOutcome system options path with
      | ok document => simp [Except.isOk, Except.toBool]
      | error failure =>
        cases failure with
        | returned error => simp [Except.isOk, Except.toBool]
        | panicked => exact absurd outcome (unbroken path member)
    rw [faulty, Ne, fine, List.filterMap_eq_nil_iff, forall₂_congr own]
    grind
  · obtain ⟨same, -⟩ := (conclude_failed_iff problems).mp failed
    exact ⟨_, sorted, sortByPath_pairwise Prod.fst _, by rw [← same, listed]⟩

/-- A fault of a file that is listed came of the file. -/
private theorem mem_problems {results : List FileResult} {path : String} {error : FileError}
    (listed : .file path error ∈ Command.problems found results) :
    ∃ result ∈ results, result.path = path ∧ result.outcome = .error (.returned error) := by
  simp only [Command.problems, List.mem_append, List.mem_map, reduceCtorEq, and_false,
    exists_false, or_self, false_or, Problem.file.injEq] at listed
  obtain ⟨fault, member, rfl, rfl⟩ := listed
  rw [sortByPath, List.mem_mergeSort, List.mem_filterMap] at member
  obtain ⟨result, inside, faulty⟩ := member
  exact ⟨result, inside, fault_eq_some.mp faulty⟩

/-- A file that is no document passes behind one with its key that is. -/
private theorem masked_file {left right : String} {text other : String} (first : left ∈ found.files)
    (second : right ∈ found.files) (readLeft : readText system left = .ok text)
    (readRight : readText system right = .ok other) (same : normalize text = normalize other)
    (accepted : (ownDocument options.session text).isOk = true)
    (refused : (ownDocument options.session other).isOk = false)
    (unbroken : ownOutcome system options right ≠ .error .panicked) :
    ∃ analysis, Completes system options found.files analysis ∧
      ¬ ByContent system options found analysis := by
  have differ : left ≠ right := by
    rintro rfl
    rw [readLeft] at readRight
    cases readRight
    rw [accepted] at refused
    cases refused
  have reordered : found.files.Perm (left :: right :: (found.files.erase left).erase right) :=
    (List.perm_cons_erase first).trans
      ((List.perm_cons_erase ((List.mem_erase_of_ne differ.symm).mpr second)).cons left)
  have completes : Completes system options found.files
      (analyse system (checkSession options) (left :: right :: (found.files.erase left).erase right)) :=
    ⟨_, reordered.symm, .refl _, rfl⟩
  refine ⟨_, completes, fun content => ?_⟩
  obtain ⟨error, own⟩ : ∃ error, ownOutcome system options right = .error (.returned error) := by
    rw [own_outcome_read readRight] at unbroken ⊢
    cases own : ownDocument options.session other with
    | error failure =>
      cases failure with
      | returned error => exact ⟨.rejected error, rfl⟩
      | panicked => exact absurd (by rw [own]; rfl) unbroken
    | ok document => simp [own, Except.isOk, Except.toBool] at refused
  obtain ⟨problems, failed⟩ := content.failed.mpr (Or.inr ⟨right, second, by rw [own]; rfl⟩)
  obtain ⟨faults, exact, -, rfl⟩ := content.lines problems failed
  have member : (right, error) ∈ faults :=
    exact.mem_iff.mpr (List.mem_filterMap.mpr ⟨right, second, fault_eq_some.mpr ⟨rfl, own⟩⟩)
  have listed : Problem.file right error ∈ Command.problems found
      (analyse system (checkSession options)
        (left :: right :: (found.files.erase left).erase right)).results := by
    rw [((conclude_failed_iff _).mp failed).1, List.mem_append]
    exact Or.inr (List.mem_map.mpr ⟨_, member, rfl⟩)
  obtain ⟨result, inside, rfl, broken⟩ := mem_problems listed
  obtain ⟨before, after, split, outcome⟩ := (mem_analyse (heard_start options.session)).mp inside
  -- Wherever the file is parsed, the other one was before it.
  have earlier : left ∈ before := by
    cases before with
    | nil => exact absurd (List.cons.inj split).1 differ
    | cons head _ =>
      rw [← (List.cons.inj split).1]
      exact List.mem_cons_self
  obtain ⟨leader, leads⟩ := leader_of_mem (mem_texts.mpr ⟨left, earlier, readLeft⟩) accepted
  obtain ⟨document, -, passed⟩ := @outcome_led system options _ _ _ _ readRight (same ▸ leads)
  rw [List.nil_append, passed, broken] at outcome
  cases outcome

/-- Regular texts with one key both have documents on their own or neither. -/
private theorem regular_agree {text other : String} (regular : Regular options.session text)
    (regular' : Regular options.session other) (same : normalize text = normalize other) :
    (ownDocument options.session text).isOk = (ownDocument options.session other).isOk := by
  have alike := (regular_answer regular regular' same).isOk_eq
  have mapped (answer : Except (Failure SessionError) StoredDocument) :
      (answer.map StoredDocument.parsed).isOk = answer.isOk := by
    cases answer <;> rfl
  rw [ownDocument, ownDocument, mapped, mapped, alike]

end

/-- **When the verdict is about each file's own content.** Files are parsed in one session, and
none of them breaks a parse off on its own. In every order of the parses and of their results the
verdict is about each file's own content exactly if of any two files with the same key both are
documents on their own or neither is. So it is if any two files with the same key have the same
text, or both are regular. -/
theorem verdicts_by_content_iff (system : FileSystem) (options : CheckOptions) (found : Found)
    (unbroken : ∀ path ∈ found.files,
      ownOutcome system options path ≠ .error .panicked) :
    ((∀ analysis, Completes system options found.files analysis →
        ByContent system options found analysis) ↔ Agree system options found.files) ∧
    ((∀ left ∈ found.files, ∀ right ∈ found.files, ∀ text other,
        readText system left = .ok text → readText system right = .ok other →
        normalize text = normalize other →
        text = other ∨ Regular options.session text ∧ Regular options.session other) →
      ∀ analysis, Completes system options found.files analysis →
        ByContent system options found analysis) := by
  refine ⟨⟨fun content => ?_, fun agree analysis => agree_by_content unbroken agree⟩,
    fun alike analysis => agree_by_content unbroken ?_⟩
  · intro left first right second text other readLeft readRight same
    by_contra differ
    obtain ⟨analysis, completes, wrong⟩ : ∃ analysis, Completes system options found.files analysis ∧
        ¬ ByContent system options found analysis := by
      cases accepted : (ownDocument options.session text).isOk with
      | true =>
        refine masked_file first second readLeft readRight same accepted ?_
          (unbroken right second)
        simpa [accepted] using differ
      | false =>
        refine masked_file second first readRight readLeft same.symm ?_ accepted
          (unbroken left first)
        simpa [accepted] using differ
    exact wrong (content analysis completes)
  · intro left first right second text other readLeft readRight same
    rcases alike left first right second text other readLeft readRight same with rfl | ⟨one, two⟩
    · rfl
    · exact regular_agree one two same

/-- The verdict of the command that is run is about each file's own content, if the files agree. -/
theorem run_check_by_content (system : FileSystem) (options : CheckOptions)
    (unbroken : ∀ path ∈ (find system options).files,
      ownOutcome system options path ≠ .error .panicked)
    (agree : Agree system options (find system options).files) :
    ∃ analysis, ByContent system options (find system options) analysis ∧
      runCheck system options = (conclude options (find system options) analysis).outcome
        ((find system options).forced.toList.map (forcedWarning options.extensions) ++
          warningsOf analysis.events) := by
  obtain ⟨analysis, completes, outcome⟩ := run_check_completes system options
  exact ⟨analysis, agree_by_content unbroken agree completes, outcome⟩

/-- Two files of one key, written differently, one that is no document, and one that cannot be
read. -/
theorem spacing_judged_by_content :
    let system : FileSystem := ⟨.directory [("a", .file (.ok "\x7b a b \x7d".toUTF8.toList)),
      ("b", .file (.ok "\x7b\n  a,\n  b\n\x7d".toUTF8.toList)),
      ("c", .file (.ok "\x7b x".toUTF8.toList)), ("d", .file (.error "Input/output error (os error 5)"))], []⟩
    let options : CheckOptions := ⟨false, false, [], true, ["a", "b", "c", "d"]⟩
    (ownFault system options "d").map (fun fault => fault.2.message) =
        some "Failed to read \x22d\x22: Input/output error (os error 5)" ∧
      ∀ analysis, Completes system options ["a", "b", "c", "d"] analysis →
        ByContent system options ⟨[], ["a", "b", "c", "d"], 0, none⟩ analysis := by
  intro system options
  have first : readText system "a" = .ok "\x7b a b \x7d" :=
    readText_entry (by decide +kernel) rfl (by decide +kernel)
  have second : readText system "b" = .ok "\x7b\n  a,\n  b\n\x7d" :=
    readText_entry (by decide +kernel) rfl (by decide +kernel)
  have third : readText system "c" = .ok "\x7b x" :=
    readText_entry (by decide +kernel) rfl (by decide +kernel)
  have last : readText system "d" = .error (.unread "d" "Input/output error (os error 5)") :=
    readText_unread (by decide +kernel) rfl
  have unread : ownOutcome system options "d" =
      .error (.returned (.unreadable (.unread "d" "Input/output error (os error 5)"))) := by
    rw [ownOutcome, outcomeBehind, last]
  have simple (path : String) (member : path ∈ ["a", "b", "c", "d"]) (text : String)
      (read : readText system path = .ok text) : Simple text.toList := by
    simp only [List.mem_cons, List.not_mem_nil, or_false] at member
    rcases member with rfl | rfl | rfl | rfl
    · rw [first] at read
      cases read
      decide +kernel
    · rw [second] at read
      cases read
      decide +kernel
    · rw [third] at read
      cases read
      decide +kernel
    · rw [last] at read
      cases read
  constructor
  · rw [ownFault, FileResult.error?, unread]
    decide +kernel
  refine (verdicts_by_content_iff system options ⟨[], ["a", "b", "c", "d"], 0, none⟩ ?_).2 ?_
  · intro path member broken
    simp only [List.mem_cons, List.not_mem_nil, or_false] at member
    have panicked : FileResult.panicked ⟨path, ownOutcome system options path⟩ = true := by
      rw [FileResult.panicked, broken]
    revert panicked
    rcases member with rfl | rfl | rfl | rfl
    · rw [own_outcome_read first]
      decide +kernel
    · rw [own_outcome_read second]
      decide +kernel
    · rw [own_outcome_read third]
      decide +kernel
    · rw [unread]
      decide
  · intro left first right second text other readLeft readRight _
    exact Or.inr ⟨(simple left first text readLeft).regular rfl,
      (simple right second other readRight).regular rfl⟩

/-- The brace of the second file is in a comment. Behind the first, which has its key, it passes. -/
theorem comment_masks_fault :
    let system := filesHere [("a", "\x7b a # b\n c \x7d"), ("b", "\x7b a # b c \x7d")]
    let options : CheckOptions := ⟨false, false, [], true, ["a", "b"]⟩
    let found : Found := ⟨[], ["a", "b"], 0, none⟩
    (ownOutcome system options "b").isOk = false ∧
      ∃ analysis, Completes system options found.files analysis ∧
        ∀ warnings, ((conclude options found analysis).outcome warnings).success = true := by
  intro system options found
  have first : readText system "a" = .ok "\x7b a # b\n c \x7d" :=
    readText_entry (by decide +kernel) rfl (by decide +kernel)
  have second : readText system "b" = .ok "\x7b a # b c \x7d" :=
    readText_entry (by decide +kernel) rfl (by decide +kernel)
  refine ⟨?_, analyse system (checkSession options) ["a", "b"], ⟨_, .refl _, .refl _, rfl⟩,
    fun warnings => ?_⟩
  · rw [own_outcome_read second]
    decide +kernel
  · have passed : (match conclude options found (analyse system (checkSession options) ["a", "b"]) with
        | .passed _ _ => true
        | _ => false) = true := by
      simp only [analyse, first, second]
      decide +kernel
    cases verdict : conclude options found (analyse system (checkSession options) ["a", "b"]) with
    | passed => rfl
    | failed => simp [verdict] at passed
    | denied => simp [verdict] at passed

end QueryStore.Command
