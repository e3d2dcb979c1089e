import Mathlib.Data.List.TakeWhile
import Mathlib.Data.Set.Card
import QueryStore.Proofs.Command.Reports
import QueryStore.Proofs.Files.Walks

/-! What a check counts. Every file that is met is either checked or skipped, once for each argument
from which it is met (`find_parts`); a file that is named alone is checked whatever it is called.
The documents are those that the session keeps, one for each key (`documents_counted`), and the
operations those of the documents handed back. So the summary of a check that passes adds up
(`summary_adds_up`). -/
namespace QueryStore

/-- A session has a document under each key that has a leader. -/
theorem Heard.mem_keys {options : SessionOptions} {heard : List String} {session : Session}
    (known : Heard options heard session) (key : String) :
    key ∈ session.cache.entries.map Prod.fst ↔ ∃ leader, leader? options heard key = some leader := by
  rw [← Option.ne_none_iff_exists', ne_eq, ← known.free_iff, Cache.get?, List.lookup_eq_none_iff]
  simp only [List.mem_map, bne_iff_ne, ne_eq, not_forall, not_not, exists_prop]
  exact exists_congr fun entry => and_congr_right fun _ => eq_comm

namespace Command
open Files Text

/-- The path has an extension that is looked for, where dots before it do not count. -/
def Matches (extensions : List String) (path : String) : Prop :=
  ∃ given ∈ extensions, ∃ dots name, given.toList = dots ++ name.toList ∧
    (∀ char ∈ dots, char = '.') ∧ name.toList.head? ≠ some '.' ∧ extension? path = some name

/-- A file at the path is checked, if it is met: it has an extension that is looked for, or is
what the only argument names. -/
def Checked (options : CheckOptions) (path : String) : Prop :=
  Matches options.extensions path ∨ options.paths = [path]

open Classical in
/-- A summary adds up. Files are told apart by the paths at which they are met. All that are met
from an argument are counted, those checked as analysed and the others as skipped; the ones that are
analysed are in the order of their paths, each as often as there are arguments from which it is met.
All of them can be read; documents are counted by the canonical forms of their texts, and operations
in the documents that came of them. -/
structure AddsUp (system : FileSystem) (options : CheckOptions) (files : List String)
    (results : List FileResult) (summary : Summary) : Prop where
  total : summary.analysed + summary.skipped =
    (options.paths.map fun argument => {path | Meets system argument path}.ncard).sum
  skipped : summary.skipped = (options.paths.map fun argument =>
    {path | Meets system argument path ∧ ¬ Checked options path}.ncard).sum
  analysed : summary.analysed = files.length
  ascending : files.Pairwise fun first second => notAfter first second = true
  met : ∀ path, files.count path =
    if Checked options path then options.paths.countP (Meets system · path) else 0
  readable : ∀ path ∈ files, ∃ text, readText system path = .ok text
  documents : summary.documents =
    {key | ∃ path ∈ files, ∃ text, readText system path = .ok text ∧ normalize text = key}.ncard
  operations : ∃ answers : List (String × ParsedDocument), (answers.map Prod.fst).Perm files ∧
    results = answers.map (fun answer => ⟨answer.1, .ok answer.2⟩) ∧
    summary.operations = (answers.map fun answer => answer.2.document.operations.length).sum

theorem hasExtension_iff {extensions : List String} {path : String} :
    hasExtension extensions path = true ↔ Matches extensions path := by
  have trimmed (given : String) (name : String) :
      String.ofList (given.toList.dropWhile (· = '.')) = name ↔
        ∃ dots, given.toList = dots ++ name.toList ∧ (∀ char ∈ dots, char = '.') ∧
          name.toList.head? ≠ some '.' := by
    constructor
    · rintro rfl
      refine ⟨given.toList.takeWhile (· = '.'), ?_, fun char member => ?_, fun first => ?_⟩
      · rw [String.toList_ofList, List.takeWhile_append_dropWhile]
      · simpa using List.mem_takeWhile_imp member
      · have := List.head?_dropWhile_not (fun char : Char => decide (char = '.')) given.toList
        rw [String.toList_ofList] at first
        simp [first] at this
    · rintro ⟨dots, whole, dotted, first⟩
      have kept : name.toList.dropWhile (fun char => decide (char = '.')) = name.toList := by
        cases chars : name.toList with
        | nil => rfl
        | cons char rest => exact List.dropWhile_cons_of_neg (by simpa [chars] using first)
      rw [whole, List.dropWhile_append_of_pos (by simpa using dotted), kept, String.ofList_toList]
  unfold hasExtension Matches
  cases extension? path with
  | none => simp
  | some extension =>
    simp only [List.any_eq_true, decide_eq_true_eq, trimmed, Option.some.injEq]
    constructor
    · rintro ⟨given, listed, dots, whole, dotted, first⟩
      exact ⟨given, listed, dots, extension, whole, dotted, first, rfl⟩
    · rintro ⟨given, listed, dots, _, whole, dotted, first, rfl⟩
      exact ⟨given, listed, dots, whole, dotted, first⟩

/-- Things are counted by a list in which each of them is once. -/
theorem ncard_eq_length {items : List String} {counted : String → Prop} (once : items.Nodup)
    (all : ∀ item, item ∈ items ↔ counted item) : {item | counted item}.ncard = items.length := by
  have listed : {item | counted item} = ↑items.toFinset := by
    ext item
    simp [all]
  rw [listed, Set.ncard_coe_finset, List.toFinset_card_of_nodup once]

/-! ### Files -/

/-- The files that are met from an argument. -/
def filesMet (system : FileSystem) (argument : String) : List String :=
  (walk system argument).filterMap metFile

section
variable {system : FileSystem} {options : CheckOptions} {argument path : String}

theorem metFile_eq_some {meeting : Meeting} : metFile meeting = some path ↔ meeting = .file path := by
  cases meeting <;> simp [metFile]

theorem mem_filesMet : path ∈ filesMet system argument ↔ .file path ∈ walk system argument := by
  simp [filesMet, List.mem_filterMap, metFile_eq_some]

/-- The obstacles are those of all walks. -/
theorem find_obstacles (system : FileSystem) (options : CheckOptions) :
    (find system options).obstacles =
      (options.paths.flatMap (walk system)).filterMap metObstacle := by
  unfold find
  dsimp only
  split
  · split <;> rfl
  · rfl

theorem clear_of_find (clear : (find system options).obstacles = []) (named : argument ∈ options.paths)
    (error : WalkError) : .obstacle error ∉ walk system argument := by
  rw [find_obstacles, List.filterMap_eq_nil_iff] at clear
  intro met
  have := clear _ (List.mem_flatMap.mpr ⟨argument, named, met⟩)
  cases this

/-- The files to check are in the order of their paths. -/
theorem find_ascending (system : FileSystem) (options : CheckOptions) :
    (find system options).files.Pairwise fun first second => notAfter first second = true := by
  unfold find
  dsimp only
  split
  · split
    · exact List.pairwise_singleton _ _
    · exact List.Pairwise.nil
  · exact sortByPath_pairwise id _

section
variable (named : system.root.WellNamed)
include named

theorem filesMet_apart (argument : String) : (filesMet system argument).Nodup := by
  refine (walk_apart named argument).of_map.filterMap fun one two path first second => ?_
  rw [metFile_eq_some.mp first, metFile_eq_some.mp second]

open Classical in
/-- **Every file that is met is either checked or skipped.** -/
theorem find_parts (options : CheckOptions) :
    (find system options).files.Perm
      ((options.paths.flatMap (filesMet system)).filter (Checked options ·)) ∧
    (find system options).skipped =
      ((options.paths.flatMap (filesMet system)).filter (¬ Checked options ·)).length := by
  have met : (options.paths.flatMap (walk system)).filterMap metFile =
      options.paths.flatMap (filesMet system) := List.filterMap_flatMap
  unfold find
  simp only [met]
  by_cases alone : ∃ path, options.paths = [path] ∧ system.isFile path = true
  · obtain ⟨path, single, file⟩ := alone
    have itself : options.paths.flatMap (filesMet system) = [path] := by
      simp [single, filesMet, walk_isFile file, metFile]
    have checked : Checked options path := Or.inr single
    rw [itself, single]
    cases found : hasExtension options.extensions path <;>
      simp [found, file, checked, sortByPath]
  · -- No file that is met is named alone, so that it is looked at its extension only.
    have same : ∀ path ∈ options.paths.flatMap (filesMet system),
        (Checked options path ↔ hasExtension options.extensions path = true) := by
      intro path member
      rw [hasExtension_iff]
      refine ⟨fun checked => checked.resolve_right fun single => alone ⟨path, single, ?_⟩, Or.inl⟩
      rw [single, List.flatMap_singleton, mem_filesMet] at member
      exact isFile_of_met named member
    have matching : (options.paths.flatMap (filesMet system)).filter (Checked options ·) =
        (options.paths.flatMap (filesMet system)).filter (hasExtension options.extensions) :=
      List.filter_congr fun path member => by simp [same path member]
    have others := List.length_eq_length_filter_add (l := options.paths.flatMap (filesMet system))
      (Checked options ·)
    simp only [← decide_not] at others
    rw [matching] at others ⊢
    split
    · next path none single =>
      have other : system.isFile path = false := by
        simpa using fun file => alone ⟨path, single, file⟩
      rw [none] at others
      simp [none, other, others]
    · exact ⟨List.mergeSort_perm _ _, by simp only [others]; omega⟩

section
variable (clear : (find system options).obstacles = [])
include clear

theorem mem_filesMet_iff (given : argument ∈ options.paths) :
    path ∈ filesMet system argument ↔ Meets system argument path :=
  mem_filesMet.trans (file_met_iff named (clear_of_find clear given))

/-- The files of a kind that are met are counted for each argument. -/
theorem filter_length (kind : String → Prop) [DecidablePred kind] :
    ((options.paths.flatMap (filesMet system)).filter (kind ·)).length =
      (options.paths.map fun argument =>
        {path | Meets system argument path ∧ kind path}.ncard).sum := by
  rw [List.filter_flatMap, List.length_flatMap]
  congr 1
  refine List.map_congr_left fun argument given => ?_
  refine (ncard_eq_length ((filesMet_apart named argument).filter _) fun path => ?_).symm
  rw [List.mem_filter, mem_filesMet_iff named clear given, decide_eq_true_eq]

open Classical in
/-- A file is met once from each argument. -/
theorem met_count (path : String) : (options.paths.flatMap (filesMet system)).count path =
    options.paths.countP (Meets system · path) := by
  have once : ∀ argument ∈ options.paths, (filesMet system argument).count path =
      if Meets system argument path then 1 else 0 := by
    intro argument given
    rw [(filesMet_apart named argument).count]
    simp only [mem_filesMet_iff named clear given]
  generalize options.paths = arguments at once
  induction arguments with
  | nil => rfl
  | cons argument rest ih =>
    rw [List.flatMap_cons, List.count_append, List.countP_cons, once argument List.mem_cons_self,
      ih fun argument given => once argument (List.mem_cons_of_mem _ given), Nat.add_comm]
    simp only [decide_eq_true_eq]

end
end
end

/-! ### Documents -/

section
variable {system : FileSystem} {options : CheckOptions}

/-- Files are texts that are submitted one after the other. -/
theorem analyse_after (system : FileSystem) (session : Session) (order : List String) :
    (analyse system session order).session =
      session.after .standard ((textsOf system order).map fun text => .parse text []) := by
  induction order generalizing session with
  | nil => rfl
  | cons path rest ih =>
    rw [analyse]
    cases read : readText system path with
    | error error => simpa [textsOf, read, Except.toOption] using ih session
    | ok text => simpa [textsOf, read, Except.toOption, Session.perform] using ih _

theorem Completes.keys_apart {files : List String} {analysis : Analysis}
    (completes : Completes system options files analysis) :
    (analysis.session.cache.entries.map Prod.fst).Nodup := by
  obtain ⟨order, -, -, session⟩ := completes
  rw [session, analyse_after]
  exact (remembers_run .standard options.session _).keys

/-- **One document for each canonical form.** -/
theorem documents_counted {files : List String} {analysis : Analysis}
    (completes : Completes system options files analysis)
    (fine : ∀ result ∈ analysis.results, ∃ document, result.outcome = .ok document) :
    (∀ path ∈ files, ∃ text, readText system path = .ok text) ∧
    analysis.session.cache.size =
      {key | ∃ path ∈ files, ∃ text, readText system path = .ok text ∧ normalize text = key}.ncard := by
  obtain ⟨order, reordered, settled⟩ := completes.settled
  have led : ∀ path ∈ files, ∃ leader, Led system options order path leader := by
    intro path member
    obtain ⟨before, after, rfl⟩ := List.append_of_mem (reordered.mem_iff.mpr member)
    obtain ⟨document, outcome⟩ := fine ⟨path, outcomeBehind system options (textsOf system before) path⟩
      ((settled.results _).mpr ⟨before, after, rfl, rfl⟩)
    obtain ⟨leader, led, -⟩ := outcome_leader after outcome
    exact ⟨leader, led⟩
  refine ⟨fun path member => ?_, ?_⟩
  · obtain ⟨-, text, read, -⟩ := led path member
    exact ⟨text, read⟩
  · rw [Cache.size, ← List.length_map Prod.fst]
    refine (ncard_eq_length completes.keys_apart fun key => ?_).symm
    rw [settled.heard.mem_keys]
    constructor
    · rintro ⟨leader, leads⟩
      obtain ⟨path, member, read⟩ := mem_texts.mp (leader_mem leads)
      exact ⟨path, reordered.mem_iff.mp member, leader, read, (leader_key leads).1⟩
    · rintro ⟨path, member, text, read, rfl⟩
      obtain ⟨leader, text', read', leads⟩ := led path member
      rw [read] at read'
      cases read'
      exact ⟨leader, leads⟩

/-- What a check that passes comes to. -/
theorem conclude_passed {found : Found} {analysis : Analysis} {warnings : List String}
    (success : ((conclude options found analysis).outcome warnings).success = true) :
    found.obstacles = [] ∧ ∃ conflicts,
      conclude options found analysis =
        .passed (summarise found analysis.session analysis.results) conflicts := by
  have fine : problems found analysis.results = [] := by
    by_contra faulty
    simp [conclude, faulty, Verdict.outcome] at success
  refine ⟨(problems_eq_nil.mp fine).1,
    reportConflicts analysis.session.fragmentConflicts analysis.results, ?_⟩
  by_cases denied : (options.denyConflicts &&
      !(reportConflicts analysis.session.fragmentConflicts analysis.results).isEmpty) = true
  · simp only [conclude, fine, List.isEmpty_nil, Bool.not_true, Bool.false_eq_true, ↓reduceIte,
      denied, Verdict.outcome] at success
  · simp only [conclude, fine, List.isEmpty_nil, Bool.not_true, Bool.false_eq_true, ↓reduceIte,
      denied]

/-- The operations are counted file by file. -/
theorem operations_counted {results : List FileResult}
    (fine : ∀ result ∈ results, ∃ document, result.outcome = .ok document) :
    ∃ answers : List (String × ParsedDocument),
      results = answers.map (fun answer => ⟨answer.1, .ok answer.2⟩) ∧
      ((results.filterMap FileResult.document?).flatMap fun parsed =>
        parsed.document.operations).length =
          (answers.map fun answer => answer.2.document.operations.length).sum := by
  obtain ⟨answers, rfl⟩ : results ∈ Set.range (List.map
      fun answer : String × ParsedDocument => (⟨answer.1, .ok answer.2⟩ : FileResult)) := by
    rw [Set.range_list_map]
    intro result member
    obtain ⟨document, outcome⟩ := fine result member
    exact ⟨(result.path, document), congrArg (FileResult.mk result.path) outcome.symm⟩
  refine ⟨answers, rfl, ?_⟩
  simp [List.filterMap_map, FileResult.document?, Function.comp_def, List.length_flatMap]

end

/-- **The summary of a check that passes adds up.** The files are found in any tree, and parsed and
answered in any order; whenever the check succeeds, its summary counts what was met. -/
theorem summary_adds_up (system : FileSystem) (options : CheckOptions)
    (named : system.root.WellNamed) {analysis : Analysis}
    (completes : Completes system options (find system options).files analysis)
    {warnings : List String}
    (success : ((conclude options (find system options) analysis).outcome warnings).success = true) :
    ∃ summary conflicts,
      conclude options (find system options) analysis = .passed summary conflicts ∧
      ((conclude options (find system options) analysis).outcome warnings).stdout =
        some summary.text ∧
      AddsUp system options (find system options).files analysis.results summary := by
  classical
  obtain ⟨clear, conflicts, passed⟩ := conclude_passed success
  have fine := (reported_fine (congrArg Verdict.reported passed)).2
  obtain ⟨readable, documents⟩ := documents_counted completes fine
  obtain ⟨answers, answered, operations⟩ := operations_counted fine
  obtain ⟨parts, others⟩ := find_parts named options
  have answering : (answers.map Prod.fst).Perm (find system options).files := by
    obtain ⟨order, reordered, settled⟩ := completes.settled
    have paths := settled.paths.trans reordered
    rwa [answered, List.map_map] at paths
  refine ⟨summarise (find system options) analysis.session analysis.results, conflicts, passed,
    by rw [passed]; rfl, ?_⟩
  exact {
    total := by
      have all := filter_length named clear fun _ => True
      have both := List.length_eq_length_filter_add (l := options.paths.flatMap (filesMet system))
        (Checked options ·)
      simp only [decide_true, List.filter_true, and_true] at all
      simp only [← decide_not] at both
      rw [← all, both, ← parts.length_eq, ← others]
      rfl
    skipped := others.trans (filter_length named clear _)
    analysed := rfl
    ascending := find_ascending system options
    met path := by
      rw [parts.count_eq, ← met_count named clear]
      split
      · next checked => exact List.count_filter (decide_eq_true checked)
      · next skipped =>
        refine List.count_eq_zero.mpr fun member => skipped ?_
        exact of_decide_eq_true (List.mem_filter.mp member).2
    readable := readable
    documents := (Session.cached_eq _).trans documents
    operations := ⟨answers, answering, answered, operations⟩ }

/-- A file is met below both arguments, a link is met as the file that it leads to, a file that
nobody can read is skipped for its name, and a pipe is not met at all. -/
theorem overlapping_arguments_add_up :
    let text := "\x7b a \x7d"
    let other := "\x7b\n  a\n\x7d"
    let below : Entry := .directory [("b.gql", .file (.ok other.toUTF8.toList))]
    let root : Entry := .directory [("a.gql", .file (.ok text.toUTF8.toList)), ("l.gql", .link "a.gql"),
      ("lib", below), ("n.txt", .file (.error "Permission denied (os error 13)")), ("p.gql", .special)]
    let system : FileSystem := ⟨root, []⟩
    let options : CheckOptions := ⟨false, false, ["..gql"], true, [".", "lib"]⟩
    let files := ["./a.gql", "./l.gql", "./lib/b.gql", "lib/b.gql"]
    find system options = ⟨[], files, 1, none⟩ ∧
      ∃ analysis, Completes system options files analysis ∧
        AddsUp system options files analysis.results ⟨4, 1, 1, 4, 0⟩ := by
  intro text other below root system options files
  have named : system.root.WellNamed := by
    have lower : below.WellNamed :=
      .directory (by decide +kernel) (by simpa using Entry.WellNamed.flat rfl)
    refine .directory (by decide +kernel) ?_
    simp only [List.forall_mem_cons, List.not_mem_nil, false_imp_iff, implies_true, and_true]
    exact ⟨.flat rfl, .flat rfl, lower, .flat rfl, .flat rfl⟩
  have here : root.get? [] = some root := rfl
  have top (last : Bool) : system.resolve last "." = .ok ⟨[], root⟩ :=
    resolve_of_follow ["."] (by decide +kernel) ((follow_dot here []).trans
      (follow_of_get (by simp) here fun _ => nofun))
  have lower (last : Bool) : system.resolve last "lib" = .ok ⟨["lib"], below⟩ :=
    resolve_of_follow ["lib"] (by decide +kernel)
      (follow_of_get (by decide +kernel) rfl fun _ => nofun)
  have inner : system.resolve true "./lib" = .ok ⟨["lib"], below⟩ :=
    resolve_of_follow [".", "lib"] (by decide +kernel) ((follow_dot here _).trans
      (follow_of_get (by decide +kernel) rfl fun _ => nofun))
  have first : system.resolve true "./a.gql" = .ok ⟨["a.gql"], .file (.ok text.toUTF8.toList)⟩ :=
    resolve_of_follow [".", "a.gql"] (by decide +kernel) ((follow_dot here _).trans
      (follow_of_get (by decide +kernel) rfl fun _ => nofun))
  have linked : system.resolve true "./l.gql" = .ok ⟨["a.gql"], .file (.ok text.toUTF8.toList)⟩ := by
    have target : startOf [] "a.gql" = [] ∧ segments "a.gql" = ["a.gql"] := by decide +kernel
    refine resolve_of_follow [".", "l.gql"] (by decide +kernel) ((follow_dot here _).trans
      ((follow_link here (by decide +kernel) rfl []).trans ?_))
    rw [target.1, target.2]
    exact follow_of_get (by decide +kernel) rfl fun _ => nofun
  have second : system.resolve true "./lib/b.gql" =
      .ok ⟨["lib", "b.gql"], .file (.ok other.toUTF8.toList)⟩ :=
    resolve_of_follow [".", "lib", "b.gql"] (by decide +kernel) ((follow_dot here _).trans
      (follow_of_get (by decide +kernel) rfl fun _ => nofun))
  have again : system.resolve true "lib/b.gql" =
      .ok ⟨["lib", "b.gql"], .file (.ok other.toUTF8.toList)⟩ :=
    resolve_of_follow ["lib", "b.gql"] (by decide +kernel)
      (follow_of_get (by decide +kernel) rfl fun _ => nofun)
  have found : find system options = ⟨[], files, 1, none⟩ := by
    have deep : walkDepth system = 16 := rfl
    have paths : join "." "a.gql" = "./a.gql" ∧ join "." "l.gql" = "./l.gql" ∧
        join "." "lib" = "./lib" ∧ join "./lib" "b.gql" = "./lib/b.gql" ∧
        join "." "n.txt" = "./n.txt" ∧ join "." "p.gql" = "./p.gql" ∧
        join "lib" "b.gql" = "lib/b.gql" := by decide +kernel
    have into : walkEntry system 15 [⟨[], "."⟩] "./lib" below = [.file "./lib/b.gql"] := by
      refine (walkEntry_down inner 14 _).trans ?_
      simp only [List.flatMap_cons, List.flatMap_nil, paths]
      rfl
    have fromTop : walk system "." =
        [.file "./a.gql", .file "./l.gql", .file "./lib/b.gql", .file "./n.txt"] := by
      simp only [walk, top, deep]
      refine (walkEntry_down (top true) 15 _).trans ?_
      simp only [List.flatMap_cons, List.flatMap_nil, paths, walkEntry_along linked, into]
      rfl
    have fromLower : walk system "lib" = [.file "lib/b.gql"] := by
      simp only [walk, lower, deep]
      refine (walkEntry_down (lower true) 15 _).trans ?_
      simp only [List.flatMap_cons, List.flatMap_nil, paths]
      rfl
    have matching : [".", "lib"].flatMap (walk system) = [.file "./a.gql", .file "./l.gql",
        .file "./lib/b.gql", .file "./n.txt", .file "lib/b.gql"] := by
      simp [fromTop, fromLower]
    have sorted : sortByPath id files = files := List.mergeSort_of_pairwise (by decide +kernel)
    have kept : (([".", "lib"].flatMap (walk system)).filterMap metFile).filter
        (hasExtension ["..gql"]) = files := by
      rw [matching]
      decide +kernel
    simp only [find, options, kept]
    simp only [files] at sorted ⊢
    rw [sorted, matching]
    rfl
  have whole : decodeUtf8 text.toUTF8.toList = .ok text := by decide +kernel
  have spaced : decodeUtf8 other.toUTF8.toList = .ok other := by decide +kernel
  refine ⟨found, analyse system (checkSession options) files, ⟨files, .refl _, .refl _, rfl⟩, ?_⟩
  have completes : Completes system options (find system options).files
      (analyse system (checkSession options) files) := by
    rw [found]
    exact ⟨files, .refl _, .refl _, rfl⟩
  have passed : conclude options (find system options)
      (analyse system (checkSession options) files) = .passed ⟨4, 1, 1, 4, 0⟩ [] := by
    rw [found]
    simp only [files, analyse, readText_of_resolve first whole, readText_of_resolve linked whole,
      readText_of_resolve second spaced, readText_of_resolve again spaced]
    decide +kernel
  have success : ((conclude options (find system options)
      (analyse system (checkSession options) files)).outcome []).success = true := by
    rw [passed]
    rfl
  obtain ⟨summary, conflicts, passed', -, adds⟩ :=
    summary_adds_up system options named completes success
  rw [passed] at passed'
  cases passed'
  rwa [found] at adds

end Command
end QueryStore
