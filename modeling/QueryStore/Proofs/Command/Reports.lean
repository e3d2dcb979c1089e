import QueryStore.Proofs.Command.Leaders
import QueryStore.Proofs.Files.Resolution
import QueryStore.Proofs.Retained

/-! What a check reports on fragments that contradict each other. Names and keys come from the
registry, which hears of every fragment of the texts that are read; the files come from the
documents that are handed back, which are those of the leaders, without the fragments dropped from
them (`report_of_leaders`). So the report is about each file's own document where no fragment is
dropped for the key of one with another name, and files with one key have the same fragments
(`report_names_right_files`). -/
namespace QueryStore

/-- The names and keys of the fragments of a text's own document. -/
def ownFragments (options : SessionOptions) (text : String) : List (String × String) :=
  match ownDocument options text with
  | .error _ => []
  | .ok document => document.fragmentKeys

section
variable {options : SessionOptions} {text : String} {entry : String × String}

/-- What stays in the document was found in the text. -/
theorem own_found (own : entry ∈ ownFragments options text) :
    entry ∈ Parser.standard.found options text := by
  rw [ownFragments, own_document_eq] at own
  rw [Parser.found]
  cases read : Parser.standard.read options text with
  | error error => simp [read, Except.map] at own
  | ok found =>
    simp only [read, Except.map, assemble] at own
    exact retain_observed _ _ _ entry own

/-- What was found in the text has its key in the document, perhaps under another name. -/
theorem found_kept (found : entry ∈ Parser.standard.found options text) :
    ∃ name, (name, entry.2) ∈ ownFragments options text := by
  rw [Parser.found] at found
  rw [ownFragments, own_document_eq]
  cases read : Parser.standard.read options text with
  | error error => simp [read] at found
  | ok both =>
    simp only [read] at found
    rcases observed_retained [] .empty both.2 entry found with seen | kept
    · cases seen
    · obtain ⟨⟨name, key⟩, listed, same⟩ := List.mem_map.mp kept
      exact ⟨name, same ▸ listed⟩

/-- Nothing is dropped from a regular text but repetitions. -/
theorem regular_kept (regular : Regular options text) :
    entry ∈ Parser.standard.found options text ↔ entry ∈ ownFragments options text := by
  refine ⟨fun found => ?_, own_found⟩
  obtain ⟨name, kept⟩ := found_kept found
  have same : name = entry.1 := regular_named regular (own_found kept) found
  rwa [same] at kept

end

namespace Command
open Files Text

/-- The conflicts that a verdict reports; there are none beside faults. -/
def Verdict.reported : Verdict → Option (List ConflictReport)
  | failed _ => none
  | denied conflicts => some conflicts
  | passed _ conflicts => some conflicts

/-- A report on the names under which two keys were observed, in ascending order: each of their
keys once, with the files that it is within, in ascending order and each once. -/
structure Describes (observed : String → String → Prop) (within : String → String → String → Prop)
    (reports : List ConflictReport) : Prop where
  ascending : (reports.map ConflictReport.name).Pairwise (· < ·)
  names : ∀ name, name ∈ reports.map ConflictReport.name ↔
    ∃ key other, observed name key ∧ observed name other ∧ key ≠ other
  once : ∀ report ∈ reports, (report.variants.map Prod.fst).Nodup
  variants : ∀ report ∈ reports, ∀ key,
    key ∈ report.variants.map Prod.fst ↔ observed report.name key
  sorted : ∀ report ∈ reports, ∀ variant ∈ report.variants, variant.2.Pairwise (· < ·)
  files : ∀ report ∈ reports, ∀ variant ∈ report.variants, ∀ path,
    path ∈ variant.2 ↔ within path report.name variant.1

theorem Describes.congr {observed observed' : String → String → Prop}
    {within within' : String → String → String → Prop} {reports : List ConflictReport}
    (describes : Describes observed within reports)
    (same : ∀ name key, observed name key ↔ observed' name key)
    (same' : ∀ path name key, within path name key ↔ within' path name key) :
    Describes observed' within' reports := by
  have equal : observed = observed' := funext₂ fun name key => propext (same name key)
  have equal' : within = within' :=
    funext₃ fun path name key => propext (same' path name key)
  rwa [← equal, ← equal']

theorem mem_filesWith {results : List FileResult} {name key path : String} :
    path ∈ filesWith results name key ↔
      ∃ result ∈ results, result.path = path ∧ (name, key) ∈ result.fragmentKeys := by
  simp only [filesWith, List.mem_mergeSort, List.mem_eraseDups, List.mem_map, List.mem_filter,
    List.contains_iff_mem]
  exact exists_congr fun result => by tauto

private theorem nodup_eraseDups (items : List String) : items.eraseDups.Nodup := by
  match items with
  | [] => exact List.nodup_nil
  | first :: rest =>
    rw [List.eraseDups_cons, List.nodup_cons, List.mem_eraseDups]
    exact ⟨by simp, nodup_eraseDups _⟩
termination_by items.length
decreasing_by exact Nat.lt_succ_of_le (List.length_filter_le _ _)

theorem filesWith_ascend (results : List FileResult) (name key : String) :
    (filesWith results name key).Pairwise (· < ·) := by
  have sorted : (filesWith results name key).Pairwise (· ≤ ·) := by
    simpa [filesWith] using @List.pairwise_mergeSort _
      (fun left right : String => decide (left ≤ right))
      (by simpa using fun _ _ _ => String.le_trans) (by simpa using fun _ _ => String.le_total _ _)
      ((results.filter fun result => result.fragmentKeys.contains (name, key)).map
        (·.path)).eraseDups
  have distinct : (filesWith results name key).Nodup :=
    (List.mergeSort_perm _ _).nodup_iff.mpr (nodup_eraseDups _)
  exact sorted.imp₂ (fun _ _ below differ => lt_of_le_of_ne below differ) distinct

/-- The report is on what the registry holds, with the files whose results have it. -/
theorem report_describes {registry : Registry} (sound : registry.Consistent)
    (results : List FileResult) :
    Describes (fun name key => key ∈ registry.keysOf name)
      (fun path name key =>
        ∃ result ∈ results, result.path = path ∧ (name, key) ∈ result.fragmentKeys)
      (reportConflicts registry.conflicts results) := by
  have names : (reportConflicts registry.conflicts results).map ConflictReport.name =
      registry.conflicts.map Prod.fst := by
    simp [reportConflicts, Function.comp_def]
  have keys : ∀ report ∈ reportConflicts registry.conflicts results, report.variants =
      (registry.keysOf report.name).map fun key => (key, filesWith results report.name key) := by
    intro report member
    rw [reportConflicts, sound.conflicts_eq, List.map_map, List.mem_map] at member
    obtain ⟨name, -, rfl⟩ := member
    rfl
  have listed : ∀ report ∈ reportConflicts registry.conflicts results,
      report.variants.map Prod.fst = registry.keysOf report.name := by
    intro report member
    simp [keys report member, Function.comp_def]
  refine ⟨names ▸ sound.conflicts_ascend, fun name => ?_, fun report member => ?_,
    fun report member key => by rw [listed report member], fun report member variant inside => ?_,
    fun report member variant inside path => ?_⟩
  · rw [names]
    exact (Registry.lists_iff sound name).trans ⟨fun ⟨key, first, other, second, differ⟩ =>
      ⟨key, other, first, second, differ⟩, fun ⟨key, other, first, second, differ⟩ =>
      ⟨key, first, other, second, differ⟩⟩
  · rw [listed report member]
    exact sound.keysOf_nodup report.name
  · rw [keys report member] at inside
    obtain ⟨key, -, rfl⟩ := List.mem_map.mp inside
    exact filesWith_ascend results report.name key
  · rw [keys report member] at inside
    obtain ⟨key, -, rfl⟩ := List.mem_map.mp inside
    exact mem_filesWith

/-- A file is answered with the document of a leader. -/
def Led (system : FileSystem) (options : CheckOptions) (order : List String)
    (path leader : String) : Prop :=
  ∃ text, readText system path = .ok text ∧
    leader? options.session (textsOf system order) (normalize text) = some leader

/-- The own document of a file has a fragment of a name and a key. -/
def Defines (system : FileSystem) (options : CheckOptions) (path name key : String) : Prop :=
  ∃ text, readText system path = .ok text ∧ (name, key) ∈ ownFragments options.session text

/-- A report on the files' own documents: on the names under which these have two keys, each key
with the files whose own documents have it. -/
structure NamesRightFiles (system : FileSystem) (options : CheckOptions) (files : List String)
    (reports : List ConflictReport) : Prop where
  describes : Describes (fun name key => ∃ path ∈ files, Defines system options path name key)
    (fun path name key => path ∈ files ∧ Defines system options path name key) reports
  somewhere : ∀ report ∈ reports, ∀ variant ∈ report.variants, variant.2 ≠ []

section
variable {system : FileSystem} {options : CheckOptions} {found : Found} {analysis : Analysis}
  {order : List String} {reports : List ConflictReport}

/-- Where conflicts are reported, every file has a document. -/
theorem reported_fine (reported : (conclude options found analysis).reported = some reports) :
    reports = reportConflicts analysis.session.registry.conflicts analysis.results ∧
      ∀ result ∈ analysis.results, ∃ document, result.outcome = .ok document := by
  have fine : problems found analysis.results = [] := by
    by_contra faulty
    have failed : conclude options found analysis = .failed (problems found analysis.results) := by
      simp [conclude, faulty]
    rw [failed] at reported
    cases reported
  refine ⟨?_, (problems_eq_nil.mp fine).2⟩
  simp only [conclude, fine, Session.conflicts_eq] at reported
  by_cases denied : options.denyConflicts = true ∧
      reportConflicts analysis.session.registry.conflicts analysis.results ≠ [] <;>
    simp_all [Verdict.reported]

/-- A file that has a document has that of its leader. -/
theorem outcome_leader {path : String} {before : List String} (after : List String)
    {document : ParsedDocument}
    (outcome : outcomeBehind system options (textsOf system before) path = .ok document) :
    ∃ leader, Led system options (before ++ path :: after) path leader ∧
      ownDocument options.session leader = .ok document := by
  cases read : readText system path with
  | error error => simp [outcomeBehind, read] at outcome
  | ok text =>
    have split : textsOf system (before ++ path :: after) =
        textsOf system before ++ ([text] ++ textsOf system after) := by
      simp [textsOf, read, Except.toOption]
    cases leads : leader? options.session (textsOf system before) (normalize text) with
    | some leader =>
      obtain ⟨own, same, passed⟩ := @outcome_led system options _ _ _ _ read leads
      rw [passed] at outcome
      cases outcome
      exact ⟨leader, ⟨text, read, by rw [split, leader_append leads]⟩, same⟩
    | none =>
      rw [outcome_unled read leads, own_outcome_read read] at outcome
      cases own : ownDocument options.session text with
      | error error => simp [own, Except.mapError] at outcome
      | ok document' =>
        simp only [own, Except.mapError, Except.ok.injEq] at outcome
        subst outcome
        have first : leader? options.session (textsOf system before ++ [text]) (normalize text) =
            some text := by
          simp [leader_snoc, leads, own, Except.isOk, Except.toBool]
        refine ⟨text, ⟨text, read, ?_⟩, own⟩
        rw [split, ← List.append_assoc, leader_append first]

/-- The fragments of a file's result are those of its leader's document. -/
private theorem settled_entries (settled : Settled system options order analysis)
    (fine : ∀ result ∈ analysis.results, ∃ document, result.outcome = .ok document)
    (path name key : String) :
    (∃ result ∈ analysis.results, result.path = path ∧ (name, key) ∈ result.fragmentKeys) ↔
      path ∈ order ∧ ∃ leader, Led system options order path leader ∧
        (name, key) ∈ ownFragments options.session leader := by
  have entries {result : FileResult} {document : ParsedDocument} {leader : String}
      (outcome : result.outcome = .ok document)
      (own : ownDocument options.session leader = .ok document) :
      result.fragmentKeys = ownFragments options.session leader := by
    simp [FileResult.fragmentKeys, FileResult.document?, outcome, ownFragments, own]
  constructor
  · rintro ⟨result, member, rfl, entry⟩
    obtain ⟨before, after, rfl, behind⟩ := (settled.results result).mp member
    obtain ⟨document, outcome⟩ := fine result member
    obtain ⟨leader, led, own⟩ := outcome_leader after (behind.symm.trans outcome)
    exact ⟨by simp, leader, led, entries outcome own ▸ entry⟩
  · rintro ⟨member, leader, ⟨text, read, leads⟩, entry⟩
    obtain ⟨before, after, rfl⟩ := List.append_of_mem member
    let result : FileResult := ⟨path, outcomeBehind system options (textsOf system before) path⟩
    have listed : result ∈ analysis.results := (settled.results result).mpr ⟨before, after, rfl, rfl⟩
    obtain ⟨document, outcome⟩ := fine result listed
    obtain ⟨leader', ⟨text', read', leads'⟩, own⟩ := outcome_leader after outcome
    rw [read] at read'
    cases read'
    rw [leads] at leads'
    cases leads'
    exact ⟨result, listed, rfl, entries outcome own ▸ entry⟩

/-- **What is reported.** The registry has heard the leaders; the files have their documents. -/
theorem report_of_leaders (settled : Settled system options order analysis)
    (reported : (conclude options found analysis).reported = some reports) :
    Describes
      (fun name key => ∃ path ∈ order, ∃ leader, Led system options order path leader ∧
        (name, key) ∈ Parser.standard.found options.session leader)
      (fun path name key => path ∈ order ∧ ∃ leader, Led system options order path leader ∧
        (name, key) ∈ ownFragments options.session leader) reports := by
  obtain ⟨rfl, fine⟩ := reported_fine reported
  refine (report_describes settled.heard.consistent analysis.results).congr (fun name key => ?_)
    (settled_entries settled fine)
  rw [settled.heard.registered]
  constructor
  · rintro ⟨leader, leads, entry⟩
    obtain ⟨path, member, read⟩ := mem_texts.mp (leader_mem leads)
    exact ⟨path, member, leader, ⟨leader, read, leads⟩, entry⟩
  · rintro ⟨path, -, leader, ⟨text, -, leads⟩, entry⟩
    exact ⟨leader, (leader_key leads).1 ▸ leads, entry⟩

/-- The leader of a file is the text of a file with the same key. -/
private theorem Led.file {files : List String} {path leader : String}
    (reordered : order.Perm files) (led : Led system options order path leader) :
    ∃ first ∈ files, ∃ text, readText system path = .ok text ∧
      readText system first = .ok leader ∧ normalize leader = normalize text := by
  obtain ⟨text, read, leads⟩ := led
  obtain ⟨first, member, readFirst⟩ := mem_texts.mp (leader_mem leads)
  exact ⟨first, reordered.mem_iff.mp member, text, read, readFirst, (leader_key leads).1⟩

/-- A file whose own document has a fragment has a document, so it has a leader. -/
private theorem Defines.led {path name key : String} (member : path ∈ order)
    (defines : Defines system options path name key) :
    ∃ leader, Led system options order path leader := by
  obtain ⟨text, read, entry⟩ := defines
  have accepted : (ownDocument options.session text).isOk = true := by
    rw [ownFragments] at entry
    cases own : ownDocument options.session text with
    | error error => simp [own] at entry
    | ok document => rfl
  obtain ⟨leader, leads⟩ := leader_of_mem (mem_texts.mpr ⟨path, member, read⟩) accepted
  exact ⟨leader, text, read, leads⟩

/-- The report is about the files' own documents, if none of them lacks a fragment that was found
in its text, and files with one key have the same. -/
private theorem kept_right_files {files : List String} (reordered : order.Perm files)
    (settled : Settled system options order analysis)
    (reported : (conclude options found analysis).reported = some reports)
    (kept : ∀ path ∈ files, ∀ text, readText system path = .ok text →
      ∀ entry ∈ Parser.standard.found options.session text,
        entry ∈ ownFragments options.session text)
    (alike : ∀ left ∈ files, ∀ right ∈ files, ∀ text other,
      readText system left = .ok text → readText system right = .ok other →
      normalize text = normalize other →
      ∀ entry ∈ ownFragments options.session text, entry ∈ ownFragments options.session other) :
    NamesRightFiles system options files reports := by
  have follows {path name key : String} (member : path ∈ files)
      (defines : Defines system options path name key) :
      ∃ leader, Led system options order path leader ∧
        (name, key) ∈ ownFragments options.session leader := by
    obtain ⟨leader, led⟩ := defines.led (reordered.mem_iff.mpr member)
    obtain ⟨first, member', text, read, readFirst, same⟩ := led.file reordered
    obtain ⟨text', read', entry⟩ := defines
    rw [read] at read'
    cases read'
    exact ⟨leader, led, alike path member first member' text leader read readFirst same.symm _ entry⟩
  have describes : Describes
      (fun name key => ∃ path ∈ files, Defines system options path name key)
      (fun path name key => path ∈ files ∧ Defines system options path name key) reports := by
    refine (report_of_leaders settled reported).congr (fun name key => ?_)
      (fun path name key => ?_)
    · constructor
      · rintro ⟨path, -, leader, led, entry⟩
        obtain ⟨first, member, -, -, read, -⟩ := led.file reordered
        exact ⟨first, member, leader, read, kept first member leader read _ entry⟩
      · rintro ⟨path, member, defines⟩
        obtain ⟨leader, led, entry⟩ := follows member defines
        exact ⟨path, reordered.mem_iff.mpr member, leader, led, own_found entry⟩
    · rw [reordered.mem_iff]
      refine and_congr_right fun member => ⟨?_, follows member⟩
      rintro ⟨leader, led, entry⟩
      obtain ⟨first, member', text, read, readFirst, same⟩ := led.file reordered
      exact ⟨text, read, alike first member' path member leader text readFirst read same _ entry⟩
  refine ⟨describes, fun report listed variant inside => ?_⟩
  obtain ⟨path, member, defines⟩ := (describes.variants report listed variant.1).mp
    (List.mem_map_of_mem inside)
  exact List.ne_nil_of_mem
    ((describes.files report listed variant inside path).mpr ⟨member, defines⟩)

end

/-- **Which files a conflict report names.** Files are parsed in some order, and their results come
in in another; where conflicts are reported, there are no faults. The report is on the names under
which the texts that were read show two keys, each with the files whose leader's document has a
fragment of that name and key. So it is on the files' own documents, and no list of files is empty,
if no document lacks a fragment that was found in its text, and files with the same key have the
same fragments; and that is so if all texts are regular. -/
theorem report_names_right_files (system : FileSystem) (options : CheckOptions) (found : Found)
    {analysis : Analysis} (completes : Completes system options found.files analysis)
    {reports : List ConflictReport}
    (reported : (conclude options found analysis).reported = some reports) :
    (∃ order, order.Perm found.files ∧ Describes
      (fun name key => ∃ path ∈ order, ∃ leader, Led system options order path leader ∧
        (name, key) ∈ Parser.standard.found options.session leader)
      (fun path name key => path ∈ order ∧ ∃ leader, Led system options order path leader ∧
        (name, key) ∈ ownFragments options.session leader) reports) ∧
    ((∀ path ∈ found.files, ∀ text, readText system path = .ok text →
        ∀ entry ∈ Parser.standard.found options.session text,
          entry ∈ ownFragments options.session text) →
      (∀ left ∈ found.files, ∀ right ∈ found.files, ∀ text other,
        readText system left = .ok text → readText system right = .ok other →
        normalize text = normalize other →
        ∀ entry ∈ ownFragments options.session text,
          entry ∈ ownFragments options.session other) →
      NamesRightFiles system options found.files reports) ∧
    ((∀ path ∈ found.files, ∀ text, readText system path = .ok text →
        Regular options.session text) →
      NamesRightFiles system options found.files reports) := by
  obtain ⟨order, reordered, settled⟩ := completes.settled
  refine ⟨⟨order, reordered, report_of_leaders settled reported⟩,
    kept_right_files reordered settled reported, fun regular => ?_⟩
  refine kept_right_files reordered settled reported (fun path member text read entry found => ?_)
    fun left first right second text other readLeft readRight same entry own => ?_
  · exact (regular_kept (regular path member text read)).mp found
  · have regular' := regular right second other readRight
    rw [← regular_kept regular', ← regular_found (regular left first text readLeft) regular' same]
    exact own_found own

/-- Two fragments of one name in two files, parsed in the reverse order. -/
theorem both_files_named :
    let first := "fragment F on T \x7b a \x7d"
    let second := "query Q \x7b ...F \x7d\nfragment F on T \x7b\n  b\n\x7d"
    let system := filesHere [("a", first), ("b", second)]
    let options : CheckOptions := ⟨true, false, [], true, ["a", "b"]⟩
    let reports : List ConflictReport :=
      [⟨"F", [("fragment F on T \x7b b \x7d", ["b"]), ("fragment F on T \x7b a \x7d", ["a"])]⟩]
    ∃ analysis, Completes system options ["a", "b"] analysis ∧
      (conclude options ⟨[], ["a", "b"], 0, none⟩ analysis).reported = some reports ∧
      NamesRightFiles system options ["a", "b"] reports := by
  intro first second system options reports
  have readFirst : readText system "a" = .ok first :=
    readText_entry (by decide +kernel) rfl (by decide +kernel)
  have readSecond : readText system "b" = .ok second :=
    readText_entry (by decide +kernel) rfl (by decide +kernel)
  have completes : Completes system options ["a", "b"]
      (analyse system (checkSession options) ["b", "a"]) :=
    ⟨["b", "a"], by decide, .refl _, rfl⟩
  have reported : (conclude options ⟨[], ["a", "b"], 0, none⟩
      (analyse system (checkSession options) ["b", "a"])).reported = some reports := by
    simp only [analyse, readFirst, readSecond]
    decide +kernel
  refine ⟨_, completes, reported, (report_names_right_files system options
    ⟨[], ["a", "b"], 0, none⟩ completes reported).2.2 fun path member text read => ?_⟩
  simp only [List.mem_cons, List.not_mem_nil, or_false] at member
  rcases member with rfl | rfl
  · rw [readFirst] at read
    cases read
    exact Simple.regular (by decide +kernel) rfl
  · rw [readSecond] at read
    cases read
    exact Simple.regular (by decide +kernel) rfl

/-- The comments of the first two fragments end in other places, so that they have one key. The
second is dropped from the document, but the registry has heard of its name: with the third it is
reported as a conflict, and is in no file. The file's own document has one key under that name. -/
theorem dropped_fragment_reported :
    let text := "fragment #\nF # G\non T \x7b a \x7d\nfragment # F #\nG on T \x7b a \x7d\n" ++
      "fragment G on T \x7b b \x7d\n"
    let system := filesHere [("f", text)]
    let options : CheckOptions := ⟨false, false, [], true, ["f"]⟩
    (∀ key, Defines system options "f" "G" key → key = "fragment G on T \x7b b \x7d") ∧
      ∃ analysis, Completes system options ["f"] analysis ∧
        (conclude options ⟨[], ["f"], 0, none⟩ analysis).reported =
          some [⟨"G", [("fragment # F # G on T \x7b a \x7d", []),
            ("fragment G on T \x7b b \x7d", ["f"])]⟩] := by
  intro text system options
  have read : readText system "f" = .ok text :=
    readText_entry (by decide +kernel) rfl (by decide +kernel)
  refine ⟨fun key defines => ?_, analyse system (checkSession options) ["f"],
    ⟨_, .refl _, .refl _, rfl⟩, ?_⟩
  · obtain ⟨own, read', entry⟩ := defines
    rw [read] at read'
    cases read'
    have own : ownFragments options.session text =
        [("F", "fragment # F # G on T \x7b a \x7d"), ("G", "fragment G on T \x7b b \x7d")] := by
      decide +kernel
    simpa [own] using entry
  · simp only [analyse, read]
    decide +kernel

end Command
end QueryStore
