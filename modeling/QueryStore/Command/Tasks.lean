import QueryStore.Command.Arguments
import QueryStore.Files.Walk
import QueryStore.Session
import QueryStore.Json

/-! Checking and printing files. For a check all files found are parsed in one session; the verdict
lists what went wrong, or else sums up what was found and which fragments contradict each other. Its
lists are sorted, so that the order in which the files were parsed shows only in that of a
fragment's variants, and in which of several files with one canonical form answers for the others.
Printing writes the document of one file as JSON. -/
namespace QueryStore.Command
open Files

/-- The files to check, sorted by path, what stood in the way of finding them, and how many
other files were met. A file is `forced` when it was named alone and is checked although
its extension is not among those looked for. -/
structure Found where
  obstacles : List WalkError
  files : List String
  skipped : Nat
  forced : Option String
deriving DecidableEq, Repr

/-- Whether a path has one of the extensions, which may be given with dots before them. -/
def hasExtension (extensions : List String) (path : String) : Bool :=
  match extension? path with
  | none => false
  | some extension =>
    extensions.any fun given => String.ofList (given.toList.dropWhile (· = '.')) = extension

/-- The path of a file that was met. -/
def metFile : Meeting → Option String
  | .file path => some path
  | .obstacle _ => none

/-- The obstacle that was met. -/
def metObstacle : Meeting → Option WalkError
  | .file _ => none
  | .obstacle error => some error

/-- Finds the files to check. A single argument that is a file is checked whatever it is
called, if nothing else was found. -/
def find (system : FileSystem) (options : CheckOptions) : Found :=
  let meetings := options.paths.flatMap (walk system)
  let met := meetings.filterMap metFile
  let matching := met.filter (hasExtension options.extensions)
  let skipped := met.length - matching.length
  let obstacles := meetings.filterMap metObstacle
  match matching, options.paths with
  | [], [path] =>
    if system.isFile path then ⟨obstacles, [path], skipped - 1, some path⟩
    else ⟨obstacles, [], skipped, none⟩
  | matching, _ => ⟨obstacles, sortByPath id matching, skipped, none⟩

/-- The warning about a forced file. -/
def forcedWarning (extensions : List String) (path : String) : String :=
  "Proceeding to check " ++ Text.quoted path.toList
    ++ " even though it doesn't match any of the --graphql-file-exts ("
    ++ ", ".intercalate (extensions.map fun extension => "`" ++ extension ++ "`") ++ ")."

/-- Why a file has no document. -/
inductive FileError
  | unreadable (error : ReadError)
  | rejected (error : SessionError)
deriving DecidableEq, Repr

/-- What is said about a file without a document. -/
def FileError.message : FileError → String
  | unreadable error => error.message
  | rejected error => error.message

/-- A file and what came of it. -/
structure FileResult where
  path : String
  outcome : Except (Failure FileError) ParsedDocument

/-- The results of files in the order in which they were parsed, the session after them and
the events on the way. -/
structure Analysis where
  results : List FileResult
  session : Session
  events : List Event

/-- Parses files one after the other; a file that cannot be read does not concern the
session, and where a parse panics the others go on. -/
def analyse (system : FileSystem) (session : Session) : List String → Analysis
  | [] => ⟨[], session, []⟩
  | path :: rest =>
    match readText system path with
    | .error error =>
      let after := analyse system session rest
      { after with results := ⟨path, .error (.returned (.unreadable error))⟩ :: after.results }
    | .ok text =>
      let reply := session.parse .standard text []
      let after := analyse system reply.session rest
      let outcome := match reply.result with
        | .ok stored => .ok stored.parsed
        | .error failure => .error (failure.map .rejected)
      { results := ⟨path, outcome⟩ :: after.results
        session := after.session
        events := reply.events ++ after.events }

/-- The session that a check starts with. -/
def checkSession (options : CheckOptions) : Session :=
  .start ⟨options.fragmentVariables, options.warnings⟩

/-- A fault that a check reports: one met on the walk, a parse that panicked, or one of a
file. -/
inductive Problem
  | walk (error : WalkError)
  | panic
  | file (path : String) (error : FileError)
deriving DecidableEq, Repr

/-- What is said about a parser that panics. -/
def panicMessage : String := "The indent of a block string ends inside a character"

/-- What is said about a fault, with the path of its file. -/
def Problem.message : Problem → String
  | walk error => error.message
  | panic => "Parse task failed: " ++ panicMessage
  | file path error => path ++ ": " ++ error.message

/-- The fault of a file, with its path. -/
def FileResult.error? (result : FileResult) : Option (String × FileError) :=
  match result.outcome with
  | .error (.returned error) => some (result.path, error)
  | _ => none

/-- Whether the parse of a file panicked. -/
def FileResult.panicked (result : FileResult) : Bool :=
  match result.outcome with
  | .error .panicked => true
  | _ => false

/-- The document of a file. -/
def FileResult.document? (result : FileResult) : Option ParsedDocument :=
  match result.outcome with
  | .error _ => none
  | .ok document => some document

/-- All faults: those of the walk, then parses that panicked, then one for each other file
at fault, sorted by path. -/
def problems (found : Found) (results : List FileResult) : List Problem :=
  found.obstacles.map .walk ++ (results.filter FileResult.panicked).map (fun _ => .panic)
    ++ (sortByPath Prod.fst (results.filterMap FileResult.error?)).map
      fun fault => .file fault.1 fault.2

/-- The names and keys of a file's fragments. -/
def FileResult.fragmentKeys (result : FileResult) : List (String × String) :=
  match result.document? with
  | none => []
  | some document => document.fragmentKeys

/-- The files whose documents have a fragment of the given name and key, in ascending order,
each once. -/
def filesWith (results : List FileResult) (name key : String) : List String :=
  let files := (results.filter fun result => result.fragmentKeys.contains (name, key)).map (·.path)
  files.eraseDups.mergeSort fun left right => left ≤ right

/-- A fragment name with contradicting definitions: each variant with the files it is in. -/
structure ConflictReport where
  name : String
  variants : List (String × List String)
deriving DecidableEq, Repr

/-- Reports conflicts with the files that are party to them. -/
def reportConflicts (conflicts : List (String × List String)) (results : List FileResult) :
    List ConflictReport :=
  conflicts.map fun (name, variants) =>
    ⟨name, variants.map fun key => (key, filesWith results name key)⟩

/-- What a check counts: files analysed and skipped, distinct documents, operations, and names
of fragments. -/
structure Summary where
  analysed : Nat
  skipped : Nat
  documents : Nat
  operations : Nat
  fragmentNames : Nat
deriving DecidableEq, Repr

/-- Counts what was found. -/
def summarise (found : Found) (session : Session) (results : List FileResult) : Summary :=
  { analysed := found.files.length
    skipped := found.skipped
    documents := session.cachedDocumentCount
    operations := ((results.filterMap FileResult.document?).flatMap fun parsed =>
      parsed.document.operations).length
    fragmentNames := ((results.flatMap FileResult.fragmentKeys).map Prod.fst).eraseDups.length }

/-- What a check comes to. Contradicting fragments fail it only when they are denied. -/
inductive Verdict
  | failed (problems : List Problem)
  | denied (conflicts : List ConflictReport)
  | passed (summary : Summary) (conflicts : List ConflictReport)
deriving DecidableEq, Repr

/-- The verdict: faults first, then conflicts if they are denied. -/
def conclude (options : CheckOptions) (found : Found) (analysis : Analysis) : Verdict :=
  let problems := problems found analysis.results
  let conflicts := reportConflicts analysis.session.fragmentConflicts analysis.results
  if !problems.isEmpty then .failed problems
  else if options.denyConflicts && !conflicts.isEmpty then .denied conflicts
  else .passed (summarise found analysis.session analysis.results) conflicts

/-- Writes lines one below the other. -/
def joinLines (lines : List String) : String := "\n".intercalate lines

/-- The lines of a report. -/
def ConflictReport.lines (report : ConflictReport) : List String :=
  s!"  * `{report.name}` has {report.variants.length} different definitions:"
    :: report.variants.map fun (key, files) =>
      "    - `" ++ key ++ "` in: " ++ ", ".intercalate files

/-- A report on all contradicting fragments after a sign. -/
def conflictText (sign : String) (conflicts : List ConflictReport) : String :=
  joinLines (s!"{sign} Found {conflicts.length} conflicting fragment names:"
    :: conflicts.flatMap ConflictReport.lines)

/-- The mark of failure. -/
def failureSign : String := "❌"

/-- The mark of success. -/
def successSign : String := "✅"

/-- The mark of a warning. -/
def warningSign : String := "⚠\uFE0F"

/-- The text of a summary. -/
def Summary.text (summary : Summary) : String :=
  joinLines [
    successSign ++ " All GraphQL checked successfully:",
    s!"  * Analyzed {summary.analysed} files.",
    s!"  * Skipped {summary.skipped} non-graphql files.",
    s!"  * Parsed {summary.documents} distinct documents.",
    s!"  * Found {summary.operations} operations.",
    s!"  * Found {summary.fragmentNames} fragment names."]

/-- What a command leaves behind: whether it succeeded, its texts and its warnings. -/
structure Outcome where
  success : Bool
  stdout : Option String
  stderr : Option String
  warnings : List String
deriving DecidableEq, Repr

/-- A verdict as texts. What a check passes in spite of is written beside the summary. -/
def Verdict.outcome (verdict : Verdict) (warnings : List String) : Outcome :=
  match verdict with
  | failed problems =>
    let lines := problems.map fun problem => "  * " ++ problem.message
    let title := failureSign ++ " GraphQL check errors:"
    ⟨false, none, some (joinLines (title :: lines)), warnings⟩
  | denied conflicts => ⟨false, none, some (conflictText failureSign conflicts), warnings⟩
  | passed summary conflicts =>
    let report := if conflicts.isEmpty then none else some (conflictText warningSign conflicts)
    ⟨true, some summary.text, report, warnings⟩

/-- The messages of events that are warnings. -/
def warningsOf (events : List Event) : List String :=
  (events.filter fun event => event.level = "WARN").map Event.message

/-- Finds files, parses them and concludes. -/
def runCheck (system : FileSystem) (options : CheckOptions) : Outcome :=
  let found := find system options
  let analysis := analyse system (checkSession options) found.files
  let forced := found.forced.toList.map (forcedWarning options.extensions)
  (conclude options found analysis).outcome (forced ++ warningsOf analysis.events)

open Files

/-- Prints the document of a file as JSON. There is no outcome when the parser panics. -/
def runPrint (system : FileSystem) (options : PrintOptions) : Option Outcome :=
  let fail (message : String) : Outcome :=
    ⟨false, none, some (failureSign ++ " " ++ message), []⟩
  match readText system options.path with
  | .error error => some (fail error.message)
  | .ok text =>
    let reply := (Session.start ⟨options.fragmentVariables, true⟩).parse .standard text []
    match reply.result with
    | .error .panicked => none
    | .error (.returned error) => some (fail (options.path ++ ": " ++ error.message))
    | .ok stored =>
      let json := stored.parsed.document.toJson.pretty
      some ⟨true, some json, none, warningsOf reply.events⟩

/-- Runs a task on a system of files. -/
def Task.run (system : FileSystem) : Task → Option Outcome
  | check options => some (runCheck system options)
  | print options => runPrint system options

end QueryStore.Command
