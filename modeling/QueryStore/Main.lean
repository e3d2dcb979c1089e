import QueryStore.Command.Tasks

/-! The command line. It loads the files and directories that the arguments name, with all
that links in them lead to, runs the command on them and writes what the command leaves
behind. A file that cannot be read, or a directory that cannot be opened, is loaded as one with
the words of the system for the reason. -/
namespace QueryStore.Command
open Files

/-- The files loaded so far, and the places that are loaded, or being loaded, with all below
them. -/
structure Loaded where
  system : FileSystem
  places : List (List String)

/-- Puts an entry where the names lead from the root. -/
def Loaded.insert (loaded : Loaded) (names : List String) (entry : Entry) : Loaded :=
  { loaded with system.root := loaded.system.root.insert entry names }

/-- The names of a path. -/
def namesOf (path : String) : List String := (segments path).filter (· ≠ "")

/-- What stands where the names lead from the root. -/
def entryAt (names : List String) : IO.FS.DirEntry := ⟨⟨"/"⟩, "/".intercalate names⟩

/-- The words of the system for an error. -/
def wordsOf : IO.Error → String
  | .permissionDenied _ code details => s!"{details} (os error {code})"
  | .hardwareFault code details => s!"{details} (os error {code})"
  | .resourceExhausted _ code details => s!"{details} (os error {code})"
  | .noFileOrDirectory _ code details => s!"{details} (os error {code})"
  | .inappropriateType _ code details => s!"{details} (os error {code})"
  | .otherError code details => s!"{details} (os error {code})"
  | error => toString error

/-- What an action gives, or the words for why it gives nothing. -/
def attempt {α : Type} (action : IO α) : IO (Except String α) := do
  try return .ok (← action) catch error => return .error (wordsOf error)

/-- The kind of an entry, a link not being followed. -/
def kindOf (entry : IO.FS.DirEntry) : IO (Option IO.FS.FileType) := do
  return (← attempt entry.path.symlinkMetadata).toOption.map (·.type)

/-- Why nothing can be looked up in a directory, which may be open even if it is not listed. -/
def refusalOf (entry : IO.FS.DirEntry) : IO (Option String) := do
  match ← attempt (entry.path / ".").symlinkMetadata with
  | .ok _ => return none
  | .error reason => return some reason

/-- The names of the place that a link leads to. -/
def targetOf (entry : IO.FS.DirEntry) : IO (Option (List String)) := do
  try return some (namesOf (← IO.FS.realPath entry.path).toString) catch _ => return none

/-- A link to a place; a link that leads nowhere gets a target that no entry has. -/
def linkTo : Option (List String) → Entry
  | some names => .link ("/" ++ "/".intercalate names)
  | none => .link "\x00"

/-- Loads a place with all below it. A place that a link leads to is loaded as well, once. -/
partial def load (loaded : Loaded) (names : List String) : IO Loaded := do
  let entry := entryAt names
  match ← kindOf entry with
  | some .file =>
    let content ← attempt (IO.FS.readBinFile entry.path)
    return loaded.insert names (.file (content.map ByteArray.toList))
  | some .other => return loaded.insert names .special
  | some .dir =>
    match ← attempt entry.path.readDir with
    | .error reason => return loaded.insert names (.closed reason)
    | .ok listed =>
      listed.foldlM (fun loaded below => load loaded (names ++ [below.fileName]))
        (loaded.insert names (.directory []))
  | some .symlink =>
    let target ← targetOf entry
    let loaded := loaded.insert names (linkTo target)
    match target with
    | none => return loaded
    | some place =>
      if loaded.places.any (·.isPrefixOf place) then return loaded
      else load { loaded with places := place :: loaded.places } place
  | none => return loaded

/-- Goes along a path from a place that was reached, loading the links on the way, and loads
the place at its end. -/
def approach (loaded : Loaded) (reached : List String) : List String → IO Loaded
  | [] => load loaded reached
  | name :: rest => do
    if name = "" || name = "." then approach loaded reached rest
    else if name = ".." then approach loaded reached.dropLast rest
    else
      let next := reached ++ [name]
      match ← kindOf (entryAt next) with
      | some .dir =>
        match ← refusalOf (entryAt next) with
        | some reason => return loaded.insert next (.closed reason)
        | none => approach (loaded.insert next (.directory [])) next rest
      | some .symlink =>
        let target ← targetOf (entryAt next)
        let loaded := loaded.insert next (linkTo target)
        match target with
        | none => return loaded
        | some place => approach loaded place rest
      | _ => load loaded next

/-- Loads what the paths of a task lead to. -/
def loadFor (task : Task) : IO FileSystem := do
  let here := namesOf (← IO.currentDir).toString
  let root := Entry.insert (.directory []) (.directory []) here
  let loaded ← task.paths.foldlM
    (fun loaded path => approach loaded (startOf here path) (segments path))
    (⟨⟨root, here⟩, []⟩ : Loaded)
  return loaded.system

/-- Writes what a command leaves behind. -/
def Outcome.write (outcome : Outcome) : IO UInt32 := do
  for warning in outcome.warnings do IO.eprintln ("WARN " ++ warning)
  for text in outcome.stdout do IO.println text
  for text in outcome.stderr do IO.eprintln text
  return if outcome.success then 0 else 1

end QueryStore.Command

open QueryStore.Command in
/-- Runs the command that the arguments name. -/
def main (arguments : List String) : IO UInt32 := do
  match Invocation.ofArguments arguments with
  | .error .displayHelp => IO.println "usage: (check | print) [OPTIONS] PATH..."; return 0
  | .error error => IO.eprintln error.label; return 2
  | .ok (.nothing _) => IO.println "usage: (check | print) [OPTIONS] PATH..."; return 0
  | .ok (.task task) =>
    match task.run (← loadFor task) with
    | some outcome => outcome.write
    | none => IO.eprintln panicMessage; return 101
