import QueryStore.Files.Tree
import QueryStore.Text.Utf8

/-! Walking a tree of files, and reading them as text. Every file below a path is met once for each
way to it; links are followed, except where they lead back to a directory that is being walked. -/
namespace QueryStore.Files

/-- What keeps a walk from going on at a path. -/
inductive WalkError
  | unreachable (path : String) (error : PathError)
  | unopened (path reason : String)
  | loop (path ancestor : String)
deriving DecidableEq, Repr

/-- What is said about an obstacle. A directory that could not be opened, so that it is not known
whether a link to it leads back, is not named. -/
def WalkError.message : WalkError → String
  | unreachable path error => "IO error for operation on " ++ path ++ ": " ++ error.message
  | unopened _ reason => reason
  | loop path ancestor =>
    "File system loop found: " ++ path ++ " points to an ancestor " ++ ancestor

/-- What a walk meets: a regular file by its path, or an obstacle. -/
inductive Meeting
  | file (path : String)
  | obstacle (error : WalkError)
deriving DecidableEq, Repr

/-- A directory that is being walked: where it is, and the path it was reached by. -/
structure Ancestor where
  names : List String
  path : String

/-- Walks an entry met under a path. A directory, and whatever a link leads to, is looked up
by the whole path again, which may fail. `above` lists the directories being walked, the
nearest first; the number bounds how deep the walk goes. -/
def walkEntry (system : FileSystem) : Nat → List Ancestor → String → Entry → List Meeting
  | 0, _, _, _ => []
  | depth + 1, above, path, entry =>
    match entry with
    | .file _ => [.file path]
    | .special => []
    | entry =>
      match system.resolve true path with
      | .error error => [.obstacle (.unreachable path error)]
      | .ok ⟨names, found⟩ =>
        match found with
        | .file _ => [.file path]
        | .link _ => []
        | .special => []
        | .closed reason =>
          if entry.isDirectory then [.obstacle (.unreachable path (.refused reason))]
          else [.obstacle (.unopened path reason)]
        | .directory entries =>
          let ancestor := if entry.isDirectory then none
            else above.find? fun ancestor => ancestor.names = names
          match ancestor with
          | some ancestor => [.obstacle (.loop path ancestor.path)]
          | none =>
            entries.flatMap fun (name, entry) =>
              walkEntry system depth (⟨names, path⟩ :: above) (join path name) entry

/-- A walk never goes deeper than this: between two links it descends through distinct
directories, and no link leads twice to one directory. -/
def walkDepth (system : FileSystem) : Nat :=
  let directories := system.root.directoryCount + 2
  directories * directories

/-- Walks everything at and below a path. -/
def walk (system : FileSystem) (path : String) : List Meeting :=
  match system.resolve false path with
  | .error error => [.obstacle (.unreachable path error)]
  | .ok place => walkEntry system (walkDepth system) [] path place.entry

/-- Why a path has no text. -/
inductive ReadError
  | notAFile (path : String)
  | unread (path reason : String)
  | notUtf8 (path : String) (fault : Text.Utf8Fault)
deriving DecidableEq, Repr

/-- What is said about a path without a text. -/
def ReadError.message : ReadError → String
  | notAFile path => Text.quoted path.toList ++ " is not a file"
  | unread path reason => "Failed to read " ++ Text.quoted path.toList ++ ": " ++ reason
  | notUtf8 path fault => Text.quoted path.toList ++ " is not valid UTF-8: " ++ fault.message

/-- The text of the file that a path leads to. -/
def readText (system : FileSystem) (path : String) : Except ReadError String :=
  match system.resolve true path with
  | .ok ⟨_, .file (.error reason)⟩ => .error (.unread path reason)
  | .ok ⟨_, .file (.ok bytes)⟩ =>
    match Text.decodeUtf8 bytes with
    | .ok text => .ok text
    | .error fault => .error (.notUtf8 path fault)
  | _ => .error (.notAFile path)

end QueryStore.Files
