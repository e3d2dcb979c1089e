import QueryStore.Files.Path
import QueryStore.Text.Slice

/-! Trees of files. A path is followed name by name, from the root or from the directory in
which commands are run; a link is replaced by its target. Paths, names and chains of links
are bounded. -/
namespace QueryStore.Files

/-- What a name stands for. A regular file has its bytes, or the words of the system for why they
cannot be read. The entries of a directory are in the order in which they are listed; a closed
directory refuses to be listed and to be searched. All else, such as a pipe, is special. -/
inductive Entry
  | file (content : Except String (List UInt8))
  | link (target : String)
  | directory (entries : List (String × Entry))
  | closed (reason : String)
  | special

/-- Why a path leads nowhere. -/
inductive PathError
  | notFound
  | notADirectory
  | nameTooLong
  | tooManyLinks
  | nulCharacter
  | refused (reason : String)
deriving DecidableEq, Repr

/-- The words of the system for the error; a path with a character NUL never gets that far. -/
def PathError.message : PathError → String
  | notFound => "No such file or directory (os error 2)"
  | notADirectory => "Not a directory (os error 20)"
  | nameTooLong => "File name too long (os error 36)"
  | tooManyLinks => "Too many levels of symbolic links (os error 40)"
  | nulCharacter => "file name contained an unexpected NUL byte"
  | refused reason => reason

namespace Entry

/-- The entries of a directory that lists them; nothing else has any. -/
def entries : Entry → List (String × Entry)
  | directory entries => entries
  | _ => []

/-- Whether an entry is a directory, be it closed. -/
def isDirectory : Entry → Bool
  | directory _ => true
  | closed _ => true
  | _ => false

/-- Why a name cannot be looked up in an entry. A blank name, behind a slash at the end of a path,
asks for nothing in a closed directory. -/
def barrier? (name : String) : Entry → Option PathError
  | directory _ => none
  | closed reason => if name = "" then none else some (.refused reason)
  | _ => some .notADirectory

@[simp] theorem barrier_directory (name : String) (entries : List (String × Entry)) :
    (directory entries).barrier? name = none := rfl

theorem barrier_flat {entry : Entry} (flat : entry.isDirectory = false) (name : String) :
    entry.barrier? name = some .notADirectory := by
  cases entry with
  | directory | closed => cases flat
  | file | link | special => rfl

theorem barrier_blank {entry : Entry} (deep : entry.isDirectory = true) :
    entry.barrier? "" = none := by
  cases entry with
  | directory | closed => rfl
  | file | link | special => cases deep

mutual
/-- Places an entry at a list of names, with the directories on the way. An empty directory
leaves a directory that is there already as it is. -/
def insert (tree : Entry) (value : Entry) : List String → Entry
  | [] =>
    match value, tree with
    | .directory [], .directory entries => .directory entries
    | value, _ => value
  | name :: rest => .directory (insertBelow value name rest tree.entries)

/-- Places an entry in or below the entry of a name. -/
def insertBelow (value : Entry) (name : String) (rest : List String) :
    List (String × Entry) → List (String × Entry)
  | [] => [(name, insert (.directory []) value rest)]
  | (other, entry) :: others =>
    if other = name then (other, insert entry value rest) :: others
    else (other, entry) :: insertBelow value name rest others
end

mutual
/-- The number of directories in a tree, closed ones aside. -/
def directoryCount : Entry → Nat
  | directory entries => 1 + countBelow entries
  | _ => 0

/-- The number of directories among entries and below them. -/
def countBelow : List (String × Entry) → Nat
  | [] => 0
  | (_, entry) :: rest => entry.directoryCount + countBelow rest
end

/-- The entry at a list of names, no link being followed. -/
def get? (tree : Entry) : List String → Option Entry
  | [] => some tree
  | name :: rest => (tree.entries.lookup name).bind fun entry => entry.get? rest

end Entry

/-- A tree of files from its root on, and the names that lead to the directory in which
commands are run. -/
structure FileSystem where
  root : Entry
  here : List String

/-- A place in the tree: the names that lead to it from the root, without links, and the
entry there. -/
structure Place where
  names : List String
  entry : Entry

/-- Where a path begins: at the root after a slash, and else in a directory. -/
def startOf (directory : List String) (path : String) : List String :=
  if path.toList.head? = some '/' then [] else directory

/-- The greatest length of a name, in bytes. -/
def nameLimit : Nat := 255

/-- The greatest length of a path, in bytes. -/
def pathLimit : Nat := 4095

/-- How many links may be followed on the way to one place. -/
def linkLimit : Nat := 40

/-- Follows names from a directory; the root is above itself. A link is followed if names
come after it or if `last` says that the last one is followed too; `links` bounds how many. -/
def follow (root : Entry) (last : Bool) (links : Nat) (directory names : List String) :
    Except PathError Place :=
  match root.get? directory with
  | none => .error .notFound
  | some here =>
    match names with
    | [] => .ok ⟨directory, here⟩
    | name :: rest =>
      match here.barrier? name with
      | some error => .error error
      | none =>
        if name = "" || name = "." then follow root last links directory rest
        else if name = ".." then follow root last links directory.dropLast rest
        else if nameLimit < Text.byteLength name.toList then .error .nameTooLong
        else
          match here.entries.lookup name with
          | none => .error .notFound
          | some (.link target) =>
            if rest.isEmpty && !last then .ok ⟨directory ++ [name], .link target⟩
            else match links with
              | 0 => .error .tooManyLinks
              | links + 1 =>
                follow root last links (startOf directory target) (segments target ++ rest)
          | some _ => follow root last links (directory ++ [name]) rest
termination_by (links, names.length)

namespace FileSystem

/-- The place that a path leads to; an empty path leads nowhere. -/
def resolve (system : FileSystem) (last : Bool) (path : String) : Except PathError Place :=
  if path = "" then .error .notFound
  else if path.toList.contains '\x00' then .error .nulCharacter
  else if pathLimit < Text.byteLength path.toList then .error .nameTooLong
  else follow system.root last linkLimit (startOf system.here path) (segments path)

/-- Whether a path leads to a regular file. -/
def isFile (system : FileSystem) (path : String) : Bool :=
  match system.resolve true path with
  | .ok ⟨_, .file _⟩ => true
  | _ => false

/-- Where names lead from a directory, links being followed; what is not there yet will stand
in the directory reached so far. -/
def landing (root : Entry) (directory names : List String) : List String :=
  names.foldl
    (fun directory name =>
      match follow root true linkLimit directory [name] with
      | .ok place => place.names
      | .error _ => directory ++ [name])
    directory

/-- Puts an entry at a path, with the directories on the way. All links on the way are
followed, and also one at the end of it, unless a link is put there. -/
def put (system : FileSystem) (path : String) (entry : Entry) : FileSystem :=
  let names := (segments path).filter fun name => name ≠ "" && name ≠ "."
  let start := startOf system.here path
  let names := match entry with
    | .link _ => landing system.root start names.dropLast ++ names.getLast?.toList
    | _ => landing system.root start names
  { system with root := system.root.insert entry names }

/-- A system without files. The current directory stands right below the root, under a name
that no path can contain. -/
def empty : FileSystem := ⟨.directory [("\x00", .directory [])], ["\x00"]⟩

/-- The system of the files at the given paths, put there one after the other. -/
def ofFiles (files : List (String × Entry)) : FileSystem :=
  files.foldl (fun system file => system.put file.1 file.2) empty

end FileSystem
end QueryStore.Files
