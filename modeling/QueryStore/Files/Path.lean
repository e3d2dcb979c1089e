import QueryStore.Text.Quoted
import QueryStore.Text.Words

/-! Paths as they are written. Order looks at their components, so that all below a
directory stands before a neighbour whose name merely begins alike. -/
namespace QueryStore.Files

/-- A part of a path. -/
inductive Component
  | root
  | current
  | parent
  | normal (name : String)
deriving DecidableEq, Repr

/-- The names between slashes; two slashes in a row have an empty name between them. -/
def segments (path : String) : List String := Text.split '/' path

/-- The component that a name is after the first; a dot there has no meaning. -/
def Component.ofSegment? (name : String) : Option Component :=
  if name = "" || name = "." then none
  else if name = ".." then some .parent
  else some (.normal name)

/-- The components of a path: a slash at its beginning is the root, a dot there is the
current directory. -/
def components (path : String) : List Component :=
  match segments path with
  | [] => []
  | first :: rest =>
    let others := rest.filterMap Component.ofSegment?
    if first = "" then (if rest.isEmpty then [] else .root :: others)
    else if first = "." then .current :: others
    else (Component.ofSegment? first).toList ++ others

/-- A text that orders components: the root, the current directory, the parent, and then
names by their code points. -/
def Component.sortKey : Component → String
  | root => "0"
  | current => "1"
  | parent => "2"
  | normal name => "3" ++ name

/-- The order of paths, component by component. -/
def notAfter (left right : String) : Bool :=
  let keys (path : String) := (components path).map Component.sortKey
  !(keys right).lex (keys left)

/-- Sorts what belongs to paths by the paths; what belongs to equal ones keeps its order. -/
def sortByPath {α : Type} (path : α → String) (items : List α) : List α :=
  items.mergeSort fun left right => notAfter (path left) (path right)

/-- The path of an entry of a directory. -/
def join (directory name : String) : String :=
  if directory.toList.getLast? = some '/' then directory ++ name else directory ++ "/" ++ name

/-- What follows the last dot of a file name, unless the name begins with that dot. -/
def extension? (path : String) : Option String :=
  match (components path).getLast? with
  | some (.normal name) =>
    let reversed := name.toList.reverse
    let after := reversed.takeWhile (· ≠ '.')
    let before := (reversed.dropWhile (· ≠ '.')).tail
    if before.isEmpty then none else some (String.ofList after.reverse)
  | _ => none

example : extension? "a.graphql" = some "graphql" := by decide +kernel
example : extension? "d/.graphql" = none ∧ extension? "h." = some "" := by decide +kernel
example : notAfter "./a/x" "./a-b" = true := by decide +kernel

end QueryStore.Files
