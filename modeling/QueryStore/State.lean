import QueryStore.Document.Same

/-! What a session keeps. In the document cache a key is stored once: what is put under it later
does not replace the first document. The fragment registry remembers, for every fragment name, the
distinct definitions seen under it, in the order in which they were first seen; a definition is
known by its key. One lock guards both. -/
namespace QueryStore

/-- A parsed document without locations: the key it is cached under, the names and keys of
its fragments in order, and the text it was parsed from. -/
structure ParsedDocument where
  key : String
  document : Document
  fragmentKeys : List (String × String)
  source : String

/-- Equal documents agree in all four parts, floats being compared by value. -/
def ParsedDocument.same (left right : ParsedDocument) : Bool :=
  left.key = right.key && left.document.same right.document
    && left.fragmentKeys = right.fragmentKeys && left.source = right.source

/-- A parsed document as an object: two with one serial number are the same object. -/
structure StoredDocument where
  serial : Nat
  parsed : ParsedDocument

/-- Documents in the order in which they were put. -/
structure Cache where
  entries : List (String × StoredDocument)

namespace Cache

/-- A cache without documents. -/
def empty : Cache := ⟨[]⟩

/-- The number of documents, which is that of keys. -/
def size (cache : Cache) : Nat := cache.entries.length

/-- Whether nothing is stored. -/
def isEmpty (cache : Cache) : Bool := cache.entries.isEmpty

/-- The document stored under a key. -/
def get? (cache : Cache) (key : String) : Option StoredDocument := cache.entries.lookup key

/-- Whether a document is stored under a key. -/
def contains (cache : Cache) (key : String) : Bool := (cache.get? key).isSome

/-- The document that is stored under the key afterwards, and the cache. -/
def put (cache : Cache) (key : String) (document : StoredDocument) : StoredDocument × Cache :=
  match cache.get? key with
  | some stored => (stored, cache)
  | none => (document, ⟨cache.entries ++ [(key, document)]⟩)

end Cache

/-- Names in the order of their first observation, each with its variants. -/
structure Registry where
  entries : List (String × List String)
deriving DecidableEq, Repr

/-- What an observation is to the registry: a first one under the name, a repetition, or one
that contradicts what was seen before. -/
inductive Observation
  | new
  | known
  | conflict
deriving DecidableEq, Repr

/-- The word for an observation in reports. -/
def Observation.label : Observation → String
  | new => "New"
  | known => "Known"
  | conflict => "Conflict"

namespace Registry

/-- A registry that has seen nothing. -/
def empty : Registry := ⟨[]⟩

/-- The number of names that were observed. -/
def size (registry : Registry) : Nat := registry.entries.length

/-- Whether no name was observed. -/
def isEmpty (registry : Registry) : Bool := registry.entries.isEmpty

/-- The keys observed under a name, if there are any. -/
def variants? (registry : Registry) (name : String) : Option (List String) :=
  registry.entries.lookup name

/-- Names with at least two variants, in ascending order. -/
def conflicts (registry : Registry) : List (String × List String) :=
  (registry.entries.filter fun entry => 2 ≤ entry.2.length).mergeSort fun left right =>
    left.1 ≤ right.1

/-- What it is to observe a key when the given variants are known. -/
def judge (variants : Option (List String)) (key : String) : Observation :=
  match variants with
  | none => .new
  | some keys => if key ∈ keys then .known else .conflict

/-- Puts a key at the end of the variants of a name, unless it is there. -/
def insert (name key : String) : List (String × List String) → List (String × List String)
  | [] => [(name, [key])]
  | (other, keys) :: rest =>
    if other = name then (other, if key ∈ keys then keys else keys ++ [key]) :: rest
    else (other, keys) :: insert name key rest

/-- Observes a key under a name. -/
def observe (registry : Registry) (name key : String) : Observation × Registry :=
  (judge (registry.variants? name) key, ⟨insert name key registry.entries⟩)

end Registry

/-- What a session keeps behind its lock. -/
structure State where
  cache : Cache
  registry : Registry

end QueryStore
