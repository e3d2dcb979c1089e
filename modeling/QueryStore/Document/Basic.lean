import QueryStore.Text.Slice
import QueryStore.Number

/-! Documents of the GraphQL query language: operations and fragments, each with a set of
selections. Every structural node may carry a location, which is two byte offsets and, as long as
it is attached, the text that they point into; names, types and values carry none. -/
namespace QueryStore

/-- A range of bytes, `stop` not included, and the text it is a range of. -/
structure Location where
  start : Nat
  stop : Nat
  source : Option String
deriving DecidableEq, Repr

namespace Location

/-- The part of the attached text between the offsets; there is none when no text is
attached, and none when the offsets are reversed, too great or inside a character. -/
def text? (location : Location) : Option String :=
  location.source.bind fun source =>
    (Text.slice source.toList location.start location.stop).map String.ofList

/-- The offsets alone. -/
def detach (location : Location) : Location := { location with source := none }

end Location

/-- What an operation does. -/
inductive OperationKind
  | query
  | mutation
  | subscription
deriving DecidableEq, Repr

/-- The keyword that begins an operation of a kind. -/
def OperationKind.keyword : OperationKind → String
  | query => "query"
  | mutation => "mutation"
  | subscription => "subscription"

/-- The type of a variable. -/
inductive TypeReference
  | named (name : String)
  | list (item : TypeReference)
  | nonNull (type : TypeReference)
deriving DecidableEq, Repr

/-- The members of an object stand in ascending order of their names, each name once. -/
inductive Value
  | boolean (value : Bool)
  | enum (name : String)
  | float (value : Number.Binary64)
  | int (value : Int)
  | list (items : List Value)
  | null
  | object (members : List (String × Value))
  | string (text : String)
  | var (name : String)

/-- Puts a member where its name belongs; a name already there gets the new value. -/
def Value.insertMember (name : String) (value : Value) :
    List (String × Value) → List (String × Value)
  | [] => [(name, value)]
  | (first, held) :: rest =>
    if name < first then (name, value) :: (first, held) :: rest
    else if name = first then (name, value) :: rest
    else (first, held) :: insertMember name value rest

/-- A value for a named argument. -/
structure Argument where
  name : String
  value : Value

/-- An annotation with arguments. -/
structure Directive where
  name : String
  arguments : List Argument
  location : Option Location

/-- A variable that a definition declares, perhaps with a default value. -/
structure VariableDefinition where
  name : String
  type : TypeReference
  defaultValue : Option Value
  location : Option Location

/-- A reference to a fragment by its name. -/
structure FragmentSpread where
  fragmentName : String
  directives : List Directive
  location : Option Location

mutual
/-- The alias, where there is one, is the name under which the answer is returned. -/
structure Field where
  responseAlias : Option String
  name : String
  arguments : List Argument
  directives : List Directive
  selectionSet : Option SelectionSet
  location : Option Location

/-- Selections that hold for a type, or for any. -/
structure InlineFragment where
  typeCondition : Option String
  directives : List Directive
  selectionSet : SelectionSet
  location : Option Location

/-- What can stand in a set of selections. -/
inductive Selection
  | field (field : Field)
  | fragmentSpread (spread : FragmentSpread)
  | inlineFragment (fragment : InlineFragment)

/-- The selections between two braces. -/
structure SelectionSet where
  selections : List Selection
  location : Option Location
end

/-- A query, mutation or subscription; the shorthand form is a query without a name. -/
structure Operation where
  kind : OperationKind
  name : Option String
  variableDefinitions : List VariableDefinition
  directives : List Directive
  selectionSet : SelectionSet
  location : Option Location

/-- A named fragment; only an extension of the language gives it variables of its own. -/
structure Fragment where
  name : String
  variableDefinitions : List VariableDefinition
  typeCondition : String
  directives : List Directive
  selectionSet : SelectionSet
  location : Option Location

/-- What can stand at the top of a document. -/
inductive Definition
  | operation (operation : Operation)
  | fragment (fragment : Fragment)

/-- Definitions in the order of the text. -/
structure Document where
  definitions : List Definition
  location : Option Location

namespace Definition

/-- The operation that a definition is. -/
def asOperation : Definition → Option Operation
  | .operation node => some node
  | .fragment _ => none

/-- The fragment that a definition is. -/
def asFragment : Definition → Option Fragment
  | .operation _ => none
  | .fragment node => some node

/-- The selections of a definition. -/
def selectionSet : Definition → SelectionSet
  | .operation node => node.selectionSet
  | .fragment node => node.selectionSet

/-- The location of a definition. -/
def location : Definition → Option Location
  | .operation node => node.location
  | .fragment node => node.location

end Definition

/-- The operations of a document, in order. -/
def Document.operations (document : Document) : List Operation :=
  document.definitions.filterMap Definition.asOperation

/-- The fragments of a document, in order. -/
def Document.fragments (document : Document) : List Fragment :=
  document.definitions.filterMap Definition.asFragment

/-- The name under which a field is answered. -/
def Field.responseKey (field : Field) : String := field.responseAlias.getD field.name

namespace Selection

/-- The location of a selection. -/
def location : Selection → Option Location
  | .field node => node.location
  | .fragmentSpread spread => spread.location
  | .inlineFragment fragment => fragment.location

/-- The selections below this one, where it has any. -/
def selectionSet : Selection → Option SelectionSet
  | .field node => node.selectionSet
  | .fragmentSpread _ => none
  | .inlineFragment fragment => some fragment.selectionSet

/-- What a selection is known by: its response key, the fragment it spreads, or the type
that it is restricted to. -/
def label : Selection → Option String
  | .field node => some node.responseKey
  | .fragmentSpread spread => some spread.fragmentName
  | .inlineFragment fragment => fragment.typeCondition

/-- Induction on selections and sets of them. A selection has its property by itself or by that of
the set right below it, a set by that of its selections. -/
theorem induct {motive : Selection → Prop} {motiveSet : SelectionSet → Prop}
    (leaf : ∀ responseAlias name arguments directives location,
      motive (.field ⟨responseAlias, name, arguments, directives, none, location⟩))
    (branch : ∀ responseAlias name arguments directives set location, motiveSet set →
      motive (.field ⟨responseAlias, name, arguments, directives, some set, location⟩))
    (spread : ∀ spread, motive (.fragmentSpread spread))
    (inlineFragment : ∀ typeCondition directives set location, motiveSet set →
      motive (.inlineFragment ⟨typeCondition, directives, set, location⟩))
    (set : ∀ selections location, (∀ selection ∈ selections, motive selection) →
      motiveSet ⟨selections, location⟩) :
    (∀ selection, motive selection) ∧ ∀ set, motiveSet set := by
  have sets (whole : SelectionSet) :
      motiveSet whole ∧ ∀ selection ∈ whole.selections, motive selection := by
    -- The trees nest through lists and options; what is said of these is said of what is in them.
    refine @SelectionSet.rec (fun field => motive (.field field))
      (fun fragment => motive (.inlineFragment fragment)) motive
      (fun set => motiveSet set ∧ ∀ selection ∈ set.selections, motive selection)
      (fun set? => ∀ set, set? = some set → motiveSet set)
      (fun selections => ∀ selection ∈ selections, motive selection)
      ?field ?fragment (fun _ holds => holds) spread (fun _ holds => holds) ?braces ?none ?some
      ?nil ?cons whole
    case field =>
      intro responseAlias name arguments directives set? location below
      cases set? with
      | none => exact leaf responseAlias name arguments directives location
      | some set => exact branch responseAlias name arguments directives set location (below set rfl)
    case fragment =>
      intro typeCondition directives inner location below
      exact inlineFragment typeCondition directives inner location below.1
    case braces => exact fun selections location inside => ⟨set selections location inside, inside⟩
    case nil => exact fun selection absent => absurd absent List.not_mem_nil
    case cons => exact fun selection rest here later => List.forall_mem_cons.mpr ⟨here, later⟩
    case none => exact fun inner absent => nomatch absent
    case some => exact fun inner holds other same => Option.some.inj same ▸ holds.1
  exact ⟨fun selection => (sets ⟨[selection], none⟩).2 selection List.mem_cons_self,
    fun set => (sets set).1⟩

end Selection
end QueryStore
