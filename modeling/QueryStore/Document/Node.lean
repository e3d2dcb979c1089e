import QueryStore.Document.Strip
import QueryStore.Document.Json

/-! Any node of a document as one type, paths from the root to a node, and the selections
of a set listed from the top down. -/
namespace QueryStore

/-- A node that can be reached from the root of a document. -/
inductive Node
  | document (document : Document)
  | definition (definition : Definition)
  | selection (selection : Selection)
  | selectionSet (set : SelectionSet)

/-- The name of an operation or fragment as a kind of node. -/
def Definition.kindName : Definition → String
  | .operation _ => "OperationDefinition"
  | .fragment _ => "FragmentDefinition"

/-- The name of a selection as a kind of node. -/
def Selection.kindName : Selection → String
  | .field _ => "Field"
  | .fragmentSpread _ => "FragmentSpread"
  | .inlineFragment _ => "InlineFragment"

namespace Node

/-- The name of a kind of node. -/
def kindName : Node → String
  | .document _ => "Document"
  | .definition node => node.kindName
  | .selection node => node.kindName
  | .selectionSet _ => "SelectionSet"

/-- Strips a node of whatever kind. -/
def strip (keep : Bool) : Node → Node
  | .document node => .document (node.strip keep)
  | .definition node => .definition (node.strip keep)
  | .selection node => .selection (node.strip keep)
  | .selectionSet node => .selectionSet (node.strip keep)

/-- The JSON form of a node of whatever kind. -/
def toJson : Node → Json
  | .document node => node.toJson
  | .definition node => node.toJson
  | .selection node => node.toJson
  | .selectionSet node => node.toJson

/-- The set of selections that belongs to a node itself. -/
def ownSelectionSet : Node → Option SelectionSet
  | .document _ => none
  | .definition node => some node.selectionSet
  | .selection node => node.selectionSet
  | .selectionSet node => some node

/-- The child of a number: a definition of a document, or a selection of the node's set. -/
def child? (node : Node) (index : Nat) : Option Node :=
  match node with
  | .document node => node.definitions[index]?.map .definition
  | node => node.ownSelectionSet.bind fun set => set.selections[index]?.map .selection

/-- The node at the end of a path of child numbers. -/
def descend? (node : Node) (path : List Nat) : Option Node :=
  path.foldlM child? node

end Node

mutual
/-- A selection and all below it, each with its depth, parents before children. -/
def Selection.preorder (depth : Nat) : Selection → List (Nat × Selection)
  | .field ⟨responseAlias, name, arguments, directives, none, location⟩ =>
    [(depth, .field ⟨responseAlias, name, arguments, directives, none, location⟩)]
  | .field ⟨responseAlias, name, arguments, directives, some set, location⟩ =>
    (depth, .field ⟨responseAlias, name, arguments, directives, some set, location⟩)
      :: set.preorder (depth + 1)
  | .fragmentSpread spread => [(depth, .fragmentSpread spread)]
  | .inlineFragment ⟨typeCondition, directives, set, location⟩ =>
    (depth, .inlineFragment ⟨typeCondition, directives, set, location⟩)
      :: set.preorder (depth + 1)

/-- The selections of a set and all below them. -/
def SelectionSet.preorder (depth : Nat) : SelectionSet → List (Nat × Selection)
  | ⟨selections, _⟩ => Selection.listPreorder depth selections

/-- Selections and all below them. -/
def Selection.listPreorder (depth : Nat) : List Selection → List (Nat × Selection)
  | [] => []
  | selection :: rest => selection.preorder depth ++ Selection.listPreorder depth rest
end

end QueryStore
