import QueryStore.Proofs.Document.Agreement
import QueryStore.Proofs.Document.Locations

/-! Stripping removes locations and nothing else. Nodes of all types, lists of nodes and nodes that
may be absent are stripped alike (`NodeKind`), and what is said of the types one by one holds of
their lists and options, by induction on the kind (`stripping_laws`). -/
namespace QueryStore

theorem stripOwn_stripOwn (first second : Bool) (location : Option Location) :
    stripOwn second (stripOwn first location) = stripOwn (first && second) location := by
  cases first <;> cases second <;> cases location <;> rfl

section
variable (first second : Bool)

theorem Directive.strip_strip (directive : Directive) :
    (directive.strip first).strip second = directive.strip (first && second) := by
  simp [Directive.strip, stripOwn_stripOwn]

theorem VariableDefinition.strip_strip (definition : VariableDefinition) :
    (definition.strip first).strip second = definition.strip (first && second) := by
  simp [VariableDefinition.strip, stripOwn_stripOwn]

theorem FragmentSpread.strip_strip (spread : FragmentSpread) :
    (spread.strip first).strip second = spread.strip (first && second) := by
  simp [FragmentSpread.strip, stripOwn_stripOwn, Directive.strip_strip]

private theorem selections_strip_strip :
    (∀ selection : Selection, ∀ first second,
      (selection.strip first).strip second = selection.strip (first && second)) ∧
    ∀ set : SelectionSet, ∀ first second,
      (set.strip first).strip second = set.strip (first && second) := by
  refine Selection.induct ?leaf ?branch ?spread ?inlineFragment ?set
  case leaf =>
    intro responseAlias name arguments directives location first second
    simp [Selection.strip, Field.strip, stripOwn_stripOwn, Directive.strip_strip]
  case branch =>
    intro responseAlias name arguments directives set location below first second
    simp [Selection.strip, Field.strip, stripOwn_stripOwn, Directive.strip_strip, below]
  case spread =>
    intro spread first second
    simp [Selection.strip, spread.strip_strip]
  case inlineFragment =>
    intro typeCondition directives set location below first second
    simp [Selection.strip, InlineFragment.strip, stripOwn_stripOwn, Directive.strip_strip, below]
  case set =>
    intro selections location inside first second
    simp +contextual [SelectionSet.strip, stripOwn_stripOwn, inside]

theorem Selection.strip_strip (selection : Selection) :
    (selection.strip first).strip second = selection.strip (first && second) :=
  selections_strip_strip.1 selection first second

theorem SelectionSet.strip_strip (set : SelectionSet) :
    (set.strip first).strip second = set.strip (first && second) :=
  selections_strip_strip.2 set first second

theorem Field.strip_strip (field : Field) :
    (field.strip first).strip second = field.strip (first && second) :=
  Selection.field.inj (Selection.strip_strip first second (.field field))

theorem InlineFragment.strip_strip (fragment : InlineFragment) :
    (fragment.strip first).strip second = fragment.strip (first && second) :=
  Selection.inlineFragment.inj (Selection.strip_strip first second (.inlineFragment fragment))

theorem Operation.strip_strip (operation : Operation) :
    (operation.strip first).strip second = operation.strip (first && second) := by
  simp [Operation.strip, stripOwn_stripOwn, Directive.strip_strip, VariableDefinition.strip_strip,
    SelectionSet.strip_strip]

theorem Fragment.strip_strip (fragment : Fragment) :
    (fragment.strip first).strip second = fragment.strip (first && second) := by
  simp [Fragment.strip, stripOwn_stripOwn, Directive.strip_strip, VariableDefinition.strip_strip,
    SelectionSet.strip_strip]

theorem Definition.strip_strip : ∀ definition : Definition,
    (definition.strip first).strip second = definition.strip (first && second)
  | .operation node => congrArg Definition.operation (node.strip_strip first second)
  | .fragment node => congrArg Definition.fragment (node.strip_strip first second)

theorem Document.strip_strip (document : Document) :
    (document.strip first).strip second = document.strip (first && second) := by
  simp [Document.strip, stripOwn_stripOwn, Definition.strip_strip, Function.comp_def]

end

section
variable (keep : Bool)

end

/-- What can be stripped: the nodes of eleven types, and lists and options of what can be. -/
inductive NodeKind
  | document
  | definition
  | operation
  | fragment
  | variableDefinition
  | directive
  | selectionSet
  | selection
  | field
  | fragmentSpread
  | inlineFragment
  | list (item : NodeKind)
  | option (item : NodeKind)
deriving DecidableEq, Repr

namespace NodeKind

/-- The nodes of a kind. -/
def Node : NodeKind → Type
  | document => Document
  | definition => Definition
  | operation => Operation
  | fragment => Fragment
  | variableDefinition => VariableDefinition
  | directive => Directive
  | selectionSet => SelectionSet
  | selection => Selection
  | field => Field
  | fragmentSpread => FragmentSpread
  | inlineFragment => InlineFragment
  | list item => List item.Node
  | option item => Option item.Node

/-- A node without the locations below it, and without its own unless that is kept. -/
def strip (keep : Bool) : (kind : NodeKind) → kind.Node → kind.Node
  | document => Document.strip keep
  | definition => Definition.strip keep
  | operation => Operation.strip keep
  | fragment => Fragment.strip keep
  | variableDefinition => VariableDefinition.strip keep
  | directive => Directive.strip keep
  | selectionSet => SelectionSet.strip keep
  | selection => Selection.strip keep
  | field => Field.strip keep
  | fragmentSpread => FragmentSpread.strip keep
  | inlineFragment => InlineFragment.strip keep
  | list item => List.map (strip keep item)
  | option item => Option.map (strip keep item)

/-- What a node has as its own location; what each entry of a list has, in order. -/
def own : (kind : NodeKind) → kind.Node → List (Option Location)
  | document => fun node => [node.location]
  | definition => fun node => [Definition.location node]
  | operation => fun node => [node.location]
  | fragment => fun node => [node.location]
  | variableDefinition => fun node => [node.location]
  | directive => fun node => [node.location]
  | selectionSet => fun node => [node.location]
  | selection => fun node => [Selection.location node]
  | field => fun node => [node.location]
  | fragmentSpread => fun node => [node.location]
  | inlineFragment => fun node => [node.location]
  | list item => List.flatMap (own item)
  | option item => fun
    | none => []
    | some node => own item node

/-- All locations in a node. -/
def locations : (kind : NodeKind) → kind.Node → List Location
  | document => Document.locations
  | definition => Definition.locations
  | operation => Operation.locations
  | fragment => Fragment.locations
  | variableDefinition => VariableDefinition.locations
  | directive => Directive.locations
  | selectionSet => SelectionSet.locations
  | selection => Selection.locations
  | field => Field.locations
  | fragmentSpread => FragmentSpread.locations
  | inlineFragment => InlineFragment.locations
  | list item => List.flatMap (locations item)
  | option item => fun
    | none => []
    | some node => locations item node

/-- Nodes that differ at most in their locations and in values that are alike. -/
def Agrees (alike : Value → Value → Prop) : (kind : NodeKind) → kind.Node → kind.Node → Prop
  | document => Document.Agrees alike
  | definition => Definition.Agrees alike
  | operation => Operation.Agrees alike
  | fragment => Fragment.Agrees alike
  | variableDefinition => VariableDefinition.Agrees alike
  | directive => Directive.Agrees alike
  | selectionSet => SelectionSet.Agrees alike
  | selection => Selection.Agrees alike
  | field => Field.Agrees alike
  | fragmentSpread => FragmentSpread.Agrees alike
  | inlineFragment => InlineFragment.Agrees alike
  | list item => List.Forall₂ (Agrees alike item)
  | option item => Option.Rel (Agrees alike item)

/-- Equal nodes, floats being compared by value. -/
def same : (kind : NodeKind) → kind.Node → kind.Node → Bool
  | document => Document.same
  | definition => Definition.same
  | operation => Operation.same
  | fragment => Fragment.same
  | variableDefinition => VariableDefinition.same
  | directive => Directive.same
  | selectionSet => SelectionSet.same
  | selection => Selection.same
  | field => Field.same
  | fragmentSpread => FragmentSpread.same
  | inlineFragment => InlineFragment.same
  | list item => sameList (same item)
  | option item => sameOption (same item)

/-- What is to be true of stripping the nodes of a kind. -/
structure Laws (kind : NodeKind) : Prop where
  own_strip (keep : Bool) (node : kind.Node) :
    kind.own (kind.strip keep node) = (kind.own node).map (stripOwn keep)
  locations_strip (keep : Bool) (node : kind.Node) :
    kind.locations (kind.strip keep node) = (kind.own node).flatMap (Option.toList ∘ stripOwn keep)
  strip_strip (first second : Bool) (node : kind.Node) :
    kind.strip second (kind.strip first node) = kind.strip (first && second) node
  strip_eq_iff (left right : kind.Node) :
    kind.strip false left = kind.strip false right ↔ kind.Agrees (· = ·) left right
  same_strip_iff (left right : kind.Node) :
    kind.same (kind.strip false left) (kind.strip false right) = true ↔
      kind.Agrees Value.Same left right

theorem Laws.list {item : NodeKind} (laws : Laws item) : Laws (.list item) where
  own_strip keep (nodes : List item.Node) := by
    change (nodes.map (item.strip keep)).flatMap item.own =
      (nodes.flatMap item.own).map (stripOwn keep)
    simp only [List.flatMap_map, List.map_flatMap, laws.own_strip]
  locations_strip keep (nodes : List item.Node) := by
    change (nodes.map (item.strip keep)).flatMap item.locations =
      (nodes.flatMap item.own).flatMap (Option.toList ∘ stripOwn keep)
    simp only [List.flatMap_map, List.flatMap_assoc, laws.locations_strip]
  strip_strip first second (nodes : List item.Node) := by
    change (nodes.map (item.strip first)).map (item.strip second) =
      nodes.map (item.strip (first && second))
    simp only [List.map_map, Function.comp_def, laws.strip_strip]
  strip_eq_iff lefts rights := map_eq_iff_of_agrees lefts (fun left _ => laws.strip_eq_iff left) rights
  same_strip_iff lefts rights := sameList_map_iff lefts (fun left _ => laws.same_strip_iff left) rights

theorem Laws.option {item : NodeKind} (laws : Laws item) : Laws (.option item) where
  own_strip
    | _, none => rfl
    | keep, some node => laws.own_strip keep node
  locations_strip
    | _, none => rfl
    | keep, some node => laws.locations_strip keep node
  strip_strip
    | _, _, none => rfl
    | first, second, some node => congrArg some (laws.strip_strip first second node)
  strip_eq_iff
    | none, none => iff_of_true rfl .none
    | some left, some right =>
      Option.some_inj.trans ((laws.strip_eq_iff left right).trans Option.rel_some_some.symm)
    | none, some _ => iff_of_false nofun nofun
    | some _, none => iff_of_false nofun nofun
  same_strip_iff
    | none, none => iff_of_true rfl .none
    | some left, some right => (laws.same_strip_iff left right).trans Option.rel_some_some.symm
    | none, some _ => iff_of_false nofun nofun
    | some _, none => iff_of_false nofun nofun

/-- The laws for the nodes of a type, each of which has one location of its own. -/
theorem Laws.single {kind : NodeKind} {location : kind.Node → Option Location}
    (single : ∀ node, kind.own node = [location node])
    (own : ∀ keep node, location (kind.strip keep node) = stripOwn keep (location node))
    (below : ∀ keep node,
      kind.locations (kind.strip keep node) = (stripOwn keep (location node)).toList)
    (twice : ∀ first second node,
      kind.strip second (kind.strip first node) = kind.strip (first && second) node)
    (equal : ∀ left right,
      kind.strip false left = kind.strip false right ↔ kind.Agrees (· = ·) left right)
    (same : ∀ left right, kind.same (kind.strip false left) (kind.strip false right) = true ↔
      kind.Agrees Value.Same left right) : Laws kind where
  own_strip keep node := by rw [single, single, own, List.map_singleton]
  locations_strip keep node := by rw [single, below, List.flatMap_singleton, Function.comp_apply]
  strip_strip := twice
  strip_eq_iff := equal
  same_strip_iff := same

end NodeKind

end QueryStore
