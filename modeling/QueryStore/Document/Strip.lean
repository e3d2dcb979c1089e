import QueryStore.Document.Basic

/-! Stripping locations. Below the node that is stripped no location stays; the node itself
keeps its offsets, without the text, when `keep` says so. Names, arguments, values and
types pass through untouched. -/
namespace QueryStore

/-- The node's own location after stripping. -/
def stripOwn (keep : Bool) (location : Option Location) : Option Location :=
  if keep then location.map Location.detach else none

@[simp] theorem stripOwn_false (location : Option Location) : stripOwn false location = none :=
  rfl

def Directive.strip (keep : Bool) (directive : Directive) : Directive :=
  { directive with location := stripOwn keep directive.location }

def VariableDefinition.strip (keep : Bool) (definition : VariableDefinition) :
    VariableDefinition :=
  { definition with location := stripOwn keep definition.location }

def FragmentSpread.strip (keep : Bool) (spread : FragmentSpread) : FragmentSpread :=
  { spread with
    directives := spread.directives.map (Directive.strip false)
    location := stripOwn keep spread.location }

mutual
def Field.strip (keep : Bool) : Field → Field
  | ⟨responseAlias, name, arguments, directives, none, location⟩ =>
    ⟨responseAlias, name, arguments, directives.map (Directive.strip false), none,
      stripOwn keep location⟩
  | ⟨responseAlias, name, arguments, directives, some set, location⟩ =>
    ⟨responseAlias, name, arguments, directives.map (Directive.strip false),
      some (set.strip false), stripOwn keep location⟩

def InlineFragment.strip (keep : Bool) : InlineFragment → InlineFragment
  | ⟨typeCondition, directives, set, location⟩ =>
    ⟨typeCondition, directives.map (Directive.strip false), set.strip false,
      stripOwn keep location⟩

def Selection.strip (keep : Bool) : Selection → Selection
  | .field field => .field (field.strip keep)
  | .fragmentSpread spread => .fragmentSpread (spread.strip keep)
  | .inlineFragment fragment => .inlineFragment (fragment.strip keep)

def SelectionSet.strip (keep : Bool) : SelectionSet → SelectionSet
  | ⟨selections, location⟩ => ⟨Selection.stripAll selections, stripOwn keep location⟩

/-- Selections below a stripped node, so none keeps a location. -/
def Selection.stripAll : List Selection → List Selection
  | [] => []
  | selection :: rest => selection.strip false :: Selection.stripAll rest
end

def Operation.strip (keep : Bool) (operation : Operation) : Operation :=
  { operation with
    variableDefinitions := operation.variableDefinitions.map (VariableDefinition.strip false)
    directives := operation.directives.map (Directive.strip false)
    selectionSet := operation.selectionSet.strip false
    location := stripOwn keep operation.location }

def Fragment.strip (keep : Bool) (fragment : Fragment) : Fragment :=
  { fragment with
    variableDefinitions := fragment.variableDefinitions.map (VariableDefinition.strip false)
    directives := fragment.directives.map (Directive.strip false)
    selectionSet := fragment.selectionSet.strip false
    location := stripOwn keep fragment.location }

def Definition.strip (keep : Bool) : Definition → Definition
  | .operation node => .operation (node.strip keep)
  | .fragment node => .fragment (node.strip keep)

def Document.strip (keep : Bool) (document : Document) : Document :=
  { definitions := document.definitions.map (Definition.strip false)
    location := stripOwn keep document.location }

@[simp] theorem Selection.stripAll_eq_map (selections : List Selection) :
    Selection.stripAll selections = selections.map (Selection.strip false) := by
  induction selections with
  | nil => rfl
  | cons selection rest ih => simp [Selection.stripAll, ih]

end QueryStore
