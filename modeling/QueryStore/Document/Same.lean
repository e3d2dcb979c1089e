import QueryStore.Document.Basic

/-! Equality of documents in which floats are compared by value, so that the two zeros are
one, and what is not a number is unlike itself. Everything else, locations included, is compared
as it is. -/
namespace QueryStore

/-- Two absent values are the same, and two present ones when the test says so. -/
def sameOption {α : Type} (same : α → α → Bool) : Option α → Option α → Bool
  | none, none => true
  | some left, some right => same left right
  | _, _ => false

/-- Lists of one length whose entries are the same, place by place. -/
def sameList {α : Type} (same : α → α → Bool) : List α → List α → Bool
  | [], [] => true
  | left :: lefts, right :: rights => same left right && sameList same lefts rights
  | _, _ => false

mutual
def Value.same : Value → Value → Bool
  | .boolean left, .boolean right => left = right
  | .enum left, .enum right => left = right
  | .float left, .float right => left.sameValue right
  | .int left, .int right => left = right
  | .list left, .list right => Value.sameItems left right
  | .null, .null => true
  | .object left, .object right => Value.sameMembers left right
  | .string left, .string right => left = right
  | .var left, .var right => left = right
  | _, _ => false

def Value.sameItems : List Value → List Value → Bool
  | [], [] => true
  | left :: lefts, right :: rights => left.same right && Value.sameItems lefts rights
  | _, _ => false

def Value.sameMembers : List (String × Value) → List (String × Value) → Bool
  | [], [] => true
  | (leftName, left) :: lefts, (rightName, right) :: rights =>
    leftName = rightName && left.same right && Value.sameMembers lefts rights
  | _, _ => false
end

def Argument.same (left right : Argument) : Bool :=
  left.name = right.name && left.value.same right.value

def Directive.same (left right : Directive) : Bool :=
  left.name = right.name && sameList Argument.same left.arguments right.arguments
    && left.location = right.location

def VariableDefinition.same (left right : VariableDefinition) : Bool :=
  left.name = right.name && left.type = right.type
    && sameOption Value.same left.defaultValue right.defaultValue
    && left.location = right.location

def FragmentSpread.same (left right : FragmentSpread) : Bool :=
  left.fragmentName = right.fragmentName
    && sameList Directive.same left.directives right.directives
    && left.location = right.location

mutual
def Field.same : Field → Field → Bool
  | ⟨leftAlias, leftName, leftArguments, leftDirectives, leftSet, leftLocation⟩,
    ⟨rightAlias, rightName, rightArguments, rightDirectives, rightSet, rightLocation⟩ =>
    leftAlias = rightAlias && leftName = rightName
      && sameList Argument.same leftArguments rightArguments
      && sameList Directive.same leftDirectives rightDirectives
      && (match leftSet, rightSet with
        | none, none => true
        | some left, some right => left.same right
        | _, _ => false)
      && leftLocation = rightLocation

def InlineFragment.same : InlineFragment → InlineFragment → Bool
  | ⟨leftCondition, leftDirectives, left, leftLocation⟩,
    ⟨rightCondition, rightDirectives, right, rightLocation⟩ =>
    leftCondition = rightCondition
      && sameList Directive.same leftDirectives rightDirectives
      && left.same right && leftLocation = rightLocation

def Selection.same : Selection → Selection → Bool
  | .field left, .field right => left.same right
  | .fragmentSpread left, .fragmentSpread right => left.same right
  | .inlineFragment left, .inlineFragment right => left.same right
  | _, _ => false

def SelectionSet.same : SelectionSet → SelectionSet → Bool
  | ⟨lefts, leftLocation⟩, ⟨rights, rightLocation⟩ =>
    Selection.sameAll lefts rights && leftLocation = rightLocation

def Selection.sameAll : List Selection → List Selection → Bool
  | [], [] => true
  | left :: lefts, right :: rights => left.same right && Selection.sameAll lefts rights
  | _, _ => false
end

@[simp] theorem Selection.sameAll_eq_sameList (lefts rights : List Selection) :
    Selection.sameAll lefts rights = sameList Selection.same lefts rights := by
  induction lefts generalizing rights with
  | nil => cases rights <;> simp [Selection.sameAll, sameList]
  | cons left lefts ih => cases rights <;> simp [Selection.sameAll, sameList, ih]

def Operation.same (left right : Operation) : Bool :=
  left.kind = right.kind && left.name = right.name
    && sameList VariableDefinition.same left.variableDefinitions right.variableDefinitions
    && sameList Directive.same left.directives right.directives
    && left.selectionSet.same right.selectionSet && left.location = right.location

def Fragment.same (left right : Fragment) : Bool :=
  left.name = right.name
    && sameList VariableDefinition.same left.variableDefinitions right.variableDefinitions
    && left.typeCondition = right.typeCondition
    && sameList Directive.same left.directives right.directives
    && left.selectionSet.same right.selectionSet && left.location = right.location

def Definition.same : Definition → Definition → Bool
  | .operation left, .operation right => left.same right
  | .fragment left, .fragment right => left.same right
  | _, _ => false

def Document.same (left right : Document) : Bool :=
  sameList Definition.same left.definitions right.definitions && left.location = right.location

end QueryStore
