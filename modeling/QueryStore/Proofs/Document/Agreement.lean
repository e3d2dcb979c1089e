import Mathlib.Data.List.Forall2
import QueryStore.Document.Same
import QueryStore.Document.Strip

/-! Nodes that differ in their locations only. Two nodes agree when they have the same names,
types and conditions, values that are alike, and children that agree, one by one in order. What is
left of them without locations is then equal, and only then (`strip_eq_iff`, for each type of
node); with floats compared by value it is the same when they agree up to that
(`same_strip_iff`). -/
namespace QueryStore

section
variable (alike : Value → Value → Prop)

def Argument.Agrees (left right : Argument) : Prop :=
  left.name = right.name ∧ alike left.value right.value

def Directive.Agrees (left right : Directive) : Prop :=
  left.name = right.name ∧ List.Forall₂ (Argument.Agrees alike) left.arguments right.arguments

def VariableDefinition.Agrees (left right : VariableDefinition) : Prop :=
  left.name = right.name ∧ left.type = right.type ∧
    Option.Rel alike left.defaultValue right.defaultValue

def FragmentSpread.Agrees (left right : FragmentSpread) : Prop :=
  left.fragmentName = right.fragmentName ∧
    List.Forall₂ (Directive.Agrees alike) left.directives right.directives

mutual
def Field.Agrees : Field → Field → Prop
  | ⟨leftAlias, leftName, leftArguments, leftDirectives, leftSet, _⟩,
    ⟨rightAlias, rightName, rightArguments, rightDirectives, rightSet, _⟩ =>
    leftAlias = rightAlias ∧ leftName = rightName ∧
      List.Forall₂ (Argument.Agrees alike) leftArguments rightArguments ∧
      List.Forall₂ (Directive.Agrees alike) leftDirectives rightDirectives ∧
      match leftSet, rightSet with
      | none, none => True
      | some left, some right => left.Agrees right
      | _, _ => False

def InlineFragment.Agrees : InlineFragment → InlineFragment → Prop
  | ⟨leftCondition, leftDirectives, left, _⟩, ⟨rightCondition, rightDirectives, right, _⟩ =>
    leftCondition = rightCondition ∧
      List.Forall₂ (Directive.Agrees alike) leftDirectives rightDirectives ∧ left.Agrees right

def Selection.Agrees : Selection → Selection → Prop
  | .field left, .field right => left.Agrees right
  | .fragmentSpread left, .fragmentSpread right => left.Agrees alike right
  | .inlineFragment left, .inlineFragment right => left.Agrees right
  | _, _ => False

def SelectionSet.Agrees : SelectionSet → SelectionSet → Prop
  | ⟨lefts, _⟩, ⟨rights, _⟩ => Selection.AllAgree lefts rights

/-- Selections that agree one by one. -/
def Selection.AllAgree : List Selection → List Selection → Prop
  | [], [] => True
  | left :: lefts, right :: rights => left.Agrees right ∧ Selection.AllAgree lefts rights
  | _, _ => False
end

@[simp] theorem Selection.allAgree_iff (lefts rights : List Selection) :
    Selection.AllAgree alike lefts rights ↔ List.Forall₂ (Selection.Agrees alike) lefts rights := by
  induction lefts generalizing rights with
  | nil => cases rights <;> simp [Selection.AllAgree]
  | cons left lefts ih => cases rights <;> simp [Selection.AllAgree, ih]

def Operation.Agrees (left right : Operation) : Prop :=
  left.kind = right.kind ∧ left.name = right.name ∧
    List.Forall₂ (VariableDefinition.Agrees alike) left.variableDefinitions
      right.variableDefinitions ∧
    List.Forall₂ (Directive.Agrees alike) left.directives right.directives ∧
    left.selectionSet.Agrees alike right.selectionSet

def Fragment.Agrees (left right : Fragment) : Prop :=
  left.name = right.name ∧
    List.Forall₂ (VariableDefinition.Agrees alike) left.variableDefinitions
      right.variableDefinitions ∧
    left.typeCondition = right.typeCondition ∧
    List.Forall₂ (Directive.Agrees alike) left.directives right.directives ∧
    left.selectionSet.Agrees alike right.selectionSet

def Definition.Agrees : Definition → Definition → Prop
  | .operation left, .operation right => left.Agrees alike right
  | .fragment left, .fragment right => left.Agrees alike right
  | _, _ => False

def Document.Agrees (left right : Document) : Prop :=
  List.Forall₂ (Definition.Agrees alike) left.definitions right.definitions

end

section
variable {α β : Type} {agrees : α → α → Prop}

/-- Lists are equal behind a map when their entries are, one by one. -/
theorem map_eq_iff_of_agrees {change : α → β} (lefts : List α)
    (each : ∀ left ∈ lefts, ∀ right, change left = change right ↔ agrees left right)
    (rights : List α) :
    lefts.map change = rights.map change ↔ List.Forall₂ agrees lefts rights := by
  induction lefts generalizing rights with
  | nil => cases rights <;> simp
  | cons left lefts ih =>
    obtain ⟨here, later⟩ := List.forall_mem_cons.mp each
    cases rights <;> simp [here, ih later]

/-- Lists are the same behind a map when their entries are, one by one. -/
theorem sameList_map_iff {same : β → β → Bool} {change : α → β} (lefts : List α)
    (each : ∀ left ∈ lefts, ∀ right, same (change left) (change right) = true ↔ agrees left right)
    (rights : List α) :
    sameList same (lefts.map change) (rights.map change) = true ↔
      List.Forall₂ agrees lefts rights := by
  induction lefts generalizing rights with
  | nil => cases rights <;> simp [sameList]
  | cons left lefts ih =>
    obtain ⟨here, later⟩ := List.forall_mem_cons.mp each
    cases rights <;> simp [sameList, here, ih later]

end

/-! Agreement up to equal values is equality without locations. -/

theorem Argument.agrees_eq : Argument.Agrees (· = ·) = (· = ·) := by
  funext left right
  cases left
  cases right
  simp [Argument.Agrees]

theorem optionRel_eq {α : Type} (left right : Option α) :
    Option.Rel (· = ·) left right ↔ left = right := by
  cases left <;> cases right <;> simp

theorem Directive.strip_eq_iff (left right : Directive) :
    left.strip false = right.strip false ↔ left.Agrees (· = ·) right := by
  simp [Directive.strip, Directive.Agrees, Argument.agrees_eq, List.forall₂_eq_eq_eq]

theorem VariableDefinition.strip_eq_iff (left right : VariableDefinition) :
    left.strip false = right.strip false ↔ left.Agrees (· = ·) right := by
  simp [VariableDefinition.strip, VariableDefinition.Agrees, optionRel_eq]

private theorem directives_eq_iff (lefts rights : List Directive) :
    lefts.map (Directive.strip false) = rights.map (Directive.strip false) ↔
      List.Forall₂ (Directive.Agrees (· = ·)) lefts rights :=
  map_eq_iff_of_agrees lefts (fun left _ => left.strip_eq_iff) rights

private theorem variables_eq_iff (lefts rights : List VariableDefinition) :
    lefts.map (VariableDefinition.strip false) = rights.map (VariableDefinition.strip false) ↔
      List.Forall₂ (VariableDefinition.Agrees (· = ·)) lefts rights :=
  map_eq_iff_of_agrees lefts (fun left _ => left.strip_eq_iff) rights

theorem FragmentSpread.strip_eq_iff (left right : FragmentSpread) :
    left.strip false = right.strip false ↔ left.Agrees (· = ·) right := by
  simp [FragmentSpread.strip, FragmentSpread.Agrees, directives_eq_iff]

private theorem selections_eq_iff :
    (∀ left right : Selection,
      left.strip false = right.strip false ↔ left.Agrees (· = ·) right) ∧
    ∀ left right : SelectionSet,
      left.strip false = right.strip false ↔ left.Agrees (· = ·) right := by
  refine Selection.induct ?leaf ?branch ?spread ?inlineFragment ?set
  case leaf =>
    intro responseAlias name arguments directives location right
    rcases right with ⟨_, _, _, _, _ | _, _⟩ | _ | _ <;>
      simp [Selection.strip, Field.strip, Selection.Agrees, Field.Agrees, directives_eq_iff,
        Argument.agrees_eq, List.forall₂_eq_eq_eq]
  case branch =>
    intro responseAlias name arguments directives set location below right
    rcases right with ⟨_, _, _, _, _ | _, _⟩ | _ | _ <;>
      simp [Selection.strip, Field.strip, Selection.Agrees, Field.Agrees, directives_eq_iff,
        Argument.agrees_eq, List.forall₂_eq_eq_eq, below]
  case spread =>
    intro spread right
    cases right <;> simp [Selection.strip, Selection.Agrees, spread.strip_eq_iff]
  case inlineFragment =>
    intro typeCondition directives set location below right
    rcases right with _ | _ | ⟨_, _, _, _⟩ <;>
      simp [Selection.strip, InlineFragment.strip, Selection.Agrees, InlineFragment.Agrees,
        directives_eq_iff, below]
  case set =>
    intro selections location inside right
    obtain ⟨others, _⟩ := right
    simp [SelectionSet.strip, SelectionSet.Agrees, map_eq_iff_of_agrees selections inside]

theorem Selection.strip_eq_iff (left right : Selection) :
    left.strip false = right.strip false ↔ left.Agrees (· = ·) right :=
  selections_eq_iff.1 left right

theorem SelectionSet.strip_eq_iff (left right : SelectionSet) :
    left.strip false = right.strip false ↔ left.Agrees (· = ·) right :=
  selections_eq_iff.2 left right

theorem Field.strip_eq_iff (left right : Field) :
    left.strip false = right.strip false ↔ left.Agrees (· = ·) right := by
  simpa [Selection.strip, Selection.Agrees] using
    Selection.strip_eq_iff (.field left) (.field right)

theorem InlineFragment.strip_eq_iff (left right : InlineFragment) :
    left.strip false = right.strip false ↔ left.Agrees (· = ·) right := by
  simpa [Selection.strip, Selection.Agrees] using
    Selection.strip_eq_iff (.inlineFragment left) (.inlineFragment right)

theorem Operation.strip_eq_iff (left right : Operation) :
    left.strip false = right.strip false ↔ left.Agrees (· = ·) right := by
  simp [Operation.strip, Operation.Agrees, variables_eq_iff, directives_eq_iff,
    SelectionSet.strip_eq_iff]

theorem Fragment.strip_eq_iff (left right : Fragment) :
    left.strip false = right.strip false ↔ left.Agrees (· = ·) right := by
  simp [Fragment.strip, Fragment.Agrees, variables_eq_iff, directives_eq_iff,
    SelectionSet.strip_eq_iff]

theorem Definition.strip_eq_iff : ∀ left right : Definition,
    left.strip false = right.strip false ↔ left.Agrees (· = ·) right
  | .operation left, .operation right => by
    simp [Definition.strip, Definition.Agrees, left.strip_eq_iff right]
  | .fragment left, .fragment right => by
    simp [Definition.strip, Definition.Agrees, left.strip_eq_iff right]
  | .operation _, .fragment _ | .fragment _, .operation _ => by
    simp [Definition.strip, Definition.Agrees]

theorem Document.strip_eq_iff (left right : Document) :
    left.strip false = right.strip false ↔ left.Agrees (· = ·) right := by
  simp [Document.strip, Document.Agrees,
    map_eq_iff_of_agrees _ fun (left : Definition) _ => left.strip_eq_iff]

/-! Agreement up to values that are the same is sameness without locations. -/

/-- Values that are the same, floats by value. -/
def Value.Same (left right : Value) : Prop := left.same right = true

private theorem arguments_same_iff (lefts rights : List Argument) :
    sameList Argument.same lefts rights = true ↔
      List.Forall₂ (Argument.Agrees Value.Same) lefts rights := by
  have each (left right : Argument) :
      (id left).same (id right) = true ↔ left.Agrees Value.Same right := by
    simp [Argument.same, Argument.Agrees, Value.Same]
  simpa using sameList_map_iff lefts (fun left _ => each left) rights

theorem optionSame_iff (left right : Option Value) :
    sameOption Value.same left right = true ↔ Option.Rel Value.Same left right := by
  cases left <;> cases right <;> simp [sameOption, Value.Same]

theorem Directive.same_iff (left right : Directive) : left.same right = true ↔
    left.name = right.name ∧ sameList Argument.same left.arguments right.arguments = true ∧
      left.location = right.location := by
  simp [Directive.same, and_assoc]

theorem Directive.same_strip_iff (left right : Directive) :
    (left.strip false).same (right.strip false) = true ↔ left.Agrees Value.Same right := by
  rw [Directive.same_iff]
  simp [Directive.strip, Directive.Agrees, arguments_same_iff]

theorem VariableDefinition.same_iff (left right : VariableDefinition) : left.same right = true ↔
    left.name = right.name ∧ left.type = right.type ∧
      sameOption Value.same left.defaultValue right.defaultValue = true ∧
      left.location = right.location := by
  simp [VariableDefinition.same, and_assoc]

theorem VariableDefinition.same_strip_iff (left right : VariableDefinition) :
    (left.strip false).same (right.strip false) = true ↔ left.Agrees Value.Same right := by
  rw [VariableDefinition.same_iff]
  simp [VariableDefinition.strip, VariableDefinition.Agrees,
    optionSame_iff]

private theorem directives_same_iff (lefts rights : List Directive) :
    sameList Directive.same (lefts.map (Directive.strip false)) (rights.map (Directive.strip false))
      = true ↔ List.Forall₂ (Directive.Agrees Value.Same) lefts rights :=
  sameList_map_iff lefts (fun left _ => left.same_strip_iff) rights

private theorem variables_same_iff (lefts rights : List VariableDefinition) :
    sameList VariableDefinition.same (lefts.map (VariableDefinition.strip false))
        (rights.map (VariableDefinition.strip false)) = true ↔
      List.Forall₂ (VariableDefinition.Agrees Value.Same) lefts rights :=
  sameList_map_iff lefts (fun left _ => left.same_strip_iff) rights

theorem FragmentSpread.same_iff (left right : FragmentSpread) : left.same right = true ↔
    left.fragmentName = right.fragmentName ∧
      sameList Directive.same left.directives right.directives = true ∧
      left.location = right.location := by
  simp [FragmentSpread.same, and_assoc]

theorem FragmentSpread.same_strip_iff (left right : FragmentSpread) :
    (left.strip false).same (right.strip false) = true ↔ left.Agrees Value.Same right := by
  rw [FragmentSpread.same_iff]
  simp [FragmentSpread.strip, FragmentSpread.Agrees, directives_same_iff]

private theorem selections_same_iff :
    (∀ left right : Selection,
      (left.strip false).same (right.strip false) = true ↔ left.Agrees Value.Same right) ∧
    ∀ left right : SelectionSet,
      (left.strip false).same (right.strip false) = true ↔ left.Agrees Value.Same right := by
  refine Selection.induct ?leaf ?branch ?spread ?inlineFragment ?set
  case leaf =>
    intro responseAlias name arguments directives location right
    rcases right with ⟨_, _, _, _, _ | _, _⟩ | _ | _ <;>
      simp [Selection.strip, Field.strip, Selection.same, Field.same, Selection.Agrees,
        Field.Agrees, directives_same_iff, arguments_same_iff, and_assoc]
  case branch =>
    intro responseAlias name arguments directives set location below right
    rcases right with ⟨_, _, _, _, _ | _, _⟩ | _ | _ <;>
      simp [Selection.strip, Field.strip, Selection.same, Field.same, Selection.Agrees,
        Field.Agrees, directives_same_iff, arguments_same_iff, and_assoc, below]
  case spread =>
    intro spread right
    cases right <;> simp [Selection.strip, Selection.same, Selection.Agrees, spread.same_strip_iff]
  case inlineFragment =>
    intro typeCondition directives set location below right
    rcases right with _ | _ | ⟨_, _, _, _⟩ <;>
      simp [Selection.strip, InlineFragment.strip, Selection.same, InlineFragment.same,
        Selection.Agrees, InlineFragment.Agrees, directives_same_iff, and_assoc, below]
  case set =>
    intro selections location inside right
    obtain ⟨others, _⟩ := right
    simp [SelectionSet.strip, SelectionSet.same, SelectionSet.Agrees, sameList_map_iff selections inside]

theorem Selection.same_strip_iff (left right : Selection) :
    (left.strip false).same (right.strip false) = true ↔ left.Agrees Value.Same right :=
  selections_same_iff.1 left right

theorem SelectionSet.same_strip_iff (left right : SelectionSet) :
    (left.strip false).same (right.strip false) = true ↔ left.Agrees Value.Same right :=
  selections_same_iff.2 left right

theorem Field.same_strip_iff (left right : Field) :
    (left.strip false).same (right.strip false) = true ↔ left.Agrees Value.Same right := by
  simpa [Selection.strip, Selection.same, Selection.Agrees] using
    Selection.same_strip_iff (.field left) (.field right)

theorem InlineFragment.same_strip_iff (left right : InlineFragment) :
    (left.strip false).same (right.strip false) = true ↔ left.Agrees Value.Same right := by
  simpa [Selection.strip, Selection.same, Selection.Agrees] using
    Selection.same_strip_iff (.inlineFragment left) (.inlineFragment right)

theorem Operation.same_iff (left right : Operation) : left.same right = true ↔
    left.kind = right.kind ∧ left.name = right.name ∧
      sameList VariableDefinition.same left.variableDefinitions right.variableDefinitions = true ∧
      sameList Directive.same left.directives right.directives = true ∧
      left.selectionSet.same right.selectionSet = true ∧ left.location = right.location := by
  simp [Operation.same, and_assoc]

theorem Operation.same_strip_iff (left right : Operation) :
    (left.strip false).same (right.strip false) = true ↔ left.Agrees Value.Same right := by
  rw [Operation.same_iff]
  simp [Operation.strip, Operation.Agrees, variables_same_iff, directives_same_iff,
    SelectionSet.same_strip_iff]

theorem Fragment.same_iff (left right : Fragment) : left.same right = true ↔
    left.name = right.name ∧
      sameList VariableDefinition.same left.variableDefinitions right.variableDefinitions = true ∧
      left.typeCondition = right.typeCondition ∧
      sameList Directive.same left.directives right.directives = true ∧
      left.selectionSet.same right.selectionSet = true ∧ left.location = right.location := by
  simp [Fragment.same, and_assoc]

theorem Fragment.same_strip_iff (left right : Fragment) :
    (left.strip false).same (right.strip false) = true ↔ left.Agrees Value.Same right := by
  rw [Fragment.same_iff]
  simp [Fragment.strip, Fragment.Agrees, variables_same_iff, directives_same_iff,
    SelectionSet.same_strip_iff]

theorem Definition.same_strip_iff : ∀ left right : Definition,
    (left.strip false).same (right.strip false) = true ↔ left.Agrees Value.Same right
  | .operation left, .operation right => by
    simp [Definition.strip, Definition.same, Definition.Agrees, left.same_strip_iff right]
  | .fragment left, .fragment right => by
    simp [Definition.strip, Definition.same, Definition.Agrees, left.same_strip_iff right]
  | .operation _, .fragment _ | .fragment _, .operation _ => by
    simp [Definition.strip, Definition.same, Definition.Agrees]

theorem Document.same_strip_iff (left right : Document) :
    (left.strip false).same (right.strip false) = true ↔ left.Agrees Value.Same right := by
  simp [Document.strip, Document.same, Document.Agrees,
    sameList_map_iff _ fun (left : Definition) _ => left.same_strip_iff]

end QueryStore
