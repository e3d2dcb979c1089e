import QueryStore.Document.Node
import QueryStore.Proofs.Document.Agreement
import QueryStore.Proofs.Document.Locations
import QueryStore.Proofs.Document.Members
import QueryStore.Proofs.Document.Selfsame

/-! The JSON form of a document without locations determines it. The kind comes first in the object
of every node, and a member that may be left out never has the name of the one behind it
(`Json.optional_append_inj`). So trees are equal exactly if the nodes agree, one type of node after
the other (`Document.toJson_eq_iff`); only floats that are not finite are lost, which are null. In
documents that equal themselves these are the infinities, and all that is lost is a sign; so it is
in all that were parsed (`parsed_trees_eq_iff`). -/
namespace QueryStore

namespace Json

@[simp] theorem node_inj {kind kind' : String} {members members' : List (String × Json)} :
    node kind members = node kind' members' ↔ kind = kind' ∧ members = members' := by
  simp [node]

theorem optional_inj {name : String} {left right : Option Json} :
    optional name left = optional name right ↔ left = right := by
  cases left <;> cases right <;> simp [optional]

/-- A member that may be left out is told from the one behind it by its name. -/
theorem optional_append_inj {name : String} {left right : Option Json} {next next' : String × Json}
    {rest rest' : List (String × Json)} (apart : name ≠ next.1) (apart' : name ≠ next'.1) :
    optional name left ++ next :: rest = optional name right ++ next' :: rest' ↔
      left = right ∧ next = next' ∧ rest = rest' := by
  obtain ⟨other, value⟩ := next
  obtain ⟨other', value'⟩ := next'
  have back : other ≠ name := Ne.symm apart
  have forth : name ≠ other' := apart'
  cases left <;> cases right <;> simp [optional, back, forth]

end Json

theorem TypeReference.toJson_eq_iff (left right : TypeReference) :
    left.toJson = right.toJson ↔ left = right := by
  induction left generalizing right with
  | named name => cases right <;> simp [TypeReference.toJson]
  | list item ih => cases right <;> simp [TypeReference.toJson, ih]
  | nonNull type ih => cases right <;> simp [TypeReference.toJson, ih]

section
variable (floats : Number.Binary64 → Number.Binary64 → Prop)

mutual
/-- Values that are equal, but that floats at the same place are only related. -/
def Value.UpTo : Value → Value → Prop
  | .boolean left, .boolean right => left = right
  | .enum left, .enum right => left = right
  | .float left, .float right => floats left right
  | .int left, .int right => left = right
  | .list left, .list right => Value.ItemsUpTo left right
  | .null, .null => True
  | .object left, .object right => Value.MembersUpTo left right
  | .string left, .string right => left = right
  | .var left, .var right => left = right
  | _, _ => False

/-- Items that are equal one by one, up to a relation of floats. -/
def Value.ItemsUpTo : List Value → List Value → Prop
  | [], [] => True
  | left :: lefts, right :: rights => left.UpTo right ∧ Value.ItemsUpTo lefts rights
  | _, _ => False

/-- Members of the same names with values that are equal up to a relation of floats. -/
def Value.MembersUpTo : List (String × Value) → List (String × Value) → Prop
  | [], [] => True
  | (leftName, left) :: lefts, (rightName, right) :: rights =>
    leftName = rightName ∧ left.UpTo right ∧ Value.MembersUpTo lefts rights
  | _, _ => False
end

end

/-- Floats that are equal, or both not finite. -/
def Number.Binary64.UpToFinite (left right : Number.Binary64) : Prop :=
  left = right ∨ left.isFinite = false ∧ right.isFinite = false

/-- Floats that are equal, or both infinite. -/
def Number.Binary64.UpToSign (left right : Number.Binary64) : Prop :=
  left = right ∨ left.isInfinite = true ∧ right.isInfinite = true

/-- Values that are equal up to floats that are not finite. -/
abbrev Value.UpToFinite : Value → Value → Prop := Value.UpTo Number.Binary64.UpToFinite

/-- Values that are equal up to the signs of infinite floats. -/
abbrev Value.UpToSign : Value → Value → Prop := Value.UpTo Number.Binary64.UpToSign

/-- All floats that are not finite are null, and all others as they are. -/
private theorem floatTree_eq_iff (left right : Number.Binary64) :
    (Value.float left).toJson = (Value.float right).toJson ↔ left.UpToFinite right := by
  unfold Number.Binary64.UpToFinite
  cases finite : left.isFinite <;> cases finite' : right.isFinite
  · simp [Value.toJson, finite, finite']
  · have different : left ≠ right := fun same => by simp [same, finite'] at finite
    simp [Value.toJson, finite, finite', different]
  · have different : left ≠ right := fun same => by simp [same, finite'] at finite
    simp [Value.toJson, finite, finite', different]
  · simp [Value.toJson, finite, finite']

mutual
theorem Value.toJson_eq_iff (left right : Value) :
    left.toJson = right.toJson ↔ left.UpToFinite right := by
  cases left <;> cases right
  case float.float left right => simpa [Value.UpTo] using floatTree_eq_iff left right
  case list.list lefts rights =>
    simp [Value.toJson, Value.UpTo, Value.itemsToJson_eq_iff lefts rights]
  case object.object lefts rights =>
    simp [Value.toJson, Value.UpTo, Value.membersToJson_eq_iff lefts rights]
  -- All other values of one kind are told by their content, and values of two kinds by the kind.
  all_goals simp [Value.toJson, Value.UpTo]

theorem Value.itemsToJson_eq_iff : ∀ lefts rights : List Value,
    Value.itemsToJson lefts = Value.itemsToJson rights ↔
      Value.ItemsUpTo Number.Binary64.UpToFinite lefts rights
  | [], [] => by simp [Value.ItemsUpTo]
  | left :: lefts, right :: rights => by
    simp [Value.itemsToJson, Value.ItemsUpTo, left.toJson_eq_iff right,
      Value.itemsToJson_eq_iff lefts rights]
  | [], _ :: _ => by simp [Value.itemsToJson, Value.ItemsUpTo]
  | _ :: _, [] => by simp [Value.itemsToJson, Value.ItemsUpTo]

theorem Value.membersToJson_eq_iff : ∀ lefts rights : List (String × Value),
    Value.membersToJson lefts = Value.membersToJson rights ↔
      Value.MembersUpTo Number.Binary64.UpToFinite lefts rights
  | [], [] => by simp [Value.MembersUpTo]
  | (leftName, left) :: lefts, (rightName, right) :: rights => by
    simp [Value.membersToJson, Value.MembersUpTo, left.toJson_eq_iff right,
      Value.membersToJson_eq_iff lefts rights, and_assoc]
  | [], _ :: _ => by simp [Value.membersToJson, Value.MembersUpTo]
  | _ :: _, [] => by simp [Value.membersToJson, Value.MembersUpTo]
end

theorem Argument.toJson_eq_iff (left right : Argument) :
    left.toJson = right.toJson ↔ left.Agrees Value.UpToFinite right := by
  simp [Argument.toJson, Argument.Agrees, Value.toJson_eq_iff]

private theorem argumentTrees_eq_iff (lefts rights : List Argument) :
    lefts.map Argument.toJson = rights.map Argument.toJson ↔
      List.Forall₂ (Argument.Agrees Value.UpToFinite) lefts rights :=
  map_eq_iff_of_agrees lefts (fun left _ => left.toJson_eq_iff) rights

theorem Directive.toJson_eq_iff (left right : Directive) :
    (left.strip false).toJson = (right.strip false).toJson ↔ left.Agrees Value.UpToFinite right := by
  simp [Directive.toJson, Directive.strip, Directive.Agrees, argumentTrees_eq_iff]

private theorem defaultTree_eq_iff (left right : Option Value) :
    left.map Value.toJson = right.map Value.toJson ↔ Option.Rel Value.UpToFinite left right := by
  cases left <;> cases right <;> simp [Value.toJson_eq_iff]

theorem VariableDefinition.toJson_eq_iff (left right : VariableDefinition) :
    (left.strip false).toJson = (right.strip false).toJson ↔ left.Agrees Value.UpToFinite right := by
  simp [VariableDefinition.toJson, VariableDefinition.strip, VariableDefinition.Agrees,
    TypeReference.toJson_eq_iff, Json.optional_inj, defaultTree_eq_iff]

private theorem directiveTrees_eq_iff (lefts rights : List Directive) :
    lefts.map (Directive.toJson ∘ Directive.strip false) =
        rights.map (Directive.toJson ∘ Directive.strip false) ↔
      List.Forall₂ (Directive.Agrees Value.UpToFinite) lefts rights :=
  map_eq_iff_of_agrees lefts (fun left _ => left.toJson_eq_iff) rights

private theorem variableTrees_eq_iff (lefts rights : List VariableDefinition) :
    lefts.map (VariableDefinition.toJson ∘ VariableDefinition.strip false) =
        rights.map (VariableDefinition.toJson ∘ VariableDefinition.strip false) ↔
      List.Forall₂ (VariableDefinition.Agrees Value.UpToFinite) lefts rights :=
  map_eq_iff_of_agrees lefts (fun left _ => left.toJson_eq_iff) rights

theorem FragmentSpread.toJson_eq_iff (left right : FragmentSpread) :
    (left.strip false).toJson = (right.strip false).toJson ↔ left.Agrees Value.UpToFinite right := by
  simp [FragmentSpread.toJson, FragmentSpread.strip, FragmentSpread.Agrees, Directive.listMember,
    directiveTrees_eq_iff]

private theorem textTree_eq_iff (left right : Option String) :
    left.map Json.string = right.map Json.string ↔ left = right :=
  Option.map_inj_right fun _ _ same => Json.string.inj same

/-- Selections of two sorts have different trees, and do not agree. -/
private theorem selections_apart {left right : Selection} (apart : left.kindName ≠ right.kindName) :
    (left.strip false).toJson = (right.strip false).toJson ↔
      left.Agrees Value.UpToFinite right := by
  have sorts (selection : Selection) : ∃ members,
      (selection.strip false).toJson = .node selection.kindName members := by
    rcases selection with ⟨_, _, _, _, _ | _, _⟩ | _ | ⟨_, _, _, _⟩ <;> exact ⟨_, rfl⟩
  obtain ⟨_, tree⟩ := sorts left
  obtain ⟨_, tree'⟩ := sorts right
  refine iff_of_false (fun same => apart ?_) fun agree => apart ?_
  · rw [tree, tree'] at same
    exact (Json.node_inj.mp same).1
  · cases left <;> cases right <;> first | rfl | simp [Selection.Agrees] at agree

private theorem selections_trees_eq_iff :
    (∀ left right : Selection,
      (left.strip false).toJson = (right.strip false).toJson ↔
        left.Agrees Value.UpToFinite right) ∧
    ∀ left right : SelectionSet,
      (left.strip false).toJson = (right.strip false).toJson ↔
        left.Agrees Value.UpToFinite right := by
  refine Selection.induct ?leaf ?branch ?spread ?inlineFragment ?set
  case leaf =>
    intro responseAlias name arguments directives location right
    cases right with
    | field right =>
      obtain ⟨_, _, _, _, _ | _, _⟩ := right <;>
        simp [Selection.strip, Field.strip, Selection.toJson, Field.toJson, Selection.Agrees,
          Field.Agrees, Directive.listMember, Json.optional_append_inj, textTree_eq_iff,
          argumentTrees_eq_iff, directiveTrees_eq_iff]
    | _ => exact selections_apart (by simp [Selection.kindName])
  case branch =>
    intro responseAlias name arguments directives set location below right
    cases right with
    | field right =>
      obtain ⟨_, _, _, _, _ | _, _⟩ := right <;>
        simp [Selection.strip, Field.strip, Selection.toJson, Field.toJson, Selection.Agrees,
          Field.Agrees, Directive.listMember, Json.optional_append_inj, textTree_eq_iff,
          argumentTrees_eq_iff, directiveTrees_eq_iff, below]
    | _ => exact selections_apart (by simp [Selection.kindName])
  case spread =>
    intro spread right
    cases right with
    | fragmentSpread right =>
      simpa [Selection.strip, Selection.toJson, Selection.Agrees] using spread.toJson_eq_iff right
    | _ => exact selections_apart (by simp [Selection.kindName])
  case inlineFragment =>
    intro typeCondition directives set location below right
    cases right with
    | inlineFragment right =>
      obtain ⟨_, _, _, _⟩ := right
      simp [Selection.strip, InlineFragment.strip, Selection.toJson, InlineFragment.toJson,
        Selection.Agrees, InlineFragment.Agrees, Directive.listMember, Json.optional_append_inj,
        textTree_eq_iff, directiveTrees_eq_iff, below]
    | _ => exact selections_apart (by simp [Selection.kindName])
  case set =>
    intro selections location inside right
    obtain ⟨others, _⟩ := right
    simpa [SelectionSet.strip, SelectionSet.toJson, SelectionSet.Agrees, Function.comp_def] using
      map_eq_iff_of_agrees selections inside others

theorem SelectionSet.toJson_eq_iff (left right : SelectionSet) :
    (left.strip false).toJson = (right.strip false).toJson ↔ left.Agrees Value.UpToFinite right :=
  selections_trees_eq_iff.2 left right

theorem OperationKind.keyword_inj {left right : OperationKind} :
    left.keyword = right.keyword ↔ left = right := by
  cases left <;> cases right <;> simp [OperationKind.keyword]

theorem Operation.toJson_eq_iff (left right : Operation) :
    (left.strip false).toJson = (right.strip false).toJson ↔ left.Agrees Value.UpToFinite right := by
  simp [Operation.toJson, Operation.strip, Operation.Agrees, Directive.listMember,
    VariableDefinition.listMember, Json.optional_append_inj, OperationKind.keyword_inj,
    textTree_eq_iff, variableTrees_eq_iff, directiveTrees_eq_iff, SelectionSet.toJson_eq_iff]

theorem Fragment.toJson_eq_iff (left right : Fragment) :
    (left.strip false).toJson = (right.strip false).toJson ↔ left.Agrees Value.UpToFinite right := by
  obtain ⟨_, declared, _, _, _, _⟩ := left
  obtain ⟨_, declared', _, _, _, _⟩ := right
  -- Variables are left out when there are none; the type condition is what then comes next.
  cases declared <;> cases declared' <;>
    simp [Fragment.toJson, Fragment.strip, Fragment.Agrees, Directive.listMember,
      VariableDefinition.listMember, VariableDefinition.toJson_eq_iff, variableTrees_eq_iff,
      directiveTrees_eq_iff, SelectionSet.toJson_eq_iff]

theorem Definition.toJson_eq_iff : ∀ left right : Definition,
    (left.strip false).toJson = (right.strip false).toJson ↔ left.Agrees Value.UpToFinite right
  | .operation left, .operation right => left.toJson_eq_iff right
  | .fragment left, .fragment right => left.toJson_eq_iff right
  | .operation left, .fragment right => by
    simp [Definition.strip, Definition.toJson, Operation.toJson, Fragment.toJson, Definition.Agrees]
  | .fragment left, .operation right => by
    simp [Definition.strip, Definition.toJson, Operation.toJson, Fragment.toJson, Definition.Agrees]

/-- The trees of documents without locations are equal exactly if the documents agree up to the
signs of infinite floats. -/
theorem Document.toJson_eq_iff (left right : Document) :
    (left.strip false).toJson = (right.strip false).toJson ↔ left.Agrees Value.UpToFinite right := by
  have definitions := map_eq_iff_of_agrees left.definitions
    (fun left _ => left.toJson_eq_iff) right.definitions
  simpa [Document.toJson, Document.strip, Document.Agrees, Function.comp_def] using definitions

/-! What equals itself has no float that is not a number, so its floats are finite or infinite. -/

theorem Number.Binary64.isNaN_of_sameValue {x : Number.Binary64} (own : x.sameValue x = true) :
    x.isNaN = false := by
  by_contra unlike
  have top : x.exponent.val = 2047 := by simp_all [isNaN]
  have zero : x.magnitude = 0 := by simp_all [sameValue, isZero]
  have positive := fractions_pos
  simp only [magnitude, top] at zero
  omega

private theorem infinite_iff {x : Number.Binary64} (own : x.sameValue x = true) :
    x.isInfinite = true ↔ x.isFinite = false := by
  have number := Number.Binary64.isNaN_of_sameValue own
  simp only [Number.Binary64.isNaN, Bool.and_eq_false_iff, decide_eq_false_iff_not,
    not_not] at number
  simp only [Number.Binary64.isInfinite, Number.Binary64.isFinite, Bool.and_eq_true,
    decide_eq_true_eq, decide_eq_false_iff_not, not_not]
  exact ⟨And.left, fun top => ⟨top, number.resolve_left (not_not_intro top)⟩⟩

mutual
theorem Value.upToSign_iff {left right : Value} (own : left.same left = true)
    (own' : right.same right = true) : left.UpToFinite right ↔ left.UpToSign right := by
  cases left <;> cases right
  case float.float left right =>
    rw [Value.same] at own own'
    simp [Value.UpTo, Number.Binary64.UpToFinite, Number.Binary64.UpToSign, infinite_iff own,
      infinite_iff own']
  case list.list lefts rights =>
    rw [Value.same] at own own'
    simpa [Value.UpTo] using Value.itemsUpToSign_iff own own'
  case object.object lefts rights =>
    rw [Value.same] at own own'
    simpa [Value.UpTo] using Value.membersUpToSign_iff own own'
  all_goals simp [Value.UpTo]

theorem Value.itemsUpToSign_iff : ∀ {lefts rights : List Value},
    Value.sameItems lefts lefts = true → Value.sameItems rights rights = true →
      (Value.ItemsUpTo Number.Binary64.UpToFinite lefts rights ↔
        Value.ItemsUpTo Number.Binary64.UpToSign lefts rights)
  | [], [], _, _ | [], _ :: _, _, _ | _ :: _, [], _, _ => by simp [Value.ItemsUpTo]
  | left :: lefts, right :: rights, own, own' => by
    simp only [Value.sameItems, Bool.and_eq_true] at own own'
    simp [Value.ItemsUpTo, Value.upToSign_iff own.1 own'.1, Value.itemsUpToSign_iff own.2 own'.2]

theorem Value.membersUpToSign_iff : ∀ {lefts rights : List (String × Value)},
    Value.sameMembers lefts lefts = true → Value.sameMembers rights rights = true →
      (Value.MembersUpTo Number.Binary64.UpToFinite lefts rights ↔
        Value.MembersUpTo Number.Binary64.UpToSign lefts rights)
  | [], [], _, _ | [], _ :: _, _, _ | _ :: _, [], _, _ => by simp [Value.MembersUpTo]
  | (_, left) :: lefts, (_, right) :: rights, own, own' => by
    simp only [Value.sameMembers, Bool.and_eq_true, decide_true, true_and] at own own'
    simp [Value.MembersUpTo, Value.upToSign_iff own.1 own'.1,
      Value.membersUpToSign_iff own.2 own'.2]
end

/-! Nodes that equal themselves agree up to relations that are one on values that do. -/

section
variable {α : Type} {same : α → α → Bool} {agrees agrees' : α → α → Prop}

private theorem forall₂_congr_self {lefts rights : List α}
    (each : ∀ left ∈ lefts, ∀ right, same left left = true → same right right = true →
      (agrees left right ↔ agrees' left right))
    (own : sameList same lefts lefts = true) (own' : sameList same rights rights = true) :
    List.Forall₂ agrees lefts rights ↔ List.Forall₂ agrees' lefts rights := by
  induction lefts generalizing rights with
  | nil => cases rights <;> simp
  | cons left lefts ih =>
    obtain ⟨here, later⟩ := List.forall_mem_cons.mp each
    cases rights with
    | nil => simp
    | cons right rights =>
      simp only [sameList, Bool.and_eq_true] at own own'
      simp [here right own.1 own'.1, ih later own.2 own'.2]

end

section
variable {alike alike' : Value → Value → Prop}
  (each : ∀ {left right : Value}, left.same left = true → right.same right = true →
    (alike left right ↔ alike' left right))
include each

private theorem arguments_agree_congr {lefts rights : List Argument}
    (own : sameList Argument.same lefts lefts = true)
    (own' : sameList Argument.same rights rights = true) :
    List.Forall₂ (Argument.Agrees alike) lefts rights ↔
      List.Forall₂ (Argument.Agrees alike') lefts rights := by
  refine forall₂_congr_self (fun left _ right own own' => ?_) own own'
  simp only [Argument.same, decide_true, Bool.true_and] at own own'
  simp [Argument.Agrees, each own own']

private theorem directives_agree_congr {lefts rights : List Directive}
    (own : sameList Directive.same lefts lefts = true)
    (own' : sameList Directive.same rights rights = true) :
    List.Forall₂ (Directive.Agrees alike) lefts rights ↔
      List.Forall₂ (Directive.Agrees alike') lefts rights := by
  refine forall₂_congr_self (fun left _ right own own' => ?_) own own'
  rw [Directive.same_iff] at own own'
  simp [Directive.Agrees, arguments_agree_congr each own.2.1 own'.2.1]

private theorem variables_agree_congr {lefts rights : List VariableDefinition}
    (own : sameList VariableDefinition.same lefts lefts = true)
    (own' : sameList VariableDefinition.same rights rights = true) :
    List.Forall₂ (VariableDefinition.Agrees alike) lefts rights ↔
      List.Forall₂ (VariableDefinition.Agrees alike') lefts rights := by
  refine forall₂_congr_self (fun left _ right own own' => ?_) own own'
  obtain ⟨_, _, default?, _⟩ := left
  obtain ⟨_, _, default?', _⟩ := right
  rw [VariableDefinition.same_iff] at own own'
  cases default? <;> cases default?' <;> simp [VariableDefinition.Agrees]
  exact fun _ _ => each own.2.2.1 own'.2.2.1

private theorem selections_agree_congr :
    (∀ left right : Selection, left.same left = true → right.same right = true →
      (left.Agrees alike right ↔ left.Agrees alike' right)) ∧
    ∀ left right : SelectionSet, left.same left = true → right.same right = true →
      (left.Agrees alike right ↔ left.Agrees alike' right) := by
  refine Selection.induct ?leaf ?branch ?spread ?inlineFragment ?set
  -- The parts of what equals itself do so too; selections of two sorts agree neither way.
  case leaf =>
    intro responseAlias name arguments directives location right own own'
    rcases right with ⟨_, _, _, _, _ | _, _⟩ | _ | _ <;>
      simp only [Selection.Agrees, Field.Agrees, and_false]
    simp only [Selection.same, Field.same, decide_true, Bool.and_true, Bool.true_and,
      Bool.and_eq_true] at own own'
    rw [arguments_agree_congr each own.1 own'.1, directives_agree_congr each own.2 own'.2]
  case branch =>
    intro responseAlias name arguments directives set location below right own own'
    rcases right with ⟨_, _, _, _, _ | inner, _⟩ | _ | _ <;>
      simp only [Selection.Agrees, Field.Agrees, and_false]
    simp only [Selection.same, Field.same, decide_true, Bool.and_true, Bool.true_and,
      Bool.and_eq_true, and_assoc] at own own'
    rw [arguments_agree_congr each own.1 own'.1, directives_agree_congr each own.2.1 own'.2.1,
      below inner own.2.2 own'.2.2]
  case spread =>
    intro spread right own own'
    cases right <;> simp only [Selection.Agrees, FragmentSpread.Agrees]
    rw [Selection.same, FragmentSpread.same_iff] at own own'
    rw [directives_agree_congr each own.2.1 own'.2.1]
  case inlineFragment =>
    intro typeCondition directives set location below right own own'
    rcases right with _ | _ | ⟨_, _, inner, _⟩ <;>
      simp only [Selection.Agrees, InlineFragment.Agrees]
    simp only [Selection.same, InlineFragment.same, decide_true, Bool.and_true, Bool.true_and,
      Bool.and_eq_true] at own own'
    rw [directives_agree_congr each own.1 own'.1, below inner own.2 own'.2]
  case set =>
    intro selections location inside right own own'
    obtain ⟨others, _⟩ := right
    simp only [SelectionSet.same, Selection.sameAll_eq_sameList, decide_true,
      Bool.and_true] at own own'
    simp only [SelectionSet.Agrees, Selection.allAgree_iff]
    exact forall₂_congr_self inside own own'

private theorem definition_agrees_congr (left right : Definition) (own : left.same left = true)
    (own' : right.same right = true) : left.Agrees alike right ↔ left.Agrees alike' right := by
  cases left <;> cases right <;> simp only [Definition.Agrees]
  case operation.operation left right =>
    obtain ⟨declared, annotated, selected⟩ := Operation.same_self.mp own
    obtain ⟨declared', annotated', selected'⟩ := Operation.same_self.mp own'
    rw [Operation.Agrees, Operation.Agrees, variables_agree_congr each declared declared',
      directives_agree_congr each annotated annotated',
      (selections_agree_congr each).2 _ _ selected selected']
  case fragment.fragment left right =>
    obtain ⟨declared, annotated, selected⟩ := Fragment.same_self.mp own
    obtain ⟨declared', annotated', selected'⟩ := Fragment.same_self.mp own'
    rw [Fragment.Agrees, Fragment.Agrees, variables_agree_congr each declared declared',
      directives_agree_congr each annotated annotated',
      (selections_agree_congr each).2 _ _ selected selected']

theorem Document.agrees_congr {left right : Document} (own : left.same left = true)
    (own' : right.same right = true) : left.Agrees alike right ↔ left.Agrees alike' right := by
  simp only [Document.same, decide_true, Bool.and_true] at own own'
  exact forall₂_congr_self (fun left _ => definition_agrees_congr each left) own own'

end

/-- The trees of parsed documents without locations are equal exactly if the documents agree up to
the signs of infinite floats. -/
theorem parsed_trees_eq_iff {options options' : ParseOptions} {source source' : String}
    {left right : Document} (parsed : Document.parse options source = .ok left)
    (parsed' : Document.parse options' source' = .ok right) :
    (left.strip false).toJson = (right.strip false).toJson ↔ left.Agrees Value.UpToSign right := by
  have own : left.same left = true := by
    simpa [Document.same] using sameList_self.mpr (parsed_selfsame parsed)
  have own' : right.same right = true := by
    simpa [Document.same] using sameList_self.mpr (parsed_selfsame parsed')
  exact (left.toJson_eq_iff right).trans (Document.agrees_congr Value.upToSign_iff own own')

/-- The JSON form of a document without locations determines it, but for floats that are not finite.
A document that holds what is not a number is not even equal to itself; in documents that are, no
more than the signs of infinite floats is left open. And every object in the tree is a node that
names its kind first, no name twice and no location, or else the content of an object value. -/
theorem json_determines_document {left right : Document} (bare : left.locations = [])
    (bare' : right.locations = []) :
    (left.toJson = right.toJson ↔ left.Agrees Value.UpToFinite right) ∧
      (left.same left = true → right.same right = true →
        (left.toJson = right.toJson ↔ left.Agrees Value.UpToSign right)) ∧
      (left = right ↔ left.Agrees (· = ·) right) ∧
      ∀ members ∈ left.toJson.objects,
        Json.NodeMembers members ∨ ∃ fields, members = Value.membersToJson fields := by
  have trees := left.toJson_eq_iff right
  have documents := left.strip_eq_iff right
  have objects := left.toJson_orderly
  rw [left.strip_bare bare, right.strip_bare bare'] at trees documents
  rw [left.strip_bare bare] at objects
  exact ⟨trees, fun own own' => trees.trans (Document.agrees_congr Value.upToSign_iff own own'),
    documents, objects⟩

/-- A float in an object in a list. -/
def deepFloat (value : Number.Binary64) : Value := .list [.object [("kind", .float value)]]

/-- A query that has a value as an argument of a field below others. -/
def farArgument (value : Value) : Document :=
  let inner : Field := ⟨some "near", "within", [⟨"of", value⟩], [], none, none⟩
  let outer : Field := ⟨none, "shop", [], [],
    some ⟨[.inlineFragment ⟨some "Shop", [], ⟨[.field inner], none⟩, none⟩], none⟩, none⟩
  ⟨[.operation ⟨.query, none, [], [], ⟨[.field outer], none⟩, none⟩], none⟩

theorem farArgument_agrees_iff (alike : Value → Value → Prop) (left right : Value) :
    (farArgument left).Agrees alike (farArgument right) ↔ alike left right := by
  simp [farArgument, Document.Agrees, Definition.Agrees, Operation.Agrees, SelectionSet.Agrees,
    Selection.Agrees, Field.Agrees, InlineFragment.Agrees, Argument.Agrees]

theorem farArgument_same (value : Value) :
    (farArgument value).same (farArgument value) = value.same value := by
  simp [farArgument, Document.same, Definition.same, Operation.same, SelectionSet.same,
    Selection.same, Field.same, InlineFragment.same, Argument.same, sameList]

/-- Infinities of both signs and what is not a number have one tree. -/
theorem deep_float_sign_lost :
    let infinity (negative : Bool) := Number.Binary64.ofMagnitude negative
      Number.Binary64.infinityMagnitude
    let strange : Number.Binary64 := ⟨false, 2047, ⟨1, by decide⟩⟩
    let left := farArgument (deepFloat (infinity true))
    let right := farArgument (deepFloat (infinity false))
    let unlike := farArgument (deepFloat strange)
    (left.locations = [] ∧ left.same left = true ∧ right.locations = [] ∧ right.same right = true ∧
      left.toJson = right.toJson ∧ left ≠ right) ∧
    unlike.locations = [] ∧ unlike.same unlike = false ∧ unlike.toJson = right.toJson := by
  intro infinity strange left right unlike
  have infinite (negative : Bool) : (infinity negative).isInfinite = true := by decide +revert
  have beyond : (infinity false).isFinite = false := by decide
  have beyond' : strange.isFinite = false := by decide
  have alike (value : Number.Binary64) :
      (farArgument (deepFloat value)).same (farArgument (deepFloat value)) =
        value.sameValue value := by
    simp [farArgument_same, deepFloat, Value.same, Value.sameItems, Value.sameMembers]
  have ownLeft : left.same left = true := (alike _).trans (by decide)
  have ownRight : right.same right = true := (alike _).trans (by decide)
  have different : deepFloat (infinity true) ≠ deepFloat (infinity false) := by
    simp [deepFloat, infinity, Number.Binary64.ofMagnitude]
  obtain ⟨-, trees, documents, -⟩ := @json_determines_document left right rfl rfl
  obtain ⟨trees', -⟩ := @json_determines_document unlike right rfl rfl
  refine ⟨⟨rfl, ownLeft, rfl, ownRight, (trees ownLeft ownRight).mpr ?_, fun same => ?_⟩, rfl,
    (alike _).trans (by decide), trees'.mpr ?_⟩
  · simp [left, right, farArgument_agrees_iff, deepFloat, Value.UpTo, Value.ItemsUpTo,
      Value.MembersUpTo, Number.Binary64.UpToSign, infinite]
  · exact different ((farArgument_agrees_iff ..).mp (documents.mp same))
  · simp [unlike, right, farArgument_agrees_iff, deepFloat, Value.UpTo, Value.ItemsUpTo,
      Value.MembersUpTo, Number.Binary64.UpToFinite, beyond, beyond']

end QueryStore
