import QueryStore.Document.Json
import QueryStore.Document.Strip

/-! The objects in the JSON form of a document. Only nodes and object values are written as
objects: that of a node names its kind first, as a text, and the content of an object value has
nodes as its members. So no object is both, and what holds of the objects of nodes is settled where
each node is written (`Json.orderly_node`), one type of node after the other. -/
namespace QueryStore

namespace Json

mutual
/-- The members of every object in a tree, those of an object before those of objects in it. -/
def objects : Json → List (List (String × Json))
  | .array items => itemsObjects items
  | .object members => members :: membersObjects members
  | _ => []

/-- The members of every object in items. -/
def itemsObjects : List Json → List (List (String × Json))
  | [] => []
  | item :: rest => item.objects ++ itemsObjects rest

/-- The members of every object in the values of members. -/
def membersObjects : List (String × Json) → List (List (String × Json))
  | [] => []
  | (_, value) :: rest => value.objects ++ membersObjects rest
end

theorem itemsObjects_eq (items : List Json) : itemsObjects items = items.flatMap objects := by
  induction items with
  | nil => rfl
  | cons item rest ih => rw [itemsObjects, ih, List.flatMap_cons]

theorem membersObjects_eq (members : List (String × Json)) :
    membersObjects members = members.flatMap fun member => member.2.objects := by
  induction members with
  | nil => rfl
  | cons member rest ih => rw [membersObjects, ih, List.flatMap_cons]

/-- The members of a node without a location: a kind first, and each name once. -/
structure NodeMembers (members : List (String × Json)) : Prop where
  kind : ∃ kind rest, members = ("kind", .string kind) :: rest
  distinct : (members.map Prod.fst).Nodup
  bare : "loc" ∉ members.map Prod.fst

/-- Every object in a tree is a node without a location, or the content of an object value. -/
def Orderly (tree : Json) : Prop :=
  ∀ members ∈ tree.objects, NodeMembers members ∨ ∃ fields, members = Value.membersToJson fields

@[simp] theorem orderly_null : Orderly null := by
  simp [Orderly, objects]

@[simp] theorem orderly_boolean (value : Bool) : (boolean value).Orderly := by
  simp [Orderly, objects]

@[simp] theorem orderly_integer (value : Int) : (integer value).Orderly := by
  simp [Orderly, objects]

@[simp] theorem orderly_float (value : Number.Binary64) : (float value).Orderly := by
  simp [Orderly, objects]

@[simp] theorem orderly_string (value : String) : (string value).Orderly := by
  simp [Orderly, objects]

@[simp] theorem orderly_array (items : List Json) :
    (array items).Orderly ↔ ∀ item ∈ items, item.Orderly := by
  simp only [Orderly, objects, itemsObjects_eq, List.mem_flatMap]
  exact ⟨fun all item member inner found => all inner ⟨item, member, found⟩,
    fun all inner ⟨item, member, found⟩ => all item member inner found⟩

private theorem orderly_object (members : List (String × Json)) :
    (object members).Orderly ↔
      (NodeMembers members ∨ ∃ fields, members = Value.membersToJson fields) ∧
        ∀ member ∈ members, member.2.Orderly := by
  simp only [Orderly, objects, membersObjects_eq, List.mem_cons, List.mem_flatMap]
  constructor
  · intro all
    exact ⟨all members (.inl rfl),
      fun member found inner inside => all inner (.inr ⟨member, found, inside⟩)⟩
  · rintro ⟨here, below⟩ inner (rfl | ⟨member, found, inside⟩)
    · exact here
    · exact below member found inner inside

/-- A value is written as an object, so a text is not among the members of an object value. -/
theorem text_not_content {name text : String} {rest : List (String × Json)}
    {fields : List (String × Value)} :
    (name, string text) :: rest ≠ Value.membersToJson fields := by
  intro same
  cases fields with
  | nil => cases same
  | cons field fields =>
    obtain ⟨_, value⟩ := field
    cases value <;> simp [Value.membersToJson, Value.toJson, node] at same

@[simp] theorem orderly_node (kind : String) (members : List (String × Json)) :
    (node kind members).Orderly ↔
      "kind" ∉ members.map Prod.fst ∧ (members.map Prod.fst).Nodup ∧
        "loc" ∉ members.map Prod.fst ∧ ∀ member ∈ members, member.2.Orderly := by
  have named : NodeMembers (("kind", string kind) :: members) ↔
      "kind" ∉ members.map Prod.fst ∧ (members.map Prod.fst).Nodup ∧
        "loc" ∉ members.map Prod.fst := by
    constructor
    · rintro ⟨-, distinct, bare⟩
      rw [List.map_cons, List.nodup_cons] at distinct
      exact ⟨distinct.1, distinct.2, fun found => bare (List.mem_cons_of_mem _ found)⟩
    · rintro ⟨once, distinct, bare⟩
      exact ⟨⟨kind, members, rfl⟩, List.nodup_cons.mpr ⟨once, distinct⟩, by simpa using bare⟩
  simp [node, orderly_object, named, text_not_content, and_assoc]

theorem orderly_content {fields : List (String × Value)}
    (each : ∀ member ∈ Value.membersToJson fields, member.2.Orderly) :
    (object (Value.membersToJson fields)).Orderly :=
  (orderly_object _).mpr ⟨.inr ⟨fields, rfl⟩, each⟩

end Json

@[simp] theorem Location.member_none : Location.member none = [] := rfl

theorem TypeReference.toJson_orderly (type : TypeReference) : type.toJson.Orderly := by
  induction type with
  | named name => simp [TypeReference.toJson]
  | list item ih => simpa [TypeReference.toJson] using ih
  | nonNull type ih => simpa [TypeReference.toJson] using ih

mutual
theorem Value.toJson_orderly : ∀ value : Value, value.toJson.Orderly
  | .boolean _ | .enum _ | .int _ | .null | .string _ | .var _ => by simp [Value.toJson]
  | .float value => by
    by_cases finite : value.isFinite = true <;> simp [Value.toJson, finite]
  | .list items => by simpa [Value.toJson] using Value.itemsToJson_orderly items
  | .object fields => by
    simpa [Value.toJson] using Json.orderly_content (Value.membersToJson_orderly fields)

theorem Value.itemsToJson_orderly : ∀ items : List Value,
    ∀ item ∈ Value.itemsToJson items, item.Orderly
  | [] => by simp [Value.itemsToJson]
  | item :: rest =>
    List.forall_mem_cons.mpr ⟨item.toJson_orderly, Value.itemsToJson_orderly rest⟩

theorem Value.membersToJson_orderly : ∀ fields : List (String × Value),
    ∀ member ∈ Value.membersToJson fields, member.2.Orderly
  | [] => by simp [Value.membersToJson]
  | (_, value) :: rest =>
    List.forall_mem_cons.mpr ⟨value.toJson_orderly, Value.membersToJson_orderly rest⟩
end

theorem Argument.toJson_orderly (argument : Argument) : argument.toJson.Orderly := by
  simp [Argument.toJson, Value.toJson_orderly]

theorem Directive.toJson_orderly (directive : Directive) :
    (directive.strip false).toJson.Orderly := by
  simp [Directive.toJson, Directive.strip, Argument.toJson_orderly]

theorem VariableDefinition.toJson_orderly (definition : VariableDefinition) :
    (definition.strip false).toJson.Orderly := by
  obtain ⟨_, _, default?, _⟩ := definition
  cases default? <;>
    simp [VariableDefinition.toJson, VariableDefinition.strip, Json.optional,
      TypeReference.toJson_orderly, Value.toJson_orderly]

theorem FragmentSpread.toJson_orderly (spread : FragmentSpread) :
    (spread.strip false).toJson.Orderly := by
  simp [FragmentSpread.toJson, FragmentSpread.strip, Directive.listMember,
    Directive.toJson_orderly]

private theorem selections_orderly :
    (∀ selection : Selection, (selection.strip false).toJson.Orderly) ∧
    ∀ set : SelectionSet, (set.strip false).toJson.Orderly := by
  refine Selection.induct ?leaf ?branch ?spread ?inlineFragment ?set
  case leaf =>
    intro responseAlias name arguments directives location
    cases responseAlias <;>
      simp [Selection.strip, Selection.toJson, Field.toJson, Field.strip, Directive.listMember,
        Json.optional, Argument.toJson_orderly, Directive.toJson_orderly]
  case branch =>
    intro responseAlias name arguments directives set location below
    cases responseAlias <;>
      simp [Selection.strip, Selection.toJson, Field.toJson, Field.strip, Directive.listMember,
        Json.optional, Argument.toJson_orderly, Directive.toJson_orderly, below]
  case spread => exact FragmentSpread.toJson_orderly
  case inlineFragment =>
    intro typeCondition directives set location below
    cases typeCondition <;>
      simp [Selection.strip, Selection.toJson, InlineFragment.toJson, InlineFragment.strip,
        Directive.listMember, Json.optional, Directive.toJson_orderly, below]
  case set =>
    intro selections location inside
    simpa [SelectionSet.toJson, SelectionSet.strip] using inside

theorem SelectionSet.toJson_orderly (set : SelectionSet) : (set.strip false).toJson.Orderly :=
  selections_orderly.2 set

theorem Operation.toJson_orderly (operation : Operation) :
    (operation.strip false).toJson.Orderly := by
  obtain ⟨_, name?, _, _, _, _⟩ := operation
  cases name? <;>
    simp [Operation.toJson, Operation.strip, VariableDefinition.listMember, Directive.listMember,
      Json.optional, VariableDefinition.toJson_orderly, Directive.toJson_orderly,
      SelectionSet.toJson_orderly]

theorem Fragment.toJson_orderly (fragment : Fragment) :
    (fragment.strip false).toJson.Orderly := by
  obtain ⟨_, declared, _, _, _, _⟩ := fragment
  cases declared <;>
    simp [Fragment.toJson, Fragment.strip, VariableDefinition.listMember, Directive.listMember,
      VariableDefinition.toJson_orderly, Directive.toJson_orderly, SelectionSet.toJson_orderly]

theorem Definition.toJson_orderly : ∀ definition : Definition,
    (definition.strip false).toJson.Orderly
  | .operation node => node.toJson_orderly
  | .fragment node => node.toJson_orderly

/-- Of a document without locations, every object is a node that names its kind first, no name
twice and no location, or the content of an object value. -/
theorem Document.toJson_orderly (document : Document) :
    (document.strip false).toJson.Orderly := by
  simp [Document.toJson, Document.strip, Definition.toJson_orderly]

end QueryStore
