import QueryStore.Document.Basic
import QueryStore.Json

/-! The JSON form of a document. Every node is an object that names its kind first; what is
absent is left out, a location always comes last, and lists are there even when empty.
Only the variables of a fragment are left out when there are none. -/
namespace QueryStore

/-- The tree of a node of some kind. -/
def Json.node (kind : String) (members : List (String × Json)) : Json :=
  .object (("kind", .string kind) :: members)

def Location.toJson (location : Location) : Json :=
  .object [("start", .integer location.start), ("end", .integer location.stop)]

/-- The last member of a node: its location, where it has one. -/
def Location.member (location : Option Location) : List (String × Json) :=
  Json.optional "loc" (location.map Location.toJson)

def TypeReference.toJson : TypeReference → Json
  | named name => .node "NamedType" [("type", .string name)]
  | list item => .node "ListType" [("type", item.toJson)]
  | nonNull type => .node "NonNullType" [("type", type.toJson)]

mutual
/-- A float that is not finite has no JSON number and is null. -/
def Value.toJson : Value → Json
  | .boolean value => .node "BooleanValue" [("value", .boolean value)]
  | .enum name => .node "EnumValue" [("value", .string name)]
  | .float value =>
    .node "FloatValue" [("value", if value.isFinite then .float value else .null)]
  | .int value => .node "IntValue" [("value", .integer value)]
  | .list items => .node "ListValue" [("value", .array (Value.itemsToJson items))]
  | .null => .node "NullValue" []
  | .object members => .node "ObjectValue" [("value", .object (Value.membersToJson members))]
  | .string text => .node "StringValue" [("value", .string text)]
  | .var name => .node "Variable" [("value", .string name)]

def Value.itemsToJson : List Value → List Json
  | [] => []
  | item :: rest => item.toJson :: Value.itemsToJson rest

def Value.membersToJson : List (String × Value) → List (String × Json)
  | [] => []
  | (name, value) :: rest => (name, value.toJson) :: Value.membersToJson rest
end

def Argument.toJson (argument : Argument) : Json :=
  .node "Argument" [("name", .string argument.name), ("value", argument.value.toJson)]

def Directive.toJson (directive : Directive) : Json :=
  .node "Directive" <|
    [("name", .string directive.name),
      ("arguments", .array (directive.arguments.map Argument.toJson))]
    ++ Location.member directive.location

def VariableDefinition.toJson (definition : VariableDefinition) : Json :=
  .node "VariableDefinition" <|
    [("name", .string definition.name), ("var_type", definition.type.toJson)]
    ++ Json.optional "default_value" (definition.defaultValue.map Value.toJson)
    ++ Location.member definition.location

/-- The members that directives and the like are listed under. -/
def Directive.listMember (directives : List Directive) : String × Json :=
  ("directives", .array (directives.map Directive.toJson))

def VariableDefinition.listMember (definitions : List VariableDefinition) : String × Json :=
  ("variable_definitions", .array (definitions.map VariableDefinition.toJson))

def FragmentSpread.toJson (spread : FragmentSpread) : Json :=
  .node "FragmentSpread" <|
    [("fragment_name", .string spread.fragmentName), Directive.listMember spread.directives]
    ++ Location.member spread.location

mutual
def Field.toJson : Field → Json
  | ⟨responseAlias, name, arguments, directives, set, location⟩ =>
    .node "Field" <|
      Json.optional "alias" (responseAlias.map .string)
      ++ [("name", .string name), ("arguments", .array (arguments.map Argument.toJson)),
        Directive.listMember directives]
      ++ (match set with
        | none => []
        | some set => [("selection_set", set.toJson)])
      ++ Location.member location

def InlineFragment.toJson : InlineFragment → Json
  | ⟨typeCondition, directives, set, location⟩ =>
    .node "InlineFragment" <|
      Json.optional "type_condition" (typeCondition.map .string)
      ++ [Directive.listMember directives, ("selection_set", set.toJson)]
      ++ Location.member location

def Selection.toJson : Selection → Json
  | .field field => field.toJson
  | .fragmentSpread spread => spread.toJson
  | .inlineFragment fragment => fragment.toJson

def SelectionSet.toJson : SelectionSet → Json
  | ⟨selections, location⟩ =>
    .node "SelectionSet" <|
      ("selections", .array (Selection.listToJson selections)) :: Location.member location

def Selection.listToJson : List Selection → List Json
  | [] => []
  | selection :: rest => selection.toJson :: Selection.listToJson rest
end

@[simp] theorem Selection.listToJson_eq_map (selections : List Selection) :
    Selection.listToJson selections = selections.map Selection.toJson := by
  induction selections with
  | nil => rfl
  | cons selection rest ih => simp [Selection.listToJson, ih]

def Operation.toJson (operation : Operation) : Json :=
  .node "OperationDefinition" <|
    [("operation", .string operation.kind.keyword)]
    ++ Json.optional "name" (operation.name.map .string)
    ++ [VariableDefinition.listMember operation.variableDefinitions,
      Directive.listMember operation.directives,
      ("selection_set", operation.selectionSet.toJson)]
    ++ Location.member operation.location

def Fragment.toJson (fragment : Fragment) : Json :=
  .node "FragmentDefinition" <|
    [("name", .string fragment.name)]
    ++ (if fragment.variableDefinitions.isEmpty then []
      else [VariableDefinition.listMember fragment.variableDefinitions])
    ++ [("type_condition", .string fragment.typeCondition),
      Directive.listMember fragment.directives,
      ("selection_set", fragment.selectionSet.toJson)]
    ++ Location.member fragment.location

def Definition.toJson : Definition → Json
  | .operation node => node.toJson
  | .fragment node => node.toJson

def Document.toJson (document : Document) : Json :=
  .node "Document" <|
    ("definitions", .array (document.definitions.map Definition.toJson))
      :: Location.member document.location

end QueryStore
