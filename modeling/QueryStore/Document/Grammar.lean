import QueryStore.Document.Basic
import QueryStore.Token.Reader

/-! The grammar of the query language, read with one token of look-ahead. Any name may
serve as a name, keywords included, and `on` after three dots always begins a type
condition. The `fuel` of a reader bounds how deep and how far it goes; the number of tokens
plus one is always enough. -/
namespace QueryStore

/-- How nodes are given locations: from the token they begin with, or the three dots and the
token after them, through the brace that closes their selections. -/
structure Locator where
  node : Token → Token → Option Location
  inlineFragment : Token → Token → Token → Option Location

/-- Gives no locations. -/
def Locator.none : Locator := ⟨fun _ _ => .none, fun _ _ _ => .none⟩

namespace Grammar
open Reader

/-- The value that a single token stands for. Words with a meaning of their own are not enum
names. -/
def wordValue (text : String) : Value :=
  if text = "true" then .boolean true
  else if text = "false" then .boolean false
  else if text = "null" then .null
  else .enum text

/-- The value of a block string that was read; its indent may be broken. -/
def blockString (token : Token) : Reader Value := fun tokens =>
  match blockStringValue token.text.toList with
  | some text => .ok (.string text, tokens)
  | none => .error (.brokenIndent token)

/-- A name, a colon, and what belongs to the name. -/
def named {α : Type} (reader : Reader α) : Reader (String × α) := do
  let name ← name
  let _ ← punctuator ":"
  return (name.text, ← reader)

/-- The last of several members of one name counts. -/
def objectOf (members : List (String × Value)) : Value :=
  .object (members.foldl (fun sorted member => Value.insertMember member.1 member.2 sorted) [])

/-- A value; a default value may contain no variable, at any depth. -/
def value (withVariables : Bool) : Nat → Reader Value
  | 0 => refuse
  | fuel + 1 => do
    match ← peek with
    | none => refuse
    | some token =>
      match token.kind with
      | .name => advance; return wordValue token.text
      | .intValue => advance; return .int (← convert token (intValue token.text.toList))
      | .floatValue => advance; return .float (← convert token (floatValue token.text.toList))
      | .stringValue => advance; return .string (← convert token (stringValue token.text.toList))
      | .blockString => advance; blockString token
      | .punctuator =>
        if token.text = "[" then
          advance
          let (items, _) ← untilClosing "]" (value withVariables fuel) fuel
          return .list items
        else if token.text = "\x7b" then
          advance
          let (members, _) ← untilClosing "\x7d" (named (value withVariables fuel)) fuel
          return objectOf members
        else if token.text = "$" && withVariables then
          advance
          return .var (← name).text
        else refuse

/-- A type; an exclamation mark after it excludes null. -/
def typeReference : Nat → Reader TypeReference
  | 0 => refuse
  | fuel + 1 => do
    let type ←
      if ← skip? "[" then
        let item ← typeReference fuel
        let _ ← punctuator "]"
        pure (.list item)
      else pure (.named (← name).text)
    return if ← skip? "!" then .nonNull type else type

/-- A name and a value, in which variables may stand. -/
def argument (fuel : Nat) : Reader Argument := do
  let (name, value) ← named (value true fuel)
  return ⟨name, value⟩

/-- Arguments in parentheses, of which there is at least one, or nothing. -/
def arguments (fuel : Nat) : Reader (List Argument) := do
  if ← skip? "(" then return (← someUntilClosing ")" (argument fuel) fuel).1 else return []

/-- A name after an at sign, and perhaps arguments. -/
def directive (fuel : Nat) : Reader Directive := do
  let _ ← punctuator "@"
  let name ← name
  return ⟨name.text, ← arguments fuel, none⟩

/-- Directives in a row, or none. -/
def directives (fuel : Nat) : Reader (List Directive) :=
  whileNext (Token.isPunctuator "@") (directive fuel) fuel

/-- A variable with its type, and perhaps a default value. -/
def variableDefinition (fuel : Nat) : Reader VariableDefinition := do
  let _ ← punctuator "$"
  let (name, type) ← named (typeReference fuel)
  let defaultValue ← if ← skip? "=" then some <$> value false fuel else pure none
  return ⟨name, type, defaultValue, none⟩

/-- Variables in parentheses, of which there is at least one, or nothing. -/
def variableDefinitions (fuel : Nat) : Reader (List VariableDefinition) := do
  if ← skip? "(" then return (← someUntilClosing ")" (variableDefinition fuel) fuel).1
  else return []

/-- A field, given a reader for the selections below it. A field is located only if it has
some, from its alias or name on. -/
def field (locator : Locator) (fuel : Nat) (selectionSet : Reader (SelectionSet × Token)) :
    Reader Selection := do
  let first ← name
  let second ← if ← skip? ":" then some <$> name else pure none
  let arguments ← arguments fuel
  let directives ← directives fuel
  let below ← Reader.when (Token.isPunctuator "\x7b") selectionSet
  let responseAlias := second.map fun _ => first.text
  let fieldName := (second.getD first).text
  return .field ⟨responseAlias, fieldName, arguments, directives, below.map Prod.fst,
    below.bind fun read => locator.node first read.2⟩

/-- What three dots begin: an inline fragment, with or without a type condition, or else the
spread of a named fragment. -/
def spread (locator : Locator) (fuel : Nat) (selectionSet : Reader (SelectionSet × Token)) :
    Reader Selection := do
  let dots ← punctuator "..."
  match ← peek with
  | none => refuse
  | some following =>
    if following.isName && following.text ≠ "on" then
      advance
      return .fragmentSpread ⟨following.text, ← directives fuel, none⟩
    else
      let condition ← Reader.when Token.isName (do advance; name)
      let directives ← directives fuel
      let (set, closing) ← selectionSet
      return .inlineFragment ⟨condition.map Token.text, directives, set,
        locator.inlineFragment dots following closing⟩

/-- A selection: three dots begin a fragment, and else it is a field. -/
def selection (locator : Locator) (fuel : Nat) (selectionSet : Reader (SelectionSet × Token)) :
    Reader Selection := do
  if ← nextIs (Token.isPunctuator "...") then spread locator fuel selectionSet
  else field locator fuel selectionSet

/-- A set of selections, of which there is at least one, and the brace that closes it. -/
def selectionSet (locator : Locator) : Nat → Reader (SelectionSet × Token)
  | 0 => refuse
  | fuel + 1 => do
    let opening ← punctuator "\x7b"
    let (selections, closing) ←
      someUntilClosing "\x7d" (selection locator fuel (selectionSet locator fuel)) fuel
    return (⟨selections, locator.node opening closing⟩, closing)

/-- The kind of operation that a keyword begins. -/
def operationKind? (text : String) : Option OperationKind :=
  if text = "query" then some .query
  else if text = "mutation" then some .mutation
  else if text = "subscription" then some .subscription
  else none

/-- An operation after its keyword. -/
def operation (locator : Locator) (fuel : Nat) (keyword : Token) (kind : OperationKind) :
    Reader Operation := do
  let operationName ← Reader.when Token.isName name
  let variableDefinitions ← variableDefinitions fuel
  let directives ← directives fuel
  let (set, closing) ← selectionSet locator fuel
  return ⟨kind, operationName.map Token.text, variableDefinitions, directives, set,
    locator.node keyword closing⟩

/-- A fragment after its keyword. -/
def fragment (locator : Locator) (fuel : Nat) (keyword : Token) : Reader Fragment := do
  let fragmentName ← name
  let _ ← word "on"
  let condition ← name
  let directives ← directives fuel
  let (set, closing) ← selectionSet locator fuel
  return ⟨fragmentName.text, [], condition.text, directives, set, locator.node keyword closing⟩

/-- A query without its keyword: selections and nothing else. -/
def shorthand (locator : Locator) (fuel : Nat) : Reader Operation := do
  let (set, _) ← selectionSet locator fuel
  return ⟨.query, none, [], [], set, set.location⟩

/-- A definition: a brace, or the keyword of an operation or of a fragment, begins it. -/
def definition (locator : Locator) (fuel : Nat) : Reader Definition := do
  match ← peek with
  | none => refuse
  | some token =>
    if token.isPunctuator "\x7b" then return .operation (← shorthand locator fuel)
    else if token.isWord "fragment" then
      advance
      return .fragment (← fragment locator fuel token)
    else
      match if token.isName then operationKind? token.text else none with
      | none => refuse
      | some kind =>
        advance
        return .operation (← operation locator fuel token kind)

/-- Definitions, of which there is at least one, up to the end of the tokens. -/
def definitions (locator : Locator) (size : Nat) : Nat → Reader (List Definition)
  | 0 => refuse
  | fuel + 1 => do
    let first ← definition locator size
    match ← peek with
    | none => return [first]
    | some _ => return first :: (← definitions locator size fuel)

/-- Reads all tokens as definitions. -/
def readAll (locator : Locator) (tokens : List Token) : Except Refusal (List Definition) :=
  let fuel := tokens.length + 1
  (definitions locator fuel fuel tokens).map Prod.fst

end Grammar
end QueryStore
