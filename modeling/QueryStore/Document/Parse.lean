import QueryStore.Document.Grammar
import QueryStore.Text.Words
import QueryStore.Fragment.Variables
import QueryStore.SyntaxError
import QueryStore.Document.Node

/-! Parsing a text into a document. A node ends one byte after its closing brace begins, but never
after the text; `Locator.ofPositions` finds the offset of a token from its line and column,
`Locator.exact` takes the offset that the token knows. With fragment variables enabled, their
lists are parsed apart, each as the variables of a query, and given to the fragments that begin at
their keywords; the document itself is parsed from the text in which the lists are blank. A session
may use any parser: the standard one parses documents, the others change what it finds, and
`selections` ignores the text altogether. -/
namespace QueryStore

/-- The part of a text from an offset through the brace at another. -/
def Location.through (source : String) (length start brace : Nat) : Location :=
  ⟨start, min (brace + 1) length, some source⟩

/-- The byte offset of a token by its line and column. -/
def Token.offsetByPosition (text : List Char) (token : Token) : Nat :=
  token.place.position.offset text

/-- Where three dots stand that only insignificant characters separate from an offset; the
offset itself if there are none. -/
def dotsBefore (text : List Char) (offset : Nat) : Nat :=
  match ((Text.takeBytes offset text).getD []).reverse.dropWhile Text.isInsignificant with
  | '.' :: '.' :: '.' :: before => Text.byteLength before
  | _ => offset

/-- Locates nodes by the lines and columns of their tokens. An inline fragment begins at the
three dots looked for in front of the token after them. -/
def Locator.ofPositions (source : String) : Locator :=
  let text := source.toList
  let length := Text.byteLength text
  let offset := Token.offsetByPosition text
  { node := fun first closing => some (.through source length (offset first) (offset closing))
    inlineFragment := fun _ following closing =>
      some (.through source length (dotsBefore text (offset following)) (offset closing)) }

/-- Locates nodes by the byte offsets of their tokens. -/
def Locator.exact (source : String) : Locator :=
  let length := Text.byteLength source.toList
  { node := fun first closing =>
      some (.through source length first.place.offset closing.place.offset)
    inlineFragment := fun dots _ closing =>
      some (.through source length dots.place.offset closing.place.offset) }

/-- What is wrong where the tokens ended too early. -/
def TokenStream.complaint (stream : TokenStream) : Complaint :=
  match stream.ending with
  | .endOfInput => ⟨stream.stopped, some .endOfInput⟩
  | .failure error => ⟨stream.stopped, some (.lexical error)⟩

/-- A refusal as a failure. Where the common indent of a block string ends inside a character, the
value is cut there, and that is a panic. -/
def TokenStream.explain (stream : TokenStream) : Refusal → Failure Complaint
  | .token token => .returned ⟨token.place.position, some (.token token.kind token.text)⟩
  | .exhausted => .returned stream.complaint
  | .value token error => .returned ⟨token.place.position, some (.value error)⟩
  | .brokenIndent _ => .panicked

/-- Reads a whole text as definitions. If the tokens end early after complete definitions,
no reason is given. -/
def readDefinitions (locator : Locator) (text : List Char) :
    Except (Failure Complaint) (List Definition) :=
  let stream := TokenStream.ofText text
  match Grammar.readAll locator stream.tokens with
  | .error refusal => .error (stream.explain refusal)
  | .ok definitions =>
    match stream.ending with
    | .endOfInput => .ok definitions
    | .failure _ => .error (.returned ⟨stream.stopped, none⟩)

/-- Whether fragments may have variables. -/
structure ParseOptions where
  fragmentVariables : Bool
deriving DecidableEq, Repr

/-- Variables of fragments by the byte offset of the fragment's keyword. -/
abbrev VariableTable : Type := List (Nat × List VariableDefinition)

/-- A list of variables as a query of its own. -/
def VariableList.asQuery (list : VariableList) : List Char :=
  "query FragmentVariables".toList ++ list.text ++ " \x7b __typename \x7d".toList

/-- The variables of the first operation. -/
def firstVariables (definitions : List Definition) : List VariableDefinition :=
  match definitions.findSome? Definition.asOperation with
  | none => []
  | some operation => operation.variableDefinitions

/-- Parses a list of variables. -/
def VariableList.parse (list : VariableList) :
    Except (Failure SyntaxError) (Nat × List VariableDefinition) :=
  match readDefinitions .none list.asQuery with
  | .error failure => .error (failure.map (.variableList list.fragmentName))
  | .ok definitions => .ok (list.keywordOffset, firstVariables definitions)

/-- Gives every fragment the variables listed for the offset at which it begins; a list is
given once. -/
def attachVariables (table : VariableTable) : List Definition → List Definition
  | [] => []
  | .operation operation :: rest => .operation operation :: attachVariables table rest
  | .fragment fragment :: rest =>
    match fragment.location.bind fun location => table.lookup location.start with
    | none => .fragment fragment :: attachVariables table rest
    | some definitions =>
      let unused := table.filter fun entry => some entry.1 ≠ fragment.location.map (·.start)
      .fragment { fragment with variableDefinitions := definitions } :: attachVariables unused rest

/-- The text to read as a document, and the variables that were taken out of it. -/
def separateVariables (text : List Char) :
    Except (Failure SyntaxError) (List Char × VariableTable) :=
  match pieces text with
  | .error name => .error (.returned (.unterminatedVariables name))
  | .ok pieces => do
    let table ← (variableLists pieces).mapM VariableList.parse
    return (blankedText pieces, table)

/-- Parses a text. Locations point into the text itself, also where lists of variables were
blanked out of it, and the document is located from its beginning to its end. -/
def Document.parse (options : ParseOptions) (source : String) :
    Except (Failure SyntaxError) Document := do
  let text := source.toList
  let (text, table) ← if options.fragmentVariables then separateVariables text else pure (text, [])
  match readDefinitions (.ofPositions source) text with
  | .error failure => .error (failure.map .document)
  | .ok definitions =>
    return ⟨attachVariables table definitions,
      some ⟨0, Text.byteLength source.toList, some source⟩⟩

/-- A parser depends on the options and the text alone. It may produce any node, return a syntax
error, or panic. -/
abbrev Parser : Type := ParseOptions → String → Except (Failure SyntaxError) Node

namespace Parser

/-- Parses documents, locations and all. -/
def standard : Parser := fun options source => (Document.parse options source).map .document

/-- Changes every document that the standard parser finds. -/
def altering (change : String → Document → Node) : Parser := fun options source =>
  (Document.parse options source).map (change source)

/-- Changes the locations of fragments, given the text. -/
def relocatingFragments (change : String → Option Location → Option Location) : Parser :=
  altering fun source document =>
    let relocate : Definition → Definition
      | .operation operation => .operation operation
      | .fragment fragment =>
        .fragment { fragment with location := change source fragment.location }
    .document { document with definitions := document.definitions.map relocate }

/-- Removes all locations. -/
def withoutLocations : Parser := altering fun _ document => .document (document.strip false)

/-- Detaches the locations of fragments from the text. -/
def detachingFragments : Parser := relocatingFragments fun _ => Option.map Location.detach

/-- Locates every fragment at the given offsets. -/
def placingFragments (start stop : Nat) : Parser :=
  relocatingFragments fun source _ => some ⟨start, stop, some source⟩

/-- Locates the document at the given offsets. -/
def placingRoot (start stop : Nat) : Parser :=
  altering fun source document =>
    .document { document with location := some ⟨start, stop, some source⟩ }

/-- Produces a single definition, counted in a circle, instead of the document. -/
def single (index : Nat) : Parser :=
  altering fun _ document =>
    match document.definitions[index % document.definitions.length]? with
    | some definition => .definition definition
    | none => .document document

/-- Produces an empty set of selections, whatever the text. -/
def selections : Parser := fun _ _ => .ok (.selectionSet ⟨[], none⟩)

end Parser
end QueryStore
