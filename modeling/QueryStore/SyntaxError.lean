import QueryStore.Token.Meaning
import QueryStore.Text.Quoted

/-! How a computation fails. It returns an error, which the caller may look at, or it panics, and
then it is unwound. The errors of parsing say why a text is no document, and are worded here. -/
namespace QueryStore

/-- How a computation comes to nothing. -/
inductive Failure (ε : Type)
  | returned (error : ε)
  | panicked
deriving DecidableEq, Repr

/-- The failure with its error, if it has one, under another name. -/
def Failure.map {ε δ : Type} (wrap : ε → δ) : Failure ε → Failure δ
  | returned error => .returned (wrap error)
  | panicked => .panicked

/-- What is said where no token can be read. -/
def LexicalError.message : LexicalError → String
  | bareDot => "bare dot '.' is not supported, only \"...\""
  | unsupportedInteger text => "unsupported integer " ++ Text.quoted text
  | unsupportedFloat text => "unsupported float " ++ Text.quoted text
  | unterminatedString => "unterminated string value"
  | unterminatedBlockString => "unterminated block string value"
  | unexpectedCharacter char => "unexpected character " ++ Text.quotedChar char
  | tooDeep => "Recursion limit exceeded"

/-- What is said about a value without a meaning. -/
def ValueError.message : ValueError → String
  | tooLarge => "number too large to fit in target type"
  | tooSmall => "number too small to fit in target type"
  | invalidFloat => "invalid float literal"
  | badEscape char => "Unexpected bad escaped char " ++ Text.quotedChar char
  | shortUnicodeEscape found =>
    "Unexpected \\u must have 4 characters after it, only found '" ++ String.ofList found ++ "'"
  | notCodePoint digits =>
    "Unexpected " ++ String.ofList digits ++ " is not a valid unicode code point"

/-- What stands in the way at a position. -/
inductive Reason
  | token (kind : TokenKind) (text : String)
  | endOfInput
  | lexical (error : LexicalError)
  | value (error : ValueError)
deriving DecidableEq, Repr

/-- What is said to stand in the way. Nesting too deep is said without further words. -/
def Reason.message : Reason → String
  | token kind text => "Unexpected `" ++ text ++ "[" ++ kind.label ++ "]`"
  | endOfInput => "Unexpected end of input"
  | lexical .tooDeep => LexicalError.tooDeep.message
  | lexical error => "Unexpected " ++ error.message
  | value error => error.message

/-- Where a text stops being a document. After complete definitions the reason is left out
when no token can be read. -/
structure Complaint where
  position : Text.Position
  reason : Option Reason
deriving DecidableEq, Repr

/-- The position on one line, and the reason on another. -/
def Complaint.message (complaint : Complaint) : String :=
  let place := s!"{complaint.position.line}:{complaint.position.column}"
  let reason := match complaint.reason with
    | none => ""
    | some reason => "\n" ++ reason.message
  "query parse error: Parse error at " ++ place ++ reason

/-- A text is faulty by itself, or in the variables of one of its fragments. -/
inductive SyntaxError
  | document (complaint : Complaint)
  | variableList (fragmentName : String) (complaint : Complaint)
  | unterminatedVariables (fragmentName : String)
deriving DecidableEq, Repr

/-- A complaint about the variables of a fragment names the fragment first. -/
def SyntaxError.message : SyntaxError → String
  | document complaint => complaint.message
  | variableList name complaint =>
    "Invalid variable definitions on fragment `" ++ name ++ "`: " ++ complaint.message
  | unterminatedVariables name => "Unterminated variable definitions on fragment `" ++ name ++ "`"

end QueryStore
