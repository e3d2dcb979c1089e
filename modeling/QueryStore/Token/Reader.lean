import QueryStore.Token.Meaning

/-! Readers consume tokens from the front of a list and never go back. A reader that cannot
go on refuses the next token, or the end of the list. -/
namespace QueryStore

/-- Why a reader stopped: at a token it cannot use, at the end of the tokens, at a value
without a meaning, or at a block string whose indent ends inside a character. -/
inductive Refusal
  | token (token : Token)
  | exhausted
  | value (token : Token) (error : ValueError)
  | brokenIndent (token : Token)
deriving DecidableEq, Repr

/-- Takes tokens off a list and comes to a result, or refuses. -/
abbrev Reader (α : Type) : Type := StateT (List Token) (Except Refusal) α

namespace Reader
variable {α : Type}

/-- The next token, which stays. -/
def peek : Reader (Option Token) := fun tokens => .ok (tokens.head?, tokens)

/-- Goes past the next token. -/
def advance : Reader Unit := fun tokens => .ok ((), tokens.tail)

/-- Stops at the next token. -/
def refuse : Reader α := fun tokens =>
  match tokens with
  | [] => .error .exhausted
  | token :: _ => .error (.token token)

/-- Reads a token that passes the test. -/
def satisfying (test : Token → Bool) : Reader Token := fun tokens =>
  match tokens with
  | [] => .error .exhausted
  | token :: rest => if test token then .ok (token, rest) else .error (.token token)

end Reader

/-- Whether a token is the given punctuator. -/
def Token.isPunctuator (text : String) (token : Token) : Bool :=
  token.kind = .punctuator && token.text = text

/-- Whether a token is a name. -/
def Token.isName (token : Token) : Bool := token.kind = .name

/-- Whether a token is the given name. -/
def Token.isWord (text : String) (token : Token) : Bool :=
  token.kind = .name && token.text = text

namespace Reader
variable {α : Type}

/-- Reads the given punctuator. -/
def punctuator (text : String) : Reader Token := satisfying (Token.isPunctuator text)

/-- Reads any name. -/
def name : Reader Token := satisfying Token.isName

/-- Reads the given name. -/
def word (text : String) : Reader Token := satisfying (Token.isWord text)

/-- Whether the next token passes the test. -/
def nextIs (test : Token → Bool) : Reader Bool := fun tokens => .ok (tokens.head?.any test, tokens)

/-- Goes past the given punctuator if it comes next, and says whether it did. -/
def skip? (text : String) : Reader Bool := do
  let found ← nextIs (Token.isPunctuator text)
  if found then advance
  return found

/-- Reads with `reader` if the next token passes the test. -/
def when (test : Token → Bool) (reader : Reader α) : Reader (Option α) := do
  if ← nextIs test then return some (← reader) else return none

/-- Reads items as long as the next token passes the test. -/
def whileNext (test : Token → Bool) (item : Reader α) : Nat → Reader (List α)
  | 0 => refuse
  | fuel + 1 => do
    if ← nextIs test then
      let first ← item
      return first :: (← whileNext test item fuel)
    else return []

/-- Reads items up to the closing punctuator, and that punctuator. -/
def untilClosing (closing : String) (item : Reader α) : Nat → Reader (List α × Token)
  | 0 => refuse
  | fuel + 1 => do
    if ← nextIs (Token.isPunctuator closing) then return ([], ← punctuator closing)
    else
      let first ← item
      let (others, last) ← untilClosing closing item fuel
      return (first :: others, last)

/-- Reads at least one item up to the closing punctuator, and that punctuator. -/
def someUntilClosing (closing : String) (item : Reader α) (fuel : Nat) :
    Reader (List α × Token) := do
  let first ← item
  let (others, last) ← untilClosing closing item fuel
  return (first :: others, last)

/-- Turns a token into a value, or stops at it. -/
def convert (token : Token) (result : Except ValueError α) : Reader α := fun tokens =>
  match result with
  | .ok value => .ok (value, tokens)
  | .error error => .error (.value token error)

end Reader
end QueryStore
