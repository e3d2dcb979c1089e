import QueryStore.Proofs.Document.Derivation

/-! Parentheses, square brackets and braces among tokens. Whatever the grammar reads below the top
of a document is balanced in them (`Levels`); arguments and variables stand in parentheses of their
own (`arguments_enclosed`, `variableDefinitions_enclosed`), and selections in braces of their own
(`SetStands.enclosed`). -/
namespace QueryStore

/-- Parentheses, square brackets and braces, of which only so many may be open at once. -/
def isBracket (char : Char) : Bool :=
  char = '(' || char = ')' || char = '[' || char = ']' || char = '\x7b' || char = '\x7d'

/-- What is no punctuator is no bracket. -/
theorem isBracket_mark {char : Char} (noMark : isPunctuator char = false) :
    isBracket char = false := by
  by_contra bracket
  simp only [isBracket, Bool.not_eq_false, Bool.or_eq_true, decide_eq_true_eq] at bracket
  obtain ((((rfl | rfl) | rfl) | rfl) | rfl) | rfl := bracket <;> cases noMark

/-- Brackets that match. -/
inductive Balanced : List Char → Prop
  | nil : Balanced []
  | parentheses {inner rest : List Char} (inside : Balanced inner) (behind : Balanced rest) :
    Balanced ('(' :: (inner ++ ')' :: rest))
  | squares {inner rest : List Char} (inside : Balanced inner) (behind : Balanced rest) :
    Balanced ('[' :: (inner ++ ']' :: rest))
  | braces {inner rest : List Char} (inside : Balanced inner) (behind : Balanced rest) :
    Balanced ('\x7b' :: (inner ++ '\x7d' :: rest))

theorem Balanced.append {left right : List Char} (first : Balanced left)
    (second : Balanced right) : Balanced (left ++ right) := by
  induction first with
  | nil => exact second
  | parentheses inside _ _ ih =>
    rw [List.cons_append, List.append_assoc, List.cons_append]
    exact .parentheses inside ih
  | squares inside _ _ ih =>
    rw [List.cons_append, List.append_assoc, List.cons_append]
    exact .squares inside ih
  | braces inside _ _ ih =>
    rw [List.cons_append, List.append_assoc, List.cons_append]
    exact .braces inside ih

/-- The bracket that a token is, if it is one. -/
def Token.brackets (token : Token) : List Char :=
  if token.kind = .punctuator then token.text.toList.filter isBracket else []

/-- The brackets among tokens, in order. -/
def bracketsOf (run : List Token) : List Char := run.flatMap Token.brackets

@[simp] theorem bracketsOf_nil : bracketsOf [] = [] := rfl

@[simp] theorem bracketsOf_cons (token : Token) (run : List Token) :
    bracketsOf (token :: run) = token.brackets ++ bracketsOf run := rfl

@[simp] theorem bracketsOf_append (left right : List Token) :
    bracketsOf (left ++ right) = bracketsOf left ++ bracketsOf right :=
  List.flatMap_append

theorem Token.brackets_of_kind {token : Token} (other : token.kind ≠ .punctuator) :
    token.brackets = [] := by
  simp [Token.brackets, other]

theorem Token.brackets_of_name {token : Token} (named : token.isName = true) :
    token.brackets = [] := by
  apply Token.brackets_of_kind
  simp only [Token.isName, decide_eq_true_eq] at named
  simp [named]

theorem Token.brackets_of_punctuator {token : Token} {text : String}
    (marked : token.isPunctuator text = true) : token.brackets = text.toList.filter isBracket := by
  simp only [Token.isPunctuator, Bool.and_eq_true, decide_eq_true_eq] at marked
  simp [Token.brackets, marked]

/-- Tokens from an opening punctuator through a closing one, with balanced tokens between. -/
structure Enclosed (opens closes : String) (run inner : List Token) : Prop where
  run : ∃ opening closing, run = opening :: (inner ++ [closing]) ∧
    opening.isPunctuator opens = true ∧ closing.isPunctuator closes = true
  inside : Balanced (bracketsOf inner)

/-- Brackets of a kind around tokens that are balanced. -/
private theorem enclosed_balanced {opens closes : String} {run inner : List Token}
    (enclosed : Enclosed opens closes run inner) :
    ∃ inside, Balanced inside ∧ bracketsOf run = opens.toList.filter isBracket ++
      (inside ++ closes.toList.filter isBracket) := by
  obtain ⟨⟨opening, closing, rfl, opens, closes⟩, inside⟩ := enclosed
  refine ⟨_, inside, ?_⟩
  simp only [bracketsOf_cons, bracketsOf_append, bracketsOf_nil,
    Token.brackets_of_punctuator opens, Token.brackets_of_punctuator closes, List.append_nil]

/-- Square brackets around tokens that are balanced. -/
theorem squares_balanced {run inner : List Token} (enclosed : Enclosed "[" "]" run inner) :
    Balanced (bracketsOf run) := by
  obtain ⟨_, inside, brackets⟩ := enclosed_balanced enclosed
  rw [brackets]
  exact .squares inside .nil

/-- What stands in parentheses or in braces, with these. -/
inductive Group : List Token → Prop
  | parentheses {run inner : List Token} (enclosed : Enclosed "(" ")" run inner) : Group run
  | braces {run inner : List Token} (enclosed : Enclosed "\x7b" "\x7d" run inner) : Group run

theorem Group.balanced {run : List Token} (group : Group run) : Balanced (bracketsOf run) := by
  cases group with
  | parentheses enclosed =>
    obtain ⟨_, inside, brackets⟩ := enclosed_balanced enclosed
    rw [brackets]
    exact .parentheses inside .nil
  | braces enclosed =>
    obtain ⟨_, inside, brackets⟩ := enclosed_balanced enclosed
    rw [brackets]
    exact .braces inside .nil

namespace Grammar
open Reader

/-- What a reader takes is balanced. -/
def Levels {α : Type} (reader : Reader α) : Prop :=
  ∀ tokens value rest, reader tokens = .ok (value, rest) →
    ∃ run, tokens = run ++ rest ∧ Balanced (bracketsOf run)

section
variable {α β : Type}

theorem Levels.pure (value : α) : Levels (Pure.pure value) := by
  rintro tokens _ rest ⟨⟩
  exact ⟨[], rfl, .nil⟩

theorem Levels.refuse : Levels (Reader.refuse : Reader α) := by
  intro tokens value rest read
  cases tokens <;> cases read

theorem Levels.bind {reader : Reader α} {next : α → Reader β} (levels : Levels reader)
    (later : ∀ value, Levels (next value)) : Levels (reader >>= next) := by
  intro tokens value rest read
  obtain ⟨found, middle, first, second⟩ := bind_ok.mp read
  obtain ⟨run, rfl, balanced⟩ := levels _ _ _ first
  obtain ⟨more, rfl, balanced'⟩ := later found _ _ _ second
  refine ⟨run ++ more, (List.append_assoc ..).symm, ?_⟩
  rw [bracketsOf_append]
  exact balanced.append balanced'

theorem Levels.map {reader : Reader α} {change : α → β} (levels : Levels reader) :
    Levels (change <$> reader) := by
  intro tokens value rest read
  obtain ⟨found, first, -⟩ := map_ok.mp read
  exact levels _ _ _ first

theorem Levels.satisfying {test : Token → Bool}
    (bare : ∀ token, test token = true → token.brackets = []) : Levels (satisfying test) := by
  intro tokens token rest read
  obtain ⟨rfl, passes⟩ := satisfying_ok.mp read
  exact ⟨[token], rfl, by simpa [bare token passes] using Balanced.nil⟩

theorem Levels.name : Levels Reader.name := .satisfying fun _ => Token.brackets_of_name

theorem Levels.punctuator {text : String} (bare : text.toList.filter isBracket = []) :
    Levels (Reader.punctuator text) :=
  .satisfying fun _ marked => (Token.brackets_of_punctuator marked).trans bare

theorem Levels.skip {text : String} (bare : text.toList.filter isBracket = []) :
    Levels (skip? text) := by
  intro tokens found rest read
  rcases skip_ok read with ⟨-, token, rfl, marked⟩ | ⟨-, rfl⟩
  · refine ⟨[token], rfl, ?_⟩
    simpa [Token.brackets_of_punctuator marked, bare] using Balanced.nil
  · exact ⟨[], rfl, .nil⟩

/-- Items in a row are balanced if each of them is. -/
theorem runs_balanced {run : List Token} {items : List α}
    (runs : Runs (fun own _ => Balanced (bracketsOf own)) run items) :
    Balanced (bracketsOf run) := by
  induction runs with
  | nil => exact .nil
  | cons first _ ih =>
    rw [bracketsOf_append]
    exact first.append ih

variable {item : Reader α} {fuel : Nat}

theorem Levels.whileNext {test : Token → Bool} (levels : Levels item) :
    Levels (whileNext test item fuel) := by
  induction fuel with
  | zero => exact .refuse
  | succ fuel ih =>
    intro tokens value rest read
    obtain ⟨_, _, ⟨⟩, asked⟩ := bind_ok.mp read
    split at asked
    · exact (levels.bind fun _ => ih.bind fun _ => .pure _) _ _ _ asked
    · exact (Levels.pure _) _ _ _ asked

theorem Levels.untilClosing {closing : String} (levels : Levels item) {tokens rest : List Token}
    {found : List α × Token} (read : untilClosing closing item fuel tokens = .ok (found, rest)) :
    ∃ inner, tokens = inner ++ found.2 :: rest ∧ found.2.isPunctuator closing = true ∧
      Balanced (bracketsOf inner) := by
  have items : Stands tokens item fun own _ => Balanced (bracketsOf own) :=
    fun later value rest _ => levels later value rest
  obtain ⟨_, rfl, inner, rfl, closes, runs⟩ :=
    items.untilClosing closing _ _ _ (List.suffix_refl _) read
  exact ⟨inner, List.append_assoc .., closes, runs_balanced runs⟩

theorem Levels.someUntilClosing {closing : String} (levels : Levels item)
    {tokens rest : List Token} {found : List α × Token}
    (read : someUntilClosing closing item fuel tokens = .ok (found, rest)) :
    ∃ inner, tokens = inner ++ found.2 :: rest ∧ found.2.isPunctuator closing = true ∧
      Balanced (bracketsOf inner) := by
  have items : Stands tokens item fun own _ => Balanced (bracketsOf own) :=
    fun later value rest _ => levels later value rest
  obtain ⟨_, rfl, inner, rfl, closes, -, runs⟩ :=
    items.someUntilClosing closing _ _ _ (List.suffix_refl _) read
  exact ⟨inner, List.append_assoc .., closes, runs_balanced runs⟩

end

theorem Levels.named {α : Type} {reader : Reader α} (levels : Levels reader) :
    Levels (named reader) :=
  Levels.name.bind fun _ => (Levels.punctuator (by decide)).bind fun _ => levels.bind fun _ => .pure _

theorem Levels.convert {α : Type} {token : Token} {found : Except ValueError α} :
    Levels (Reader.convert token found) := by
  intro tokens value rest read
  cases found <;> cases read
  exact ⟨[], rfl, .nil⟩

theorem Levels.blockString (token : Token) : Levels (Grammar.blockString token) := by
  intro tokens value rest read
  unfold Grammar.blockString at read
  split at read <;> cases read
  exact ⟨[], rfl, .nil⟩

section
variable {α β : Type} {token : Token} {tokens rest : List Token}

/-- A token that is no bracket is balanced together with what is taken behind it. -/
private theorem Levels.past {reader : Reader α} {found : α} (levels : Levels reader)
    (bare : token.brackets = [])
    (read : (do Reader.advance; reader) (token :: tokens) = .ok (found, rest)) :
    ∃ run, token :: tokens = run ++ rest ∧ Balanced (bracketsOf run) := by
  obtain ⟨_, _, ⟨⟩, behind⟩ := bind_ok.mp read
  obtain ⟨run, split, balanced⟩ := levels _ _ _ behind
  rw [List.tail_cons] at split
  exact ⟨token :: run, by rw [split]; rfl, by simpa [bare] using balanced⟩

/-- A bracket is balanced together with the items behind it and the bracket that closes it. -/
private theorem Levels.within {item : Reader α} {change : List α → β} {found : β} {fuel : Nat}
    {opening closing : String} (levels : Levels item)
    (closed : ∀ {run inner}, Enclosed opening closing run inner → Balanced (bracketsOf run))
    (opens : token.isPunctuator opening = true)
    (read : (do
      Reader.advance
      let (items, _) ← Reader.untilClosing closing item fuel
      return change items) (token :: tokens) = .ok (found, rest)) :
    ∃ run, token :: tokens = run ++ rest ∧ Balanced (bracketsOf run) := by
  obtain ⟨_, _, ⟨⟩, behind⟩ := bind_ok.mp read
  obtain ⟨⟨items, last⟩, _, listed, ⟨⟩⟩ := bind_ok.mp behind
  obtain ⟨inner, split, closes, inside⟩ := levels.untilClosing listed
  rw [List.tail_cons] at split
  exact ⟨token :: (inner ++ [last]), by simp [split],
    closed ⟨⟨token, last, rfl, opens, closes⟩, inside⟩⟩

end

theorem value_levels (withVariables : Bool) (fuel : Nat) : Levels (value withVariables fuel) := by
  induction fuel with
  | zero => exact .refuse
  | succ fuel ih =>
    intro tokens result rest read
    obtain ⟨_, _, ⟨⟩, peeked⟩ := bind_ok.mp read
    cases tokens with
    | nil => cases peeked
    | cons token tokens =>
      cases kind : token.kind with
      | name =>
        simp only [List.head?_cons, kind] at peeked
        exact Levels.past (.pure _) (Token.brackets_of_kind (by simp [kind])) peeked
      | intValue | floatValue | stringValue =>
        simp only [List.head?_cons, kind] at peeked
        exact Levels.past (Levels.convert.bind fun _ => .pure _)
          (Token.brackets_of_kind (by simp [kind])) peeked
      | blockString =>
        simp only [List.head?_cons, kind] at peeked
        exact Levels.past (.blockString token) (Token.brackets_of_kind (by simp [kind])) peeked
      | punctuator =>
        simp only [List.head?_cons, kind] at peeked
        split at peeked
        · next opens =>
          exact ih.within squares_balanced (by simp [Token.isPunctuator, kind, opens]) peeked
        split at peeked
        · next opens =>
          exact (Levels.named ih).within (fun enclosed => (Group.braces enclosed).balanced)
            (by simp [Token.isPunctuator, kind, opens]) peeked
        split at peeked
        · next opens =>
          simp only [Bool.and_eq_true, decide_eq_true_eq] at opens
          have marked : token.isPunctuator "$" = true := by simp [Token.isPunctuator, kind, opens]
          exact Levels.past (Levels.name.bind fun _ => .pure _)
            (Token.brackets_of_punctuator marked) peeked
        · cases peeked

theorem typeReference_levels (fuel : Nat) : Levels (typeReference fuel) := by
  induction fuel with
  | zero => exact .refuse
  | succ fuel ih =>
    have marked : ∀ type : TypeReference,
        Levels (do return if ← skip? "!" then .nonNull type else type) :=
      fun type => (Levels.skip (by decide)).bind fun _ => .pure _
    intro tokens result rest read
    obtain ⟨found, _, skipped, behind⟩ := bind_ok.mp read
    rcases skip_ok skipped with ⟨rfl, opening, rfl, opens⟩ | ⟨rfl, rfl⟩
    · obtain ⟨item, _, below, closed⟩ := bind_ok.mp behind
      obtain ⟨closing, middle, closing', marking⟩ := bind_ok.mp closed
      obtain ⟨rfl, closes⟩ := satisfying_ok.mp closing'
      obtain ⟨inner, rfl, inside⟩ := ih _ _ _ below
      obtain ⟨run, rfl, balanced⟩ := ((Levels.pure _).bind marked) _ _ _ marking
      refine ⟨opening :: (inner ++ [closing]) ++ run, by simp, ?_⟩
      rw [bracketsOf_append]
      exact (squares_balanced ⟨⟨opening, closing, rfl, opens, closes⟩, inside⟩).append balanced
    · exact (Levels.name.bind fun _ => (Levels.pure _).bind marked) _ _ _ behind

theorem argument_levels (fuel : Nat) : Levels (argument fuel) :=
  (Levels.named (value_levels true fuel)).bind fun _ => .pure _

theorem variableDefinition_levels (fuel : Nat) : Levels (variableDefinition fuel) := by
  refine (Levels.punctuator (by decide)).bind fun _ => ?_
  refine (Levels.named (typeReference_levels fuel)).bind fun _ => ?_
  refine (Levels.skip (by decide)).bind fun found => ?_
  cases found with
  | true => exact (value_levels false fuel).map.bind fun _ => .pure _
  | false => exact .pure _

/-- Items in parentheses are enclosed, if there are any. -/
private theorem listed_enclosed {α : Type} {item : Reader α} {fuel : Nat} (levels : Levels item)
    {tokens rest : List Token} {found : List α}
    (read : (do if ← skip? "(" then return (← someUntilClosing ")" item fuel).1 else return [] :
      Reader (List α)) tokens = .ok (found, rest)) :
    ∃ run, tokens = run ++ rest ∧ (run = [] ∨ ∃ inner, Enclosed "(" ")" run inner) := by
  obtain ⟨_, middle, skipped, listing⟩ := bind_ok.mp read
  rcases skip_ok skipped with ⟨rfl, opening, rfl, opens⟩ | ⟨rfl, rfl⟩
  · obtain ⟨⟨items, closing⟩, _, listed, ⟨⟩⟩ := bind_ok.mp listing
    obtain ⟨inner, rfl, closes, inside⟩ := levels.someUntilClosing listed
    exact ⟨opening :: (inner ++ [closing]), by simp,
      Or.inr ⟨inner, ⟨opening, closing, rfl, opens, closes⟩, inside⟩⟩
  · cases listing
    exact ⟨[], rfl, Or.inl rfl⟩

theorem arguments_enclosed {fuel : Nat} {tokens rest : List Token} {found : List Argument}
    (read : arguments fuel tokens = .ok (found, rest)) :
    ∃ run, tokens = run ++ rest ∧ (run = [] ∨ ∃ inner, Enclosed "(" ")" run inner) :=
  listed_enclosed (argument_levels fuel) read

theorem variableDefinitions_enclosed {fuel : Nat} {tokens rest : List Token}
    {found : List VariableDefinition} (read : variableDefinitions fuel tokens = .ok (found, rest)) :
    ∃ run, tokens = run ++ rest ∧ (run = [] ∨ ∃ inner, Enclosed "(" ")" run inner) :=
  listed_enclosed (variableDefinition_levels fuel) read

theorem arguments_levels (fuel : Nat) : Levels (arguments fuel) := by
  intro tokens found rest read
  obtain ⟨run, whole, rfl | ⟨inner, enclosed⟩⟩ := arguments_enclosed read
  · exact ⟨[], whole, .nil⟩
  · exact ⟨run, whole, (Group.parentheses enclosed).balanced⟩

theorem directives_levels (fuel : Nat) : Levels (directives fuel) :=
  Levels.whileNext ((Levels.punctuator (by decide)).bind fun _ =>
    Levels.name.bind fun _ => (arguments_levels fuel).bind fun _ => .pure _)

/-- Tokens that a reader takes as a whole are balanced. -/
theorem Levels.takes {α : Type} {reader : Nat → Reader α} (levels : ∀ fuel, Levels (reader fuel))
    {run : List Token} {value : α} (taken : Takes reader run value) : Balanced (bracketsOf run) := by
  obtain ⟨fuel, read⟩ := taken
  obtain ⟨run', whole, balanced⟩ := levels fuel _ _ _ read
  rwa [whole, List.append_nil]

section
variable {placement : Placement}

private theorem label_bare {run : List Token} {responseAlias : Option String} {name : String}
    (label : LabelStands run responseAlias name) : bracketsOf run = [] := by
  cases label with
  | plain named => simp [Token.brackets_of_name named]
  | aliased labelled parted named =>
    have bare : isBracket ':' = false := by decide
    simp [Token.brackets_of_name labelled, Token.brackets_of_name named,
      Token.brackets_of_punctuator parted, bare]

private theorem condition_bare {run : List Token} {condition : Option String}
    (typed : ConditionStands run condition) : bracketsOf run = [] := by
  cases typed with
  | any => rfl
  | typed worded named =>
    simp only [Token.isWord, Bool.and_eq_true] at worded
    simp [Token.brackets_of_name worded.1, Token.brackets_of_name named]

private theorem dots_bare {dots : Token} (dotted : dots.isPunctuator "..." = true) :
    dots.brackets = [] := by
  have bare : "...".toList.filter isBracket = [] := by decide
  rw [Token.brackets_of_punctuator dotted, bare]

/-- A set of selections is enclosed in its braces. -/
theorem SetStands.enclosed {run : List Token} {set : SelectionSet}
    (stands : SetStands placement run set) :
    ∃ inner, Enclosed "\x7b" "\x7d" run inner := by
  -- By induction on the tree: selections are balanced, and so are selections in a row.
  refine @SetStands.rec placement (fun run _ _ => Balanced (bracketsOf run))
    (fun run _ _ => ∃ inner, Enclosed "\x7b" "\x7d" run inner)
    (fun run _ _ => Balanced (bracketsOf run)) ?leaf ?branch ?spread ?inlineFragment ?braces
    ?nil ?cons _ _ stands
  case leaf =>
    intro label given annotated responseAlias name found annotations labelled arguments directives
    simp only [bracketsOf_append, label_bare labelled, List.nil_append]
    exact (Levels.takes arguments_levels arguments).append
      (Levels.takes directives_levels directives.taken)
  case branch =>
    rintro label given annotated below responseAlias name found annotations set location labelled
      arguments directives - - ⟨inner, below⟩
    simp only [bracketsOf_append, label_bare labelled, List.nil_append]
    exact (Levels.takes arguments_levels arguments).append
      ((Levels.takes directives_levels directives.taken).append (Group.braces below).balanced)
  case spread =>
    intro dots name annotated annotations dotted named other directives
    simp only [bracketsOf_cons, dots_bare dotted, Token.brackets_of_name named, List.nil_append]
    exact Levels.takes directives_levels directives.taken
  case inlineFragment =>
    rintro dots typed annotated below condition annotations set location dotted conditioned
      directives - - ⟨inner, below⟩
    simp only [bracketsOf_cons, bracketsOf_append, dots_bare dotted, condition_bare conditioned,
      List.nil_append]
    exact (Levels.takes directives_levels directives.taken).append (Group.braces below).balanced
  case braces =>
    intro opening closing inner selections location opens closes filled inside placed balanced
    exact ⟨inner, ⟨opening, closing, rfl, opens, closes⟩, balanced⟩
  case nil => exact .nil
  case cons =>
    intro run others item items _ _ first rest
    rw [bracketsOf_append]
    exact first.append rest

end

end Grammar
end QueryStore
