import QueryStore.Document.Parse
import QueryStore.Proofs.Document.Alike

/-! Where the nodes of a tree stand. A node stands in a run of tokens when the grammar derives
it from just these; `Placement` says what a location has to do with the run of its node. What the
grammar reads stands in the tokens it takes (`definitions_stand`), with every node placed as
its locator places runs of tokens. -/
namespace QueryStore
namespace Reader
variable {α : Type}

theorem satisfying_ok {test : Token → Bool} {tokens rest : List Token} {token : Token} :
    satisfying test tokens = .ok (token, rest) ↔ tokens = token :: rest ∧ test token = true := by
  cases tokens with
  | nil => simp [satisfying]
  | cons first tokens =>
    by_cases passes : test first = true
    · simp only [satisfying, passes, ↓reduceIte, Except.ok.injEq, Prod.mk.injEq, List.cons.injEq]
      exact ⟨fun same => ⟨same, same.1 ▸ passes⟩, And.left⟩
    · simp only [satisfying, passes, Bool.false_eq_true, ↓reduceIte, reduceCtorEq,
        List.cons.injEq, false_iff]
      rintro ⟨⟨rfl, -⟩, passes'⟩
      exact passes passes'

theorem map_ok {β : Type} {reader : Reader α} {change : α → β} {tokens rest : List Token}
    {value : β} : (change <$> reader) tokens = .ok (value, rest) ↔
      ∃ found, reader tokens = .ok (found, rest) ∧ change found = value := by
  rw [map_eq_pure_bind, bind_ok]
  constructor
  · rintro ⟨found, _, read, ⟨⟩⟩
    exact ⟨found, read, rfl⟩
  · rintro ⟨found, read, rfl⟩
    exact ⟨found, rest, read, rfl⟩

theorem skip_ok {text : String} {tokens rest : List Token} {found : Bool}
    (read : skip? text tokens = .ok (found, rest)) :
    (found = true ∧ ∃ token, tokens = token :: rest ∧ token.isPunctuator text = true) ∨
      (found = false ∧ tokens = rest) := by
  obtain ⟨_, _, ⟨⟩, asked⟩ := bind_ok.mp read
  by_cases passes : tokens.head?.any (Token.isPunctuator text) = true
  · simp only [passes, ↓reduceIte] at asked
    obtain ⟨_, _, ⟨⟩, ⟨⟩⟩ := bind_ok.mp asked
    cases tokens with
    | nil => cases passes
    | cons token tokens => exact Or.inl ⟨rfl, token, rfl, passes⟩
  · simp only [passes, Bool.false_eq_true, ↓reduceIte] at asked
    cases asked
    exact Or.inr ⟨rfl, rfl⟩

theorem when_ok {test : Token → Bool} {reader : Reader α} {tokens rest : List Token}
    {found : Option α} (read : Reader.when test reader tokens = .ok (found, rest)) :
    (∃ value, found = some value ∧ tokens.head?.any test = true ∧
      reader tokens = .ok (value, rest)) ∨ (found = none ∧ tokens = rest) := by
  obtain ⟨_, _, ⟨⟩, asked⟩ := bind_ok.mp read
  by_cases passes : tokens.head?.any test = true
  · simp only [passes, ↓reduceIte] at asked
    obtain ⟨value, _, one, ⟨⟩⟩ := bind_ok.mp asked
    exact Or.inl ⟨value, rfl, passes, one⟩
  · simp only [passes, Bool.false_eq_true, ↓reduceIte] at asked
    cases asked
    exact Or.inr ⟨rfl, rfl⟩

/-- What a reader takes it also takes when nothing stands behind it. -/
theorem Follows.alone {takes : Bool} {reader : Reader α} {tokens rest : List Token} {value : α}
    (follows : Follows takes (· = ·) reader reader) (read : reader tokens = .ok (value, rest)) :
    ∃ run, tokens = run ++ rest ∧ reader run = .ok (value, []) := by
  obtain ⟨run, split, -, again⟩ := follows tokens value rest read
  obtain ⟨_, alone, rfl⟩ := again run [] (alike_refl run) (by simp [Continues])
  exact ⟨run, split, by rwa [List.append_nil] at alone⟩

end Reader

/-- Items in a row, each in a run of tokens of its own. -/
inductive Runs {α : Type} (stands : List Token → α → Prop) : List Token → List α → Prop
  | nil : Runs stands [] []
  | cons {run others : List Token} {item : α} {items : List α} (first : stands run item)
    (rest : Runs stands others items) : Runs stands (run ++ others) (item :: items)

theorem Runs.exists_of_mem {α : Type} {stands : List Token → α → Prop} {run : List Token}
    {items : List α} (runs : Runs stands run items) {item : α} (member : item ∈ items) :
    ∃ own, own <:+: run ∧ stands own item := by
  induction runs with
  | nil => cases member
  | @cons own others _ _ first _ ih =>
    rcases List.mem_cons.mp member with rfl | later
    · exact ⟨own, (List.prefix_append own others).isInfix, first⟩
    · obtain ⟨own', within, stands'⟩ := ih later
      exact ⟨own', within.trans (List.suffix_append own others).isInfix, stands'⟩

/-- What the location of a node has to do with the tokens of the node. -/
structure Placement where
  node : List Token → Option Location → Prop
  inlineFragment : List Token → Option Location → Prop

namespace Grammar
open Reader

/-- The tokens of a value that has no locations of its own: read alone, they are taken as a
whole. -/
def Takes {α : Type} (reader : Nat → Reader α) (run : List Token) (value : α) : Prop :=
  ∃ fuel, reader fuel run = .ok (value, [])

/-- Directives in a row; they are not located. -/
structure DirectivesStand (run : List Token) (found : List Directive) : Prop where
  taken : Takes directives run found
  bare : ∀ directive ∈ found, directive.location = none

/-- Variables that a definition declares; they are not located. -/
structure VariablesStand (run : List Token) (found : List VariableDefinition) : Prop where
  taken : Takes variableDefinitions run found
  bare : ∀ definition ∈ found, definition.location = none

/-- The name of a field, perhaps behind an alias. -/
inductive LabelStands : List Token → Option String → String → Prop
  | plain {name : Token} (named : name.isName = true) : LabelStands [name] none name.text
  | aliased {label colon name : Token} (labelled : label.isName = true)
    (parted : colon.isPunctuator ":" = true) (named : name.isName = true) :
    LabelStands [label, colon, name] (some label.text) name.text

/-- The type that an inline fragment is restricted to, if any. -/
inductive ConditionStands : List Token → Option String → Prop
  | any : ConditionStands [] none
  | typed {on type : Token} (worded : on.isWord "on" = true) (named : type.isName = true) :
    ConditionStands [on, type] (some type.text)

mutual
/-- A selection in its tokens. Only fields with selections of their own and inline fragments
have a place. -/
inductive SelectionStands (placement : Placement) : List Token → Selection → Prop
  | leaf {label given annotated : List Token} {responseAlias : Option String} {name : String}
    {found : List Argument} {annotations : List Directive}
    (labelled : LabelStands label responseAlias name) (arguments : Takes arguments given found)
    (directives : DirectivesStand annotated annotations) :
    SelectionStands placement (label ++ (given ++ annotated))
      (.field ⟨responseAlias, name, found, annotations, none, none⟩)
  | branch {label given annotated below : List Token} {responseAlias : Option String}
    {name : String} {found : List Argument} {annotations : List Directive} {set : SelectionSet}
    {location : Option Location} (labelled : LabelStands label responseAlias name)
    (arguments : Takes arguments given found) (directives : DirectivesStand annotated annotations)
    (selected : SetStands placement below set)
    (placed : placement.node (label ++ (given ++ (annotated ++ below))) location) :
    SelectionStands placement (label ++ (given ++ (annotated ++ below)))
      (.field ⟨responseAlias, name, found, annotations, some set, location⟩)
  | spread {dots name : Token} {annotated : List Token} {annotations : List Directive}
    (dotted : dots.isPunctuator "..." = true) (named : name.isName = true)
    (other : name.text ≠ "on") (directives : DirectivesStand annotated annotations) :
    SelectionStands placement (dots :: name :: annotated)
      (.fragmentSpread ⟨name.text, annotations, none⟩)
  | inlineFragment {dots : Token} {typed annotated below : List Token}
    {condition : Option String} {annotations : List Directive} {set : SelectionSet}
    {location : Option Location} (dotted : dots.isPunctuator "..." = true)
    (conditioned : ConditionStands typed condition)
    (directives : DirectivesStand annotated annotations)
    (selected : SetStands placement below set)
    (placed : placement.inlineFragment (dots :: (typed ++ (annotated ++ below))) location) :
    SelectionStands placement (dots :: (typed ++ (annotated ++ below)))
      (.inlineFragment ⟨condition, annotations, set, location⟩)

/-- A set of selections, from its opening brace through the closing one. -/
inductive SetStands (placement : Placement) : List Token → SelectionSet → Prop
  | braces {opening closing : Token} {inner : List Token} {selections : List Selection}
    {location : Option Location} (opens : opening.isPunctuator "\x7b" = true)
    (closes : closing.isPunctuator "\x7d" = true) (filled : selections ≠ [])
    (inside : Runs (SelectionStands placement) inner selections)
    (placed : placement.node (opening :: (inner ++ [closing])) location) :
    SetStands placement (opening :: (inner ++ [closing])) ⟨selections, location⟩
end

theorem SetStands.placed {placement : Placement} {run : List Token}
    {set : SelectionSet} (stands : SetStands placement run set) : placement.node run set.location := by
  cases stands with
  | braces _ _ _ _ placed => exact placed

/-- A definition in its tokens, from the keyword or the brace that it begins with through the
brace that closes its selections. -/
inductive DefinitionStands (placement : Placement) : List Token → Definition → Prop
  | shorthand {run : List Token} {set : SelectionSet} {location : Option Location}
    (selected : SetStands placement run set) (placed : placement.node run location) :
    DefinitionStands placement run (.operation ⟨.query, none, [], [], set, location⟩)
  | operation {keyword : Token} {label : Option Token} {declared annotated below : List Token}
    {kind : OperationKind} {declarations : List VariableDefinition} {annotations : List Directive}
    {set : SelectionSet} {location : Option Location} (worded : keyword.isName = true)
    (means : operationKind? keyword.text = some kind)
    (named : ∀ name ∈ label, name.isName = true) (declares : VariablesStand declared declarations)
    (directives : DirectivesStand annotated annotations) (selected : SetStands placement below set)
    (placed : placement.node (keyword :: (label.toList ++ (declared ++ (annotated ++ below))))
      location) :
    DefinitionStands placement (keyword :: (label.toList ++ (declared ++ (annotated ++ below))))
      (.operation ⟨kind, label.map Token.text, declarations, annotations, set, location⟩)
  | fragment {keyword name on type : Token} {annotated below : List Token}
    {annotations : List Directive} {set : SelectionSet} {location : Option Location}
    (worded : keyword.isWord "fragment" = true) (named : name.isName = true)
    (parted : on.isWord "on" = true) (typed : type.isName = true)
    (directives : DirectivesStand annotated annotations) (selected : SetStands placement below set)
    (placed : placement.node (keyword :: name :: on :: type :: (annotated ++ below)) location) :
    DefinitionStands placement (keyword :: name :: on :: type :: (annotated ++ below))
      (.fragment ⟨name.text, [], type.text, annotations, set, location⟩)

theorem DefinitionStands.placed {placement : Placement} {run : List Token}
    {definition : Definition} (stands : DefinitionStands placement run definition) :
    placement.node run definition.location := by
  cases stands with
  | shorthand _ placed => exact placed
  | operation _ _ _ _ _ _ placed => exact placed
  | fragment _ _ _ _ _ _ placed => exact placed

/-- A locator places the runs of a list of tokens that end with a closing brace. -/
structure Locates (locator : Locator) (placement : Placement) (stream : List Token) : Prop where
  node : ∀ run first closing, run <:+: stream → run.head? = some first →
    run.getLast? = some closing → closing.isPunctuator "\x7d" = true →
    placement.node run (locator.node first closing)
  inlineFragment : ∀ run dots following closing, run <:+: stream → run.head? = some dots →
    run.tail.head? = some following → run.getLast? = some closing →
    dots.isPunctuator "..." = true → closing.isPunctuator "\x7d" = true →
    placement.inlineFragment run (locator.inlineFragment dots following closing)

/-- The places that a locator gives to runs by their first and last tokens, a closing brace. -/
def placedBy (locator : Locator) : Placement where
  node run location := ∃ first ∈ run.head?, ∃ closing ∈ run.getLast?,
    closing.isPunctuator "\x7d" = true ∧ location = locator.node first closing
  inlineFragment _ _ := True

theorem placedBy_locates (locator : Locator) (stream : List Token) :
    Locates locator (placedBy locator) stream where
  node _ first closing _ head last closes := ⟨first, head, closing, last, closes, rfl⟩
  inlineFragment := by
    intros
    trivial

/-- What is read at the end of a list of tokens stands in the tokens that are taken. -/
def Stands {α : Type} (stream : List Token) (reader : Reader α)
    (stands : List Token → α → Prop) : Prop :=
  ∀ tokens value rest, tokens <:+ stream → reader tokens = .ok (value, rest) →
    ∃ run, tokens = run ++ rest ∧ stands run value

/-- A set of selections that was read, with the brace that closes it. -/
def SetRead (placement : Placement) (run : List Token) (found : SelectionSet × Token) : Prop :=
  SetStands placement run found.1 ∧ run.getLast? = some found.2 ∧
    found.2.isPunctuator "\x7d" = true

section
variable {stream tokens run rest : List Token}

theorem infix_of_split (within : tokens <:+ stream) (split : tokens = run ++ rest) :
    run <:+: stream := by
  obtain ⟨front, rfl⟩ := within
  exact ⟨front, rest, by rw [split, List.append_assoc]⟩

theorem suffix_of_split (within : tokens <:+ stream) (split : tokens = run ++ rest) :
    rest <:+ stream := by
  obtain ⟨front, rfl⟩ := within
  exact ⟨front ++ run, by rw [split, List.append_assoc]⟩

end

section
variable {α : Type} {stream : List Token} {item : Reader α} {stands : List Token → α → Prop}
  {fuel : Nat}

theorem Stands.untilClosing (items : Stands stream item stands) (closing : String) :
    Stands stream (Reader.untilClosing closing item fuel) fun run found =>
      ∃ inner, run = inner ++ [found.2] ∧ found.2.isPunctuator closing = true ∧
        Runs stands inner found.1 := by
  induction fuel with
  | zero => intro tokens value rest within read; cases tokens <;> cases read
  | succ fuel ih =>
    intro tokens value rest within read
    obtain ⟨_, _, ⟨⟩, asked⟩ := bind_ok.mp read
    split at asked
    · obtain ⟨last, _, closed, ⟨⟩⟩ := bind_ok.mp asked
      obtain ⟨rfl, closes⟩ := satisfying_ok.mp closed
      exact ⟨[last], rfl, [], rfl, closes, .nil⟩
    · obtain ⟨first, _, one, others⟩ := bind_ok.mp asked
      obtain ⟨⟨more, last⟩, _, found, ⟨⟩⟩ := bind_ok.mp others
      obtain ⟨run, split, here⟩ := items _ _ _ within one
      obtain ⟨run', split', inner, rfl, closes, later⟩ :=
        ih _ _ _ (suffix_of_split within split) found
      exact ⟨run ++ (inner ++ [last]), by simp only [split, split', List.append_assoc],
        run ++ inner, (List.append_assoc ..).symm, closes, .cons here later⟩

theorem Stands.someUntilClosing (items : Stands stream item stands) (closing : String) :
    Stands stream (Reader.someUntilClosing closing item fuel) fun run found =>
      ∃ inner, run = inner ++ [found.2] ∧ found.2.isPunctuator closing = true ∧
        found.1 ≠ [] ∧ Runs stands inner found.1 := by
  intro tokens value rest within read
  obtain ⟨first, _, one, others⟩ := bind_ok.mp read
  obtain ⟨⟨more, last⟩, _, found, ⟨⟩⟩ := bind_ok.mp others
  obtain ⟨run, split, here⟩ := items _ _ _ within one
  obtain ⟨run', split', inner, rfl, closes, later⟩ :=
    items.untilClosing closing _ _ _ (suffix_of_split within split) found
  exact ⟨run ++ (inner ++ [last]), by simp only [split, split', List.append_assoc],
    run ++ inner, (List.append_assoc ..).symm, closes, List.cons_ne_nil _ _, .cons here later⟩

/-- Items of one kind, each read as long as the next token begins one. -/
theorem whileNext_forall {test : Token → Bool} {fits : α → Prop}
    (items : ∀ tokens value rest, item tokens = .ok (value, rest) → fits value)
    {tokens rest : List Token} {found : List α}
    (read : whileNext test item fuel tokens = .ok (found, rest)) : ∀ value ∈ found, fits value := by
  induction fuel generalizing tokens found with
  | zero => cases tokens <;> cases read
  | succ fuel ih =>
    obtain ⟨_, _, ⟨⟩, asked⟩ := bind_ok.mp read
    split at asked
    · obtain ⟨first, _, one, others⟩ := bind_ok.mp asked
      obtain ⟨more, _, later, ⟨⟩⟩ := bind_ok.mp others
      exact List.forall_mem_cons.mpr ⟨items _ _ _ one, ih later⟩
    · cases asked
      simp

end

section
variable {fuel : Nat} {tokens rest : List Token}

theorem arguments_stand {found : List Argument}
    (read : arguments fuel tokens = .ok (found, rest)) :
    ∃ run, tokens = run ++ rest ∧ Takes arguments run found := by
  obtain ⟨run, split, alone⟩ := (arguments_follows (Nat.le_refl fuel)).alone read
  exact ⟨run, split, fuel, alone⟩

theorem directives_stand {found : List Directive}
    (read : directives fuel tokens = .ok (found, rest)) :
    ∃ run, tokens = run ++ rest ∧ DirectivesStand run found := by
  obtain ⟨run, split, alone⟩ := (directives_follows (Nat.le_refl fuel)).alone read
  refine ⟨run, split, ⟨fuel, alone⟩, whileNext_forall ?_ read⟩
  intro tokens directive rest read
  obtain ⟨_, _, -, more⟩ := bind_ok.mp read
  obtain ⟨_, _, -, more⟩ := bind_ok.mp more
  obtain ⟨_, _, -, ⟨⟩⟩ := bind_ok.mp more
  rfl

theorem variables_stand {found : List VariableDefinition}
    (read : variableDefinitions fuel tokens = .ok (found, rest)) :
    ∃ run, tokens = run ++ rest ∧ VariablesStand run found := by
  obtain ⟨run, split, alone⟩ := (variableDefinitions_follows (Nat.le_refl fuel)).alone read
  refine ⟨run, split, ⟨fuel, alone⟩, ?_⟩
  have each : Stands tokens (variableDefinition fuel) fun _ definition =>
      definition.location = none := by
    intro later definition rest within one
    obtain ⟨taken, whole⟩ := (variableDefinition_follows (Nat.le_refl fuel)).suffix one
    refine ⟨taken, whole, ?_⟩
    obtain ⟨_, _, -, more⟩ := bind_ok.mp one
    obtain ⟨⟨name, type⟩, _, -, more⟩ := bind_ok.mp more
    obtain ⟨found, _, -, more⟩ := bind_ok.mp more
    cases found with
    | true =>
      obtain ⟨_, _, -, ⟨⟩⟩ := bind_ok.mp more
      rfl
    | false =>
      obtain ⟨_, _, -, ⟨⟩⟩ := bind_ok.mp more
      rfl
  obtain ⟨found', middle, skipped, more⟩ := bind_ok.mp read
  cases found' with
  | false =>
    cases more
    simp
  | true =>
    obtain ⟨⟨items, last⟩, _, listed, ⟨⟩⟩ := bind_ok.mp more
    rcases skip_ok skipped with ⟨-, token, rfl, -⟩ | ⟨⟨⟩, -⟩
    obtain ⟨_, -, _, -, -, -, runs⟩ :=
      each.someUntilClosing ")" _ _ _ (List.suffix_cons token middle) listed
    intro definition member
    obtain ⟨_, -, bare⟩ := runs.exists_of_mem member
    exact bare

end

section
variable {locator : Locator} {placement : Placement} {stream : List Token}
  (locates : Locates locator placement stream) {fuel : Nat}
include locates

section
variable {below : Reader (SelectionSet × Token)} (sets : Stands stream below (SetRead placement))
include sets

/-- With an alias and without one, the rest of a field is read in the same way. -/
private theorem labelled_stands (label : List Token) (second : Option Token) {first : Token}
    {tokens behind rest : List Token} {value : Selection} (within : tokens <:+ stream)
    (split : tokens = label ++ behind) (starts : label.head? = some first)
    (labelled : LabelStands label (second.map fun _ => first.text) (second.getD first).text)
    (read : (do
      let arguments ← arguments fuel
      let directives ← directives fuel
      let below ← Reader.when (Token.isPunctuator "\x7b") below
      let responseAlias := second.map fun _ => first.text
      let fieldName := (second.getD first).text
      return .field ⟨responseAlias, fieldName, arguments, directives, below.map Prod.fst,
        below.bind fun read => locator.node first read.2⟩ : Reader Selection) behind =
      .ok (value, rest)) :
    ∃ run, tokens = run ++ rest ∧ SelectionStands placement run value := by
  obtain ⟨found, _, argued, annotating⟩ := bind_ok.mp read
  obtain ⟨annotations, middle, directed, selecting⟩ := bind_ok.mp annotating
  obtain ⟨set, _, selected, ⟨⟩⟩ := bind_ok.mp selecting
  obtain ⟨given, rfl, arguments⟩ := arguments_stand argued
  obtain ⟨annotated, rfl, directives⟩ := directives_stand directed
  rcases when_ok selected with ⟨⟨set, closing⟩, rfl, -, selected⟩ | ⟨rfl, rfl⟩
  · have before : tokens = (label ++ (given ++ annotated)) ++ middle := by
      rw [split]
      simp only [List.append_assoc]
    obtain ⟨run, rfl, stands, last, closes⟩ :=
      sets _ _ _ (suffix_of_split within before) selected
    have whole : tokens = (label ++ (given ++ (annotated ++ run))) ++ rest := by
      rw [split]
      simp only [List.append_assoc]
    refine ⟨_, whole, .branch labelled arguments directives stands ?_⟩
    refine locates.node _ first closing (infix_of_split within whole) ?_ ?_ closes
    · simp [starts]
    · simp only [List.getLast?_append, last, Option.some_or]
  · refine ⟨label ++ (given ++ annotated), ?_, .leaf labelled arguments directives⟩
    rw [split]
    simp only [List.append_assoc]

theorem field_stands :
    Stands stream (field locator fuel below) (SelectionStands placement) := by
  intro tokens value rest within read
  obtain ⟨first, _, begun, labelled⟩ := bind_ok.mp read
  obtain ⟨rfl, named⟩ := satisfying_ok.mp begun
  obtain ⟨found, middle, skipped, either⟩ := bind_ok.mp labelled
  rcases skip_ok skipped with ⟨rfl, colon, rfl, parted⟩ | ⟨rfl, rfl⟩
  · obtain ⟨_, _, aliased, behind⟩ := bind_ok.mp either
    obtain ⟨name, second, rfl⟩ := map_ok.mp aliased
    obtain ⟨rfl, named'⟩ := satisfying_ok.mp second
    exact labelled_stands locates sets [first, colon, name] (some name) within rfl rfl
      (.aliased named parted named') behind
  · exact labelled_stands locates sets [first] none within rfl rfl (.plain named) either

omit locates sets in
/-- A type condition is a keyword and a name, or nothing. -/
private theorem condition_stands {following : Token} {tokens rest : List Token}
    {type : Option Token} (unnamed : ¬(following.isName && following.text ≠ "on") = true)
    (read : Reader.when Token.isName (do advance; name) (following :: tokens) = .ok (type, rest)) :
    ∃ run, following :: tokens = run ++ rest ∧ ConditionStands run (type.map Token.text) := by
  rcases when_ok read with ⟨type, rfl, named, read⟩ | ⟨rfl, same⟩
  · obtain ⟨_, _, ⟨⟩, read⟩ := bind_ok.mp read
    obtain ⟨split, typed⟩ := satisfying_ok.mp read
    simp only [List.tail_cons] at split
    refine ⟨[following, type], by rw [split]; rfl, .typed ?_ typed⟩
    simp_all [Token.isWord, Token.isName]
  · exact ⟨[], same, .any⟩

theorem spread_stands :
    Stands stream (spread locator fuel below) (SelectionStands placement) := by
  intro tokens value rest within read
  obtain ⟨dots, middle, begun, peeking⟩ := bind_ok.mp read
  obtain ⟨rfl, dotted⟩ := satisfying_ok.mp begun
  obtain ⟨_, _, ⟨⟩, peeked⟩ := bind_ok.mp peeking
  cases middle with
  | nil => cases peeked
  | cons following middle =>
    simp only [List.head?_cons] at peeked
    split at peeked
    · next named =>
      simp only [ne_eq, decide_not, Bool.and_eq_true, Bool.not_eq_eq_eq_not, Bool.not_true,
        decide_eq_false_iff_not] at named
      obtain ⟨_, _, ⟨⟩, behind⟩ := bind_ok.mp peeked
      obtain ⟨annotations, _, directed, ⟨⟩⟩ := bind_ok.mp behind
      obtain ⟨annotated, split, directives⟩ := directives_stand directed
      simp only [List.tail_cons] at split
      exact ⟨dots :: following :: annotated, by rw [split]; rfl,
        .spread dotted named.1 named.2 directives⟩
    · next unnamed =>
      obtain ⟨type, middle', conditioned, annotating⟩ := bind_ok.mp peeked
      obtain ⟨annotations, last, directed, selecting⟩ := bind_ok.mp annotating
      obtain ⟨⟨set, closing⟩, _, selected, ⟨⟩⟩ := bind_ok.mp selecting
      obtain ⟨run, split, condition⟩ := condition_stands unnamed conditioned
      obtain ⟨annotated, rfl, directives⟩ := directives_stand directed
      have before : dots :: following :: middle = (dots :: (run ++ annotated)) ++ last := by
        rw [split]
        simp only [List.cons_append, List.append_assoc]
      obtain ⟨below, rfl, stands, ends, closes⟩ :=
        sets _ _ _ (suffix_of_split within before) selected
      have whole : dots :: following :: middle =
          (dots :: (run ++ (annotated ++ below))) ++ rest := by
        rw [split]
        simp only [List.cons_append, List.append_assoc]
      have final : (run ++ (annotated ++ below)).getLast? = some closing := by
        simp only [List.getLast?_append, ends, Option.some_or]
      refine ⟨_, whole, .inlineFragment dotted condition directives stands ?_⟩
      -- The run ends with a brace, so that it goes on behind the dots.
      have within' := infix_of_split within whole
      generalize run ++ (annotated ++ below) = inner at whole within' final
      cases inner with
      | nil => cases final
      | cons second inner =>
        obtain ⟨-, rfl, -⟩ := List.cons_eq_cons.mp whole |>.imp_right List.cons_eq_cons.mp
        exact locates.inlineFragment _ dots following closing within' rfl rfl
          ((List.getLast?_cons_cons ..).trans final) dotted closes

theorem selection_stands :
    Stands stream (selection locator fuel below) (SelectionStands placement) := by
  intro tokens value rest within read
  obtain ⟨_, _, ⟨⟩, asked⟩ := bind_ok.mp read
  split at asked
  · exact spread_stands locates sets _ _ _ within asked
  · exact field_stands locates sets _ _ _ within asked

end

/-- A set of selections stands in the tokens that are taken, through the brace that is
returned. -/
theorem selectionSet_stands :
    Stands stream (selectionSet locator fuel) (SetRead placement) := by
  -- By induction on the fuel: the sets below are read with less of it.
  induction fuel with
  | zero => intro tokens value rest within read; cases tokens <;> cases read
  | succ fuel ih =>
    intro tokens value rest within read
    obtain ⟨opening, middle, begun, inside⟩ := bind_ok.mp read
    obtain ⟨rfl, opens⟩ := satisfying_ok.mp begun
    obtain ⟨⟨selections, closing⟩, _, some, ⟨⟩⟩ := bind_ok.mp inside
    obtain ⟨_, rfl, inner, rfl, closes, filled, runs⟩ :=
      (selection_stands locates ih).someUntilClosing "\x7d" _ _ _
        ((List.suffix_cons opening middle).trans within) some
    have whole : opening :: (inner ++ [closing] ++ rest) =
        (opening :: (inner ++ [closing])) ++ rest := rfl
    have last : (opening :: (inner ++ [closing])).getLast? = Option.some closing := by
      rw [← List.cons_append, List.getLast?_concat]
    exact ⟨_, whole, .braces opens closes filled runs (locates.node _ _ _
      (infix_of_split within whole) rfl last closes), last, closes⟩

theorem operation_stands {keyword : Token} {kind : OperationKind} {tokens rest : List Token}
    {found : Operation} (within : keyword :: tokens <:+ stream) (worded : keyword.isName = true)
    (means : operationKind? keyword.text = some kind)
    (read : operation locator fuel keyword kind tokens = .ok (found, rest)) :
    ∃ run, keyword :: tokens = run ++ rest ∧
      DefinitionStands placement run (.operation found) := by
  obtain ⟨label, middle, labelled, declaring⟩ := bind_ok.mp read
  obtain ⟨declarations, _, declared, annotating⟩ := bind_ok.mp declaring
  obtain ⟨annotations, last, directed, selecting⟩ := bind_ok.mp annotating
  obtain ⟨⟨set, closing⟩, _, selected, ⟨⟩⟩ := bind_ok.mp selecting
  have named : tokens = label.toList ++ middle ∧ ∀ name ∈ label, name.isName = true := by
    rcases when_ok labelled with ⟨name, rfl, -, read⟩ | ⟨rfl, same⟩
    · obtain ⟨split, named⟩ := satisfying_ok.mp read
      exact ⟨split, by simpa using named⟩
    · exact ⟨same, by simp⟩
  obtain ⟨split, named⟩ := named
  obtain ⟨run, rfl, declares⟩ := variables_stand declared
  obtain ⟨annotated, rfl, directives⟩ := directives_stand directed
  have before : keyword :: tokens = (keyword :: (label.toList ++ (run ++ annotated))) ++ last := by
    rw [split]
    simp only [List.cons_append, List.append_assoc]
  obtain ⟨below, rfl, stands, ends, closes⟩ :=
    selectionSet_stands locates _ _ _ (suffix_of_split within before) selected
  have whole : keyword :: tokens =
      (keyword :: (label.toList ++ (run ++ (annotated ++ below)))) ++ rest := by
    rw [split]
    simp only [List.cons_append, List.append_assoc]
  refine ⟨_, whole, .operation worded means named declares directives stands ?_⟩
  refine locates.node _ _ _ (infix_of_split within whole) rfl ?_ closes
  simp [List.getLast?_cons, List.getLast?_append, ends]

theorem fragment_stands {keyword : Token} {tokens rest : List Token} {found : Fragment}
    (within : keyword :: tokens <:+ stream) (worded : keyword.isWord "fragment" = true)
    (read : fragment locator fuel keyword tokens = .ok (found, rest)) :
    ∃ run, keyword :: tokens = run ++ rest ∧
      DefinitionStands placement run (.fragment found) := by
  obtain ⟨name, _, naming, parting⟩ := bind_ok.mp read
  obtain ⟨on, _, parted, typing⟩ := bind_ok.mp parting
  obtain ⟨type, _, typed, annotating⟩ := bind_ok.mp typing
  obtain ⟨annotations, last, directed, selecting⟩ := bind_ok.mp annotating
  obtain ⟨⟨set, closing⟩, _, selected, ⟨⟩⟩ := bind_ok.mp selecting
  obtain ⟨rfl, named⟩ := satisfying_ok.mp naming
  obtain ⟨rfl, parts⟩ := satisfying_ok.mp parted
  obtain ⟨rfl, restricts⟩ := satisfying_ok.mp typed
  obtain ⟨annotated, rfl, directives⟩ := directives_stand directed
  have before : keyword :: name :: on :: type :: (annotated ++ last) =
      (keyword :: name :: on :: type :: annotated) ++ last := rfl
  obtain ⟨below, rfl, stands, ends, closes⟩ :=
    selectionSet_stands locates _ _ _ (suffix_of_split within before) selected
  have whole : keyword :: name :: on :: type :: (annotated ++ (below ++ rest)) =
      (keyword :: name :: on :: type :: (annotated ++ below)) ++ rest := by
    simp only [List.cons_append, List.append_assoc]
  refine ⟨_, whole, .fragment worded named parts restricts directives stands ?_⟩
  refine locates.node _ _ _ (infix_of_split within whole) rfl ?_ closes
  simp [List.getLast?_cons, List.getLast?_append, ends]

theorem definition_stands :
    Stands stream (definition locator fuel) (DefinitionStands placement) := by
  intro tokens value rest within read
  obtain ⟨_, _, ⟨⟩, peeked⟩ := bind_ok.mp read
  cases tokens with
  | nil => cases peeked
  | cons token tokens =>
    simp only [List.head?_cons] at peeked
    split at peeked
    · obtain ⟨operation, _, short, ⟨⟩⟩ := bind_ok.mp peeked
      obtain ⟨⟨set, closing⟩, _, selected, ⟨⟩⟩ := bind_ok.mp short
      obtain ⟨run, split, stands, -⟩ := selectionSet_stands locates _ _ _ within selected
      exact ⟨run, split, .shorthand stands stands.placed⟩
    split at peeked
    · next worded =>
      obtain ⟨_, _, ⟨⟩, behind⟩ := bind_ok.mp peeked
      obtain ⟨fragment, _, begun, ⟨⟩⟩ := bind_ok.mp behind
      exact fragment_stands locates within worded begun
    · cases kind : (if token.isName = true then operationKind? token.text else none) with
      | none =>
        rw [kind] at peeked
        cases peeked
      | some kind' =>
        rw [kind] at peeked
        obtain ⟨_, _, ⟨⟩, behind⟩ := bind_ok.mp peeked
        obtain ⟨operation, _, begun, ⟨⟩⟩ := bind_ok.mp behind
        split at kind
        · next named => exact operation_stands locates within named kind begun
        · cases kind

/-- Definitions that take up all tokens, one after the other. -/
theorem definitions_stand {size : Nat} {tokens rest : List Token} {found : List Definition}
    (within : tokens <:+ stream) (read : definitions locator size fuel tokens = .ok (found, rest)) :
    Runs (DefinitionStands placement) tokens found := by
  induction fuel generalizing tokens found with
  | zero => cases tokens <;> cases read
  | succ fuel ih =>
    obtain ⟨first, middle, one, peeked⟩ := bind_ok.mp read
    obtain ⟨_, _, ⟨⟩, others⟩ := bind_ok.mp peeked
    obtain ⟨run, rfl, stands⟩ := definition_stands locates _ _ _ within one
    cases middle with
    | nil =>
      cases others
      exact .cons stands .nil
    | cons token middle =>
      obtain ⟨more, _, later, ⟨⟩⟩ := bind_ok.mp others
      exact .cons stands (ih (suffix_of_split within rfl) later)

end

/-- What is read from a text stands in its tokens, which reach to the end of the text. -/
theorem readDefinitions_stand {locator : Locator} {placement : Placement} {text : List Char}
    {found : List Definition}
    (locates : Locates locator placement (TokenStream.ofText text).tokens)
    (read : readDefinitions locator text = .ok found) :
    (TokenStream.ofText text).ending = .endOfInput ∧
      Runs (DefinitionStands placement) (TokenStream.ofText text).tokens found := by
  simp only [readDefinitions, readAll] at read
  split at read
  · cases read
  · next definitions all =>
    obtain ⟨⟨_, rest⟩, parsed, rfl⟩ := map_eq_ok.mp all
    cases ending : (TokenStream.ofText text).ending with
    | failure error => simp [ending] at read
    | endOfInput =>
      simp only [ending, Except.ok.injEq] at read
      subst read
      exact ⟨rfl, definitions_stand locates (List.suffix_refl _) parsed⟩

end Grammar
end QueryStore
