import QueryStore.Document.Strip
import QueryStore.Document.Grammar
import QueryStore.Proofs.Token.Follows

/-! The grammar does not ask for places. From tokens alike it reads documents that differ in
their locations only, whatever gives the locations and with any fuel that is not less. One
lemma for each reader of the grammar, in its order. -/
namespace QueryStore
namespace Grammar
open Reader

variable {fuel fuel' : Nat}

private theorem all_equal {α : Type} {left right : List α}
    (related : List.Forall₂ (· = ·) left right) : left = right := by
  rwa [List.forall₂_eq_eq_eq] at related

theorem named_follows {α β : Type} {R : α → β → Prop} {takes : Bool} {reader : Reader α}
    {follower : Reader β} (follows : Follows takes R reader follower) :
    Follows true (fun left right => left.1 = right.1 ∧ R left.2 right.2) (named reader)
      (named follower) :=
  (Follows.satisfying isName_placeless).bind fun _ _ alike =>
    (Follows.satisfying (isPunctuator_placeless ":")).bind fun _ _ _ =>
      follows.bind fun _ _ related => .pure ⟨alike.text, related⟩

theorem blockString_follows {left right : Token} (alike : left.Alike right) :
    Follows false (· = ·) (blockString left) (blockString right) := by
  intro tokens value rest read
  unfold blockString at read ⊢
  rw [alike.text] at read
  cases found : blockStringValue right.text.toList with
  | none =>
    rw [found] at read
    cases read
  | some text =>
    rw [found] at read
    cases read
    refine ⟨[], rfl, by simp, ?_⟩
    rintro _ rest' ⟨⟩ -
    exact ⟨_, rfl, rfl⟩

/-- Items that are read alike are equal lists of items. -/
private theorem list_follows {α : Type} {closing : String} {takes : Bool} {item item' : Reader α}
    (items : Follows takes (· = ·) item item') (enough : fuel ≤ fuel') :
    Follows true (fun left right => left.1 = right.1) (untilClosing closing item fuel)
      (untilClosing closing item' fuel') :=
  (Follows.untilClosing items enough).mono fun _ _ closed => all_equal closed.1

theorem value_follows (withVariables : Bool) (enough : fuel ≤ fuel') :
    Follows true (· = ·) (value withVariables fuel) (value withVariables fuel') := by
  induction fuel generalizing fuel' with
  | zero => exact .refuse
  | succ fuel ih =>
    obtain ⟨fuel', rfl⟩ := Nat.exists_eq_succ_of_ne_zero (Nat.ne_zero_of_lt enough)
    have below := Nat.le_of_succ_le_succ enough
    unfold value
    refine .peek (fun tokens => by cases tokens <;> rfl) fun left right alike => ?_
    simp only [alike.kind, alike.text]
    have here : ∀ {reader follower : Reader Value}, Follows false (· = ·) reader follower →
        Follows true (· = ·) (advance >>= fun _ => reader) (advance >>= fun _ => follower) :=
      fun follows => Follows.advance.bind fun _ _ _ => follows
    cases right.kind with
    | name => exact here (.pure rfl)
    | intValue =>
      exact here ((Follows.convert left right _).bind fun _ _ same => .pure (by rw [same]))
    | floatValue =>
      exact here ((Follows.convert left right _).bind fun _ _ same => .pure (by rw [same]))
    | stringValue =>
      exact here ((Follows.convert left right _).bind fun _ _ same => .pure (by rw [same]))
    | blockString => exact here (blockString_follows alike)
    | punctuator =>
      by_cases list : right.text = "["
      · simp only [list, ↓reduceIte]
        exact here ((list_follows (ih below) below).bind fun _ _ same =>
          .pure (by rw [same])).loosen
      by_cases object : right.text = "\x7b"
      · simp only [object, ↓reduceIte]
        have members : Follows true (· = ·) (named (value withVariables fuel))
            (named (value withVariables fuel')) :=
          (named_follows (ih below)).mono fun _ _ same => Prod.ext same.1 same.2
        exact here ((list_follows members below).bind fun _ _ same =>
          .pure (by rw [same])).loosen
      · simp only [list, object, ↓reduceIte]
        split
        · exact here ((Follows.satisfying isName_placeless).bind fun _ _ alike =>
            .pure (by rw [alike.text])).loosen
        · exact .refuse

theorem typeReference_follows (enough : fuel ≤ fuel') :
    Follows true (· = ·) (typeReference fuel) (typeReference fuel') := by
  induction fuel generalizing fuel' with
  | zero => exact .refuse
  | succ fuel ih =>
    obtain ⟨fuel', rfl⟩ := Nat.exists_eq_succ_of_ne_zero (Nat.ne_zero_of_lt enough)
    have below := Nat.le_of_succ_le_succ enough
    have finish : ∀ type : TypeReference, Follows false (· = ·)
        (do return if ← skip? "!" then .nonNull type else type)
        (do return if ← skip? "!" then .nonNull type else type) :=
      fun type => (Follows.skip "!").bind fun _ _ same => .pure (by rw [same])
    unfold typeReference
    refine (Follows.skip "[").bind fun found _ same => ?_
    subst same
    cases found with
    | true =>
      exact (ih below).bind fun _ _ same =>
        (Follows.satisfying (isPunctuator_placeless "]")).bind fun _ _ _ => by
          subst same
          exact finish _
    | false =>
      exact (Follows.satisfying isName_placeless).bind fun _ _ alike => by
        rw [alike.text]
        exact finish _

theorem argument_follows (enough : fuel ≤ fuel') :
    Follows true (· = ·) (argument fuel) (argument fuel') :=
  (named_follows (value_follows true enough)).bind fun _ _ same => .pure (by rw [same.1, same.2])

theorem arguments_follows (enough : fuel ≤ fuel') :
    Follows false (· = ·) (arguments fuel) (arguments fuel') := by
  refine (Follows.skip "(").bind fun found _ same => ?_
  subst same
  cases found with
  | true =>
    exact ((Follows.someUntilClosing (argument_follows enough) enough).bind fun _ _ closed =>
      .pure (all_equal closed.1)).loosen
  | false => exact .pure rfl

theorem directive_follows (enough : fuel ≤ fuel') :
    Follows true (· = ·) (directive fuel) (directive fuel') :=
  (Follows.satisfying (isPunctuator_placeless "@")).bind fun _ _ _ =>
    (Follows.satisfying isName_placeless).bind fun _ _ alike =>
      (arguments_follows enough).bind fun _ _ same => .pure (by rw [alike.text, same])

theorem directives_follows (enough : fuel ≤ fuel') :
    Follows false (· = ·) (directives fuel) (directives fuel') :=
  (Follows.whileNext (isPunctuator_placeless "@") (directive_follows enough) enough).mono
    fun _ _ => all_equal

theorem variableDefinition_follows (enough : fuel ≤ fuel') :
    Follows true (· = ·) (variableDefinition fuel) (variableDefinition fuel') := by
  refine Follows.start (Follows.satisfying (isPunctuator_placeless "$")) fun _ _ _ => ?_
  refine (Follows.start (named_follows (typeReference_follows enough)) ?_).loosen
  rintro ⟨name, type⟩ ⟨_, _⟩ ⟨rfl, rfl⟩
  refine (Follows.skip "=").bind fun found _ same => ?_
  subst same
  cases found with
  | true =>
    have default : Follows true (· = ·) (some <$> value false fuel) (some <$> value false fuel') :=
      (value_follows false enough).map fun _ _ same => congrArg some same
    refine (Follows.start default fun default _ same => ?_).loosen
    subst same
    exact .pure rfl
  | false => exact .pure rfl

theorem variableDefinitions_follows (enough : fuel ≤ fuel') :
    Follows false (· = ·) (variableDefinitions fuel) (variableDefinitions fuel') := by
  refine (Follows.skip "(").bind fun found _ same => ?_
  subst same
  cases found with
  | true =>
    refine (Follows.start
      (Follows.someUntilClosing (variableDefinition_follows enough) enough) ?_).loosen
    exact fun _ _ closed => .pure (all_equal closed.1)
  | false => exact .pure rfl

/-- Selections that differ in their locations only. -/
def SameSelection (left right : Selection) : Prop := left.strip false = right.strip false

/-- Sets of selections that differ in their locations only. -/
def SameSet (left right : SelectionSet × Token) : Prop :=
  left.1.strip false = right.1.strip false

section
variable {locator locator' : Locator} {below below' : Reader (SelectionSet × Token)}
  (sets : Follows true SameSet below below') (enough : fuel ≤ fuel')
include sets enough

theorem field_follows :
    Follows true SameSelection (field locator fuel below) (field locator' fuel' below') := by
  refine Follows.start (Follows.satisfying isName_placeless) fun first first' alike => ?_
  refine (Follows.skip ":").bind fun found _ same => ?_
  subst same
  have finish : ∀ second second' : Option Token, second.map Token.text = second'.map Token.text →
      Follows false SameSelection
        (do
          let arguments ← arguments fuel
          let directives ← directives fuel
          let below ← Reader.when (Token.isPunctuator "\x7b") below
          let responseAlias := second.map fun _ => first.text
          let fieldName := (second.getD first).text
          return .field ⟨responseAlias, fieldName, arguments, directives, below.map Prod.fst,
            below.bind fun read => locator.node first read.2⟩)
        (do
          let arguments ← arguments fuel'
          let directives ← directives fuel'
          let below ← Reader.when (Token.isPunctuator "\x7b") below'
          let responseAlias := second'.map fun _ => first'.text
          let fieldName := (second'.getD first').text
          return .field ⟨responseAlias, fieldName, arguments, directives, below.map Prod.fst,
            below.bind fun read => locator'.node first' read.2⟩) := by
    intro second second' names
    refine (arguments_follows enough).bind fun arguments _ same => ?_
    subst same
    refine (directives_follows enough).bind fun directives _ same => ?_
    subst same
    refine (Follows.when (isPunctuator_placeless "\x7b") sets).bind fun set set' related => ?_
    refine .pure ?_
    have labels : (second.map fun _ => first.text) = second'.map (fun _ => first'.text) ∧
        (second.getD first).text = (second'.getD first').text := by
      cases second <;> cases second' <;> simp_all [alike.text]
    cases related with
    | none => simp [SameSelection, Selection.strip, Field.strip, labels]
    | some same => simpa [SameSelection, SameSet, Selection.strip, Field.strip, labels] using same
  cases found with
  | true =>
    have named : Follows true (fun left right => left.map Token.text = right.map Token.text)
        (some <$> name) (some <$> name) :=
      (Follows.satisfying isName_placeless).map fun _ _ alike => congrArg some alike.text
    exact (Follows.start named fun second second' same => finish second second' same).loosen
  | false => exact finish none none rfl

theorem spread_follows :
    Follows true SameSelection (spread locator fuel below) (spread locator' fuel' below') := by
  refine Follows.start (Follows.satisfying (isPunctuator_placeless "...")) fun dots dots' _ => ?_
  refine (Follows.peek (fun tokens => by cases tokens <;> rfl) fun left right alike => ?_).loosen
  have names : left.isName = right.isName := isName_placeless left right alike
  simp only [names, alike.text]
  by_cases named : (right.isName && right.text ≠ "on") = true
  · simp only [named]
    refine Follows.start Follows.advance fun _ _ _ => ?_
    refine (directives_follows enough).bind fun directives _ same => ?_
    subst same
    exact .pure rfl
  · simp only [named]
    have condition : Follows true Token.Alike (do advance; name) (do advance; name) :=
      Follows.start Follows.advance fun _ _ _ => (Follows.satisfying isName_placeless).loosen
    refine (Follows.when isName_placeless condition).bind fun type type' typed => ?_
    refine (directives_follows enough).bind fun directives _ same => ?_
    subst same
    refine Follows.start sets fun set set' same => .pure ?_
    have types : type.map Token.text = type'.map Token.text := by
      cases typed with
      | none => rfl
      | some alike => exact congrArg some alike.text
    simpa [SameSelection, SameSet, Selection.strip, InlineFragment.strip, types] using same

theorem selection_follows :
    Follows true SameSelection (selection locator fuel below) (selection locator' fuel' below') := by
  apply Follows.nextIs (isPunctuator_placeless "...")
  · exact spread_follows sets enough
  · exact field_follows sets enough

end

theorem selectionSet_follows (locator locator' : Locator) (enough : fuel ≤ fuel') :
    Follows true SameSet (selectionSet locator fuel) (selectionSet locator' fuel') := by
  induction fuel generalizing fuel' with
  | zero => exact .refuse
  | succ fuel ih =>
    obtain ⟨fuel', rfl⟩ := Nat.exists_eq_succ_of_ne_zero (Nat.ne_zero_of_lt enough)
    have below := Nat.le_of_succ_le_succ enough
    refine Follows.start (Follows.satisfying (isPunctuator_placeless "\x7b")) fun _ _ _ => ?_
    refine (Follows.start
      (Follows.someUntilClosing (selection_follows (ih below) below) below) ?_).loosen
    rintro ⟨selections, closing⟩ ⟨selections', closing'⟩ ⟨same, -⟩
    refine .pure ?_
    have equal : selections.map (Selection.strip false) = selections'.map (Selection.strip false) := by
      rw [← List.forall₂_eq_eq_eq, List.forall₂_map_left_iff, List.forall₂_map_right_iff]
      exact same
    simp [SameSet, SelectionSet.strip, equal]

/-- Definitions that differ in their locations only. -/
def SameDefinition (left right : Definition) : Prop := left.strip false = right.strip false

theorem operation_follows (locator locator' : Locator) (keyword keyword' : Token)
    (kind : OperationKind) (enough : fuel ≤ fuel') :
    Follows true (fun left right => left.strip false = right.strip false)
      (operation locator fuel keyword kind) (operation locator' fuel' keyword' kind) := by
  refine (Follows.when isName_placeless (Follows.satisfying isName_placeless)).bind
    fun label label' named => ?_
  refine (variableDefinitions_follows enough).bind fun declared _ same => ?_
  subst same
  refine (directives_follows enough).bind fun directives _ same => ?_
  subst same
  refine Follows.start (selectionSet_follows locator locator' enough) fun set set' same => .pure ?_
  have labels : label.map Token.text = label'.map Token.text := by
    cases named with
    | none => rfl
    | some alike => exact congrArg some alike.text
  simpa [SameSet, Operation.strip, labels] using same

theorem fragment_follows (locator locator' : Locator) (keyword keyword' : Token)
    (enough : fuel ≤ fuel') :
    Follows true (fun left right => left.strip false = right.strip false)
      (fragment locator fuel keyword) (fragment locator' fuel' keyword') := by
  refine Follows.start (Follows.satisfying isName_placeless) fun name name' named => ?_
  refine (Follows.start (Follows.satisfying (isWord_placeless "on")) fun _ _ _ => ?_).loosen
  refine (Follows.start (Follows.satisfying isName_placeless) fun type type' typed => ?_).loosen
  refine (directives_follows enough).bind fun directives _ same => ?_
  subst same
  refine (Follows.start (selectionSet_follows locator locator' enough) fun set set' same => ?_).loosen
  refine .pure ?_
  simpa [SameSet, Fragment.strip, named.text, typed.text] using same

theorem shorthand_follows (locator locator' : Locator) (enough : fuel ≤ fuel') :
    Follows true (fun left right => left.strip false = right.strip false)
      (shorthand locator fuel) (shorthand locator' fuel') := by
  refine Follows.start (selectionSet_follows locator locator' enough) fun set set' same => .pure ?_
  simpa [SameSet, Operation.strip] using same

/-- A definition does not depend on places, nor on what stands behind it. -/
theorem definition_follows (locator locator' : Locator) (enough : fuel ≤ fuel') :
    Follows true SameDefinition (definition locator fuel) (definition locator' fuel') := by
  refine Follows.peek (fun tokens => by cases tokens <;> rfl) fun left right alike => ?_
  have braces := isPunctuator_placeless "\x7b" left right alike
  have keywords := isWord_placeless "fragment" left right alike
  have names := isName_placeless left right alike
  simp only [braces, keywords, names, alike.text]
  by_cases brace : right.isPunctuator "\x7b" = true
  · simp only [brace, ↓reduceIte]
    refine Follows.start (shorthand_follows locator locator' enough) fun _ _ same => .pure ?_
    simpa [SameDefinition, Definition.strip] using same
  by_cases keyword : right.isWord "fragment" = true
  · simp only [brace, keyword, ↓reduceIte]
    refine Follows.start Follows.advance fun _ _ _ => ?_
    refine (Follows.start (fragment_follows locator locator' left right enough) ?_).loosen
    exact fun _ _ same => .pure (by simpa [SameDefinition, Definition.strip] using same)
  · simp only [brace, keyword]
    cases (if right.isName = true then operationKind? right.text else none) with
    | none => exact .refuse
    | some kind =>
      refine Follows.start Follows.advance fun _ _ _ => ?_
      refine (Follows.start (operation_follows locator locator' left right kind enough) ?_).loosen
      exact fun _ _ same => .pure (by simpa [SameDefinition, Definition.strip] using same)

end Grammar
end QueryStore
