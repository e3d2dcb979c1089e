import QueryStore.Proofs.Token.Brackets

/-! What a definition ends with. Behind the names that it begins with come its variables, its
directives and its selections: groups in parentheses or braces, and signs with a name behind each
(`Tail`). Outside of all brackets there are no other tokens, so that the only names in a row are
the first ones. All brackets of a definition match (`definition_balanced`). -/
namespace QueryStore
open Reader Grammar

/-- What follows the names that a definition begins with: groups, the last of which ends it,
and directives. -/
inductive Tail : List Token → Prop
  | last {run : List Token} (group : Group run) : Tail run
  | group {run rest : List Token} (group : Group run) (behind : Tail rest) : Tail (run ++ rest)
  | directive {sign name : Token} {rest : List Token} (marked : sign.isPunctuator "@" = true)
    (named : name.isName = true) (behind : Tail rest) : Tail (sign :: name :: rest)

/-- Tokens that may stand before what a definition ends with. -/
def Extends (run : List Token) : Prop := ∀ rest, Tail rest → Tail (run ++ rest)

theorem Extends.nil : Extends [] := fun _ tail => tail

theorem Extends.append {left right : List Token} (first : Extends left) (second : Extends right) :
    Extends (left ++ right) := by
  intro rest tail
  rw [List.append_assoc]
  exact first _ (second rest tail)

theorem Group.extends {run : List Token} (group : Group run) : Extends run :=
  fun _ tail => .group group tail

/-- What may be left out, and is in parentheses otherwise. -/
private theorem enclosed_extends {run : List Token}
    (either : run = [] ∨ ∃ inner, Enclosed "(" ")" run inner) : Extends run := by
  rcases either with rfl | ⟨inner, enclosed⟩
  · exact .nil
  · exact (Group.parentheses enclosed).extends

/-- All of the tokens that are taken are the run that was found. -/
private theorem run_eq {run rest : List Token} (whole : rest = run ++ []) : rest = run := by
  rw [whole, List.append_nil]

theorem variables_extend {declared : List Token} {found : List VariableDefinition}
    (stand : VariablesStand declared found) : Extends declared := by
  obtain ⟨fuel, read⟩ := stand.taken
  obtain ⟨run, whole, either⟩ := variableDefinitions_enclosed read
  exact run_eq whole ▸ enclosed_extends either

private theorem directive_extends {fuel : Nat} {tokens rest : List Token} {found : Directive}
    (read : directive fuel tokens = .ok (found, rest)) :
    ∃ run, tokens = run ++ rest ∧ Extends run := by
  obtain ⟨sign, _, signed, naming⟩ := bind_ok.mp read
  obtain ⟨rfl, marked⟩ := satisfying_ok.mp signed
  obtain ⟨name, _, labelled, arguing⟩ := bind_ok.mp naming
  obtain ⟨rfl, named⟩ := satisfying_ok.mp labelled
  obtain ⟨given, _, argued, ⟨⟩⟩ := bind_ok.mp arguing
  obtain ⟨run, rfl, either⟩ := arguments_enclosed argued
  exact ⟨sign :: name :: run, rfl,
    fun later tail => .directive marked named (enclosed_extends either later tail)⟩

private theorem directiveList_extends {size fuel : Nat} {tokens rest : List Token}
    {found : List Directive}
    (read : whileNext (Token.isPunctuator "@") (directive size) fuel tokens = .ok (found, rest)) :
    ∃ run, tokens = run ++ rest ∧ Extends run := by
  induction fuel generalizing tokens found with
  | zero => cases tokens <;> cases read
  | succ fuel ih =>
    obtain ⟨_, _, ⟨⟩, asked⟩ := bind_ok.mp read
    split at asked
    · obtain ⟨first, _, one, others⟩ := bind_ok.mp asked
      obtain ⟨more, _, later, ⟨⟩⟩ := bind_ok.mp others
      obtain ⟨run, rfl, extends'⟩ := directive_extends one
      obtain ⟨run', rfl, extends''⟩ := ih later
      exact ⟨run ++ run', (List.append_assoc ..).symm, extends'.append extends''⟩
    · cases asked
      exact ⟨[], rfl, .nil⟩

theorem directives_extend {annotated : List Token} {found : List Directive}
    (stand : DirectivesStand annotated found) : Extends annotated := by
  obtain ⟨fuel, read⟩ := stand.taken
  obtain ⟨run, whole, extends'⟩ := directiveList_extends read
  exact run_eq whole ▸ extends'

theorem selections_tail {placement : Placement} {below : List Token} {set : SelectionSet}
    (selected : SetStands placement below set) : Tail below := by
  obtain ⟨inner, enclosed⟩ := selected.enclosed
  exact .last (.braces enclosed)

/-- The brackets of what a definition ends with match. -/
theorem Tail.balanced {run : List Token} (tail : Tail run) : Balanced (bracketsOf run) := by
  induction tail with
  | last group => exact group.balanced
  | group group _ ih =>
    rw [bracketsOf_append]
    exact group.balanced.append ih
  | @directive sign name _ marked named _ ih =>
    have bare : "@".toList.filter isBracket = [] := by decide
    rw [bracketsOf_cons, bracketsOf_cons, Token.brackets_of_punctuator marked, bare,
      Token.brackets_of_name named]
    exact ih

section
variable {placement : Placement} {run : List Token}

/-- The brackets of a definition match. -/
theorem definition_balanced {definition : Definition}
    (stands : DefinitionStands placement run definition) : Balanced (bracketsOf run) := by
  have behind : ∀ {names tail : List Token}, (∀ name ∈ names, name.isName = true) → Tail tail →
      Balanced (bracketsOf (names ++ tail)) := by
    intro names tail named tailed
    have bare : bracketsOf names = [] :=
      List.flatMap_eq_nil_iff.mpr fun name member => Token.brackets_of_name (named name member)
    rw [bracketsOf_append, bare]
    exact tailed.balanced
  cases stands with
  | shorthand selected => exact (selections_tail selected).balanced
  | @operation keyword label _ _ _ _ _ _ _ _ worded _ named declares directives selected =>
    have tail := variables_extend declares _ (directives_extend directives _
      (selections_tail selected))
    exact @behind (keyword :: label.toList) _ (List.forall_mem_cons.mpr ⟨worded, by simpa using named⟩)
      tail
  | @fragment keyword name on type _ _ _ _ _ worded named parted typed directives selected =>
    have tail := directives_extend directives _ (selections_tail selected)
    have words : keyword.isName = true ∧ on.isName = true := by
      simp only [Token.isWord, Bool.and_eq_true] at worded parted
      exact ⟨worded.1, parted.1⟩
    exact @behind [keyword, name, on, type] _ (by simp [words, named, typed]) tail

/-- The brackets of definitions in a row match. -/
theorem definitions_balanced {found : List Definition}
    (runs : Runs (DefinitionStands placement) run found) : Balanced (bracketsOf run) := by
  induction runs with
  | nil => exact .nil
  | cons first _ ih =>
    rw [bracketsOf_append]
    exact (definition_balanced first).append ih

/-- Definitions in a row end with a brace. -/
theorem definitions_end {locator : Locator} {found : List Definition}
    (runs : Runs (DefinitionStands (placedBy locator)) run found) (filled : found ≠ []) :
    ∃ closing ∈ run.getLast?, closing.isPunctuator "\x7d" = true := by
  induction runs with
  | nil => exact absurd rfl filled
  | @cons run others definition found stands rest ih =>
    cases rest with
    | nil =>
      obtain ⟨-, -, closing, last, closes, -⟩ := stands.placed
      exact ⟨closing, by rwa [List.append_nil], closes⟩
    | cons =>
      obtain ⟨closing, last, closes⟩ := ih (List.cons_ne_nil _ _)
      exact ⟨closing, List.mem_getLast?_append_of_mem_getLast? last, closes⟩

end

theorem operationKind_ne_fragment {text : String} {kind : OperationKind}
    (means : operationKind? text = some kind) : text ≠ "fragment" := by
  rintro rfl
  simp [operationKind?] at means

end QueryStore
