import QueryStore.Document.Same
import QueryStore.Proofs.Document.Derivation
import QueryStore.Proofs.Fragment.Attaching

/-! Parsed documents equal themselves. Only a float that is not a number is unlike itself, and no
literal stands for one (`floatValue_number`). So every node that the grammar reads equals itself,
below selections and in lists of variables as well (`parsed_selfsame`), and so it does without its
locations. -/
namespace QueryStore
open Reader Grammar

/-- What is bounded by infinity is a number. -/
theorem Number.Binary64.ofMagnitude_number (negative : Bool) (magnitude : Nat) :
    (ofMagnitude negative magnitude).isNaN = false := by
  have bound : min magnitude infinityMagnitude ≤ fractions * 2047 := by
    rw [Nat.mul_comm]
    exact Nat.min_le_right _ _
  have parts := Nat.div_add_mod (min magnitude infinityMagnitude) fractions
  have quotient : min magnitude infinityMagnitude / fractions ≤ 2047 := Nat.div_le_of_le_mul bound
  simp only [isNaN, ofMagnitude, Fin.val_ofNat, Nat.mod_eq_of_lt (Nat.lt_succ_of_le quotient)]
  by_cases top : min magnitude infinityMagnitude / fractions = 2047
  · rw [top] at parts
    have rest : min magnitude infinityMagnitude % fractions = 0 := by omega
    simp [rest]
  · simp [top]

theorem floatValue_number {text : List Char} {value : Number.Binary64}
    (meant : floatValue text = .ok value) : value.isNaN = false := by
  unfold floatValue Number.float? at meant
  split at meant
  · cases meant
  · next number found =>
    cases meant
    simp only [Option.ite_none_left_eq_some, Option.some.injEq] at found
    rw [← found.2]
    exact Number.Binary64.ofMagnitude_number _ _

section
variable {α : Type} {same : α → α → Bool}

theorem sameList_self {items : List α} :
    sameList same items items = true ↔ ∀ item ∈ items, same item item = true := by
  induction items with
  | nil => simp [sameList]
  | cons item items ih => simp [sameList, ih]

end

theorem Value.sameItems_self {items : List Value} :
    Value.sameItems items items = true ↔ ∀ item ∈ items, item.same item = true := by
  induction items with
  | nil => simp [Value.sameItems]
  | cons item items ih => simp [Value.sameItems, ih]

theorem Value.sameMembers_self {members : List (String × Value)} :
    Value.sameMembers members members = true ↔
      ∀ member ∈ members, member.2.same member.2 = true := by
  induction members with
  | nil => simp [Value.sameMembers]
  | cons member members ih => simp [Value.sameMembers, ih]

theorem Value.mem_insertMember {name : String} {value : Value} {members : List (String × Value)}
    {member : String × Value} (inside : member ∈ insertMember name value members) :
    member = (name, value) ∨ member ∈ members := by
  induction members with
  | nil => simpa [insertMember] using inside
  | cons first members ih =>
    obtain ⟨other, held⟩ := first
    simp only [insertMember] at inside
    split at inside
    · exact List.mem_cons.mp inside
    · split at inside
      · exact (List.mem_cons.mp inside).imp_right (List.mem_cons_of_mem _)
      · rcases List.mem_cons.mp inside with rfl | later
        · exact Or.inr List.mem_cons_self
        · exact (ih later).imp_right (List.mem_cons_of_mem _)

private theorem inserted_self {members sorted : List (String × Value)}
    (inside : ∀ member ∈ members, member.2.same member.2 = true)
    (settled : ∀ member ∈ sorted, member.2.same member.2 = true) :
    ∀ member ∈ members.foldl (fun sorted member => Value.insertMember member.1 member.2 sorted)
      sorted, member.2.same member.2 = true := by
  induction members generalizing sorted with
  | nil => exact settled
  | cons first members ih =>
    obtain ⟨own, others⟩ := List.forall_mem_cons.mp inside
    refine ih others fun member within => ?_
    rcases Value.mem_insertMember within with rfl | earlier
    · exact own
    · exact settled member earlier

/-- An object equals itself if all of the members do that were read. -/
theorem objectOf_self {members : List (String × Value)}
    (inside : ∀ member ∈ members, member.2.same member.2 = true) :
    (objectOf members).same (objectOf members) = true := by
  rw [objectOf, Value.same, Value.sameMembers_self]
  exact inserted_self inside fun _ none => absurd none List.not_mem_nil

theorem Operation.same_self {operation : Operation} :
    operation.same operation = true ↔
      sameList VariableDefinition.same operation.variableDefinitions operation.variableDefinitions =
          true ∧
        sameList Directive.same operation.directives operation.directives = true ∧
        operation.selectionSet.same operation.selectionSet = true := by
  simp [Operation.same, and_assoc]

theorem Fragment.same_self {fragment : Fragment} :
    fragment.same fragment = true ↔
      sameList VariableDefinition.same fragment.variableDefinitions fragment.variableDefinitions =
          true ∧
        sameList Directive.same fragment.directives fragment.directives = true ∧
        fragment.selectionSet.same fragment.selectionSet = true := by
  simp [Fragment.same, and_assoc]

namespace Grammar

/-- What a reader comes to has a property. -/
def Yields {α : Type} (property : α → Prop) (reader : Reader α) : Prop :=
  ∀ tokens value rest, reader tokens = .ok (value, rest) → property value

namespace Yields
variable {α β : Type} {property : α → Prop} {property' : β → Prop}

theorem any {reader : Reader α} : Yields (fun _ => True) reader := fun _ _ _ _ => trivial

theorem refuse : Yields property Reader.refuse := by
  intro tokens value rest read
  cases tokens <;> cases read

theorem pure {value : α} (holds : property value) : Yields property (Pure.pure value) := by
  rintro tokens _ rest ⟨⟩
  exact holds

theorem bind {reader : Reader α} {next : α → Reader β} (first : Yields property reader)
    (later : ∀ value, property value → Yields property' (next value)) :
    Yields property' (reader >>= next) := by
  intro tokens value rest read
  obtain ⟨found, middle, one, other⟩ := bind_ok.mp read
  exact later found (first _ _ _ one) _ _ _ other

theorem convert {token : Token} {result : Except ValueError α}
    (holds : ∀ value, result = .ok value → property value) :
    Yields property (Reader.convert token result) := by
  intro tokens value rest read
  cases result with
  | error => cases read
  | ok found =>
    cases read
    exact holds _ rfl

variable {item : Reader α} (items : Yields property item) {fuel : Nat}
include items

theorem whileNext {test : Token → Bool} :
    Yields (fun found => ∀ value ∈ found, property value) (Reader.whileNext test item fuel) := by
  induction fuel with
  | zero => exact .refuse
  | succ fuel ih =>
    refine any.bind fun passes _ => ?_
    cases passes with
    | false => exact .pure (by simp)
    | true =>
      refine items.bind fun value holds => ih.bind fun others rest => .pure ?_
      exact List.forall_mem_cons.mpr ⟨holds, rest⟩

theorem untilClosing {closing : String} :
    Yields (fun found => ∀ value ∈ found.1, property value)
      (Reader.untilClosing closing item fuel) := by
  induction fuel with
  | zero => exact .refuse
  | succ fuel ih =>
    refine any.bind fun closes _ => ?_
    cases closes with
    | true => exact any.bind fun last _ => .pure (by simp)
    | false =>
      refine items.bind fun value holds => ih.bind fun others rest => .pure ?_
      exact List.forall_mem_cons.mpr ⟨holds, rest⟩

theorem someUntilClosing {closing : String} :
    Yields (fun found => ∀ value ∈ found.1, property value)
      (Reader.someUntilClosing closing item fuel) := by
  refine items.bind fun value holds => items.untilClosing.bind fun others rest => .pure ?_
  exact List.forall_mem_cons.mpr ⟨holds, rest⟩

theorem named : Yields (fun found => property found.2) (Grammar.named item) :=
  any.bind fun _ _ => any.bind fun _ _ => items.bind fun _ holds => .pure holds

end Yields

theorem value_selfsame (withVariables : Bool) (fuel : Nat) :
    Yields (fun found => found.same found = true) (value withVariables fuel) := by
  -- The readers of lists and objects read their items with less fuel.
  induction fuel with
  | zero => exact .refuse
  | succ fuel ih =>
    refine Yields.any.bind fun next _ => ?_
    cases next with
    | none => exact .refuse
    | some token =>
      have word : (wordValue token.text).same (wordValue token.text) = true := by
        unfold wordValue
        split_ifs <;> simp [Value.same]
      simp only
      split
      · exact Yields.any.bind fun _ _ => .pure word
      · exact Yields.any.bind fun _ _ => Yields.any.bind fun _ _ => .pure (by rw [Value.same]; simp)
      · refine Yields.any.bind fun _ _ => (Yields.convert fun found => floatValue_number).bind
          fun number holds => .pure ?_
        simp [Value.same, Number.Binary64.sameValue, holds]
      · exact Yields.any.bind fun _ _ => Yields.any.bind fun _ _ => .pure (by rw [Value.same]; simp)
      · refine Yields.any.bind fun _ _ => fun tokens found rest read => ?_
        unfold blockString at read
        split at read
        · cases read
          simp [Value.same]
        · cases read
      · split_ifs
        · refine Yields.any.bind fun _ _ => ih.untilClosing.bind fun items inside => .pure ?_
          rw [Value.same]
          exact Value.sameItems_self.mpr inside
        · exact Yields.any.bind fun _ _ => ih.named.untilClosing.bind fun members inside =>
            .pure (objectOf_self inside)
        · exact Yields.any.bind fun _ _ => Yields.any.bind fun _ _ =>
            .pure (by rw [Value.same]; simp)
        · exact .refuse

theorem argument_selfsame (fuel : Nat) :
    Yields (fun found => found.same found = true) (argument fuel) :=
  (value_selfsame true fuel).named.bind fun _ holds => .pure (by simpa [Argument.same] using holds)

theorem arguments_selfsame (fuel : Nat) :
    Yields (fun found => sameList Argument.same found found = true) (arguments fuel) := by
  refine Yields.any.bind fun opened _ => ?_
  cases opened with
  | false => exact .pure rfl
  | true =>
    exact (argument_selfsame fuel).someUntilClosing.bind fun _ inside =>
      Yields.pure (sameList_self.mpr inside)

theorem directive_selfsame (fuel : Nat) :
    Yields (fun found => found.same found = true) (directive fuel) :=
  Yields.any.bind fun _ _ => Yields.any.bind fun _ _ => (arguments_selfsame fuel).bind
    fun _ given => .pure (by simpa [Directive.same] using given)

theorem directives_selfsame (fuel : Nat) :
    Yields (fun found => sameList Directive.same found found = true) (directives fuel) :=
  fun tokens found rest read =>
    sameList_self.mpr ((directive_selfsame fuel).whileNext tokens found rest read)

theorem variableDefinition_selfsame (fuel : Nat) :
    Yields (fun found => found.same found = true) (variableDefinition fuel) := by
  refine Yields.any.bind fun _ _ => Yields.any.bind fun _ _ => Yields.any.bind fun given _ => ?_
  cases given with
  | false => exact .pure (by simp [VariableDefinition.same, sameOption])
  | true =>
    intro tokens definition rest read
    obtain ⟨_, _, defaulted, ⟨⟩⟩ := bind_ok.mp read
    obtain ⟨value, found, rfl⟩ := map_ok.mp defaulted
    have own := value_selfsame false fuel _ _ _ found
    simp [VariableDefinition.same, sameOption, own]

theorem variableDefinitions_selfsame (fuel : Nat) :
    Yields (fun found => sameList VariableDefinition.same found found = true)
      (variableDefinitions fuel) := by
  refine Yields.any.bind fun opened _ => ?_
  cases opened with
  | false => exact .pure rfl
  | true =>
    exact (variableDefinition_selfsame fuel).someUntilClosing.bind fun _ inside =>
      Yields.pure (sameList_self.mpr inside)

/-- What is taken as a whole has what the reader yields. -/
theorem Yields.taken {α : Type} {property : α → Prop} {reader : Nat → Reader α}
    (yields : ∀ fuel, Yields property (reader fuel)) {run : List Token} {found : α}
    (taken : Takes reader run found) : property found := by
  obtain ⟨fuel, read⟩ := taken
  exact yields fuel _ _ _ read

/-- A set of selections that stands in tokens equals itself. -/
theorem SetStands.selfsame {placement : Placement} {run : List Token} {set : SelectionSet}
    (stands : SetStands placement run set) : set.same set = true := by
  -- By induction on the tree: a node equals itself if its parts do.
  refine @SetStands.rec placement (fun _ selection _ => selection.same selection = true)
    (fun _ set _ => set.same set = true)
    (fun _ selections _ => sameList Selection.same selections selections = true)
    ?leaf ?branch ?spread ?inlineFragment ?braces ?nil ?cons _ _ stands
  case leaf =>
    intro label given annotated responseAlias name found annotations labelled arguments directives
    have own := Yields.taken arguments_selfsame arguments
    have own' := Yields.taken directives_selfsame directives.taken
    simp [Selection.same, Field.same, own, own']
  case branch =>
    intro label given annotated below responseAlias name found annotations set location labelled
      arguments directives selected placed same
    have own := Yields.taken arguments_selfsame arguments
    have own' := Yields.taken directives_selfsame directives.taken
    simp [Selection.same, Field.same, own, own', same]
  case spread =>
    intro dots name annotated annotations dotted named other directives
    have own := Yields.taken directives_selfsame directives.taken
    simp [Selection.same, FragmentSpread.same, own]
  case inlineFragment =>
    intro dots typed annotated below condition annotations set location dotted conditioned
      directives selected placed same
    have own := Yields.taken directives_selfsame directives.taken
    simp [Selection.same, InlineFragment.same, own, same]
  case braces =>
    intro opening closing inner selections location opens closes filled inside placed same
    simp [SelectionSet.same, same]
  case nil => rfl
  case cons =>
    intro run others selection selections _ _ first rest
    simp [sameList, first, rest]

theorem DefinitionStands.selfsame {placement : Placement} {run : List Token}
    {definition : Definition} (stands : DefinitionStands placement run definition) :
    definition.same definition = true := by
  cases stands with
  | shorthand selected => exact Operation.same_self.mpr ⟨rfl, rfl, selected.selfsame⟩
  | operation _ _ _ declares directives selected =>
    have own := Yields.taken variableDefinitions_selfsame declares.taken
    have own' := Yields.taken directives_selfsame directives.taken
    exact Operation.same_self.mpr ⟨own, own', selected.selfsame⟩
  | fragment _ _ _ _ directives selected =>
    have own := Yields.taken directives_selfsame directives.taken
    exact Fragment.same_self.mpr ⟨rfl, own, selected.selfsame⟩

/-- Definitions that were read equal themselves, wherever they are located. -/
theorem read_selfsame {locator : Locator} {text : List Char} {found : List Definition}
    (read : readDefinitions locator text = .ok found) :
    ∀ definition ∈ found, definition.same definition = true := by
  obtain ⟨-, runs⟩ := readDefinitions_stand (placedBy_locates locator _) read
  intro definition member
  obtain ⟨_, -, stands⟩ := runs.exists_of_mem member
  exact stands.selfsame

end Grammar

/-- Variables that were read from a list equal themselves. -/
theorem VariableList.parse_selfsame {list : VariableList} {entry : Nat × List VariableDefinition}
    (parsed : list.parse = .ok entry) :
    sameList VariableDefinition.same entry.2 entry.2 = true := by
  unfold VariableList.parse at parsed
  split at parsed
  · cases parsed
  · next definitions read =>
    cases parsed
    unfold firstVariables
    split
    · rfl
    · next operation first =>
      obtain ⟨definition, member, asked⟩ := List.exists_of_findSome?_eq_some first
      have own := read_selfsame read definition member
      cases definition with
      | fragment fragment => cases asked
      | operation found =>
        cases asked
        exact (Operation.same_self.mp own).1

/-- Fragments still equal themselves when they are given variables that do. -/
theorem attached_selfsame {found : List Definition} {table : VariableTable}
    (own : ∀ definition ∈ found, definition.same definition = true)
    (listed : ∀ entry ∈ table, sameList VariableDefinition.same entry.2 entry.2 = true) :
    ∀ definition ∈ attachVariables table found, definition.same definition = true := by
  induction found generalizing table with
  | nil => simp [attachVariables]
  | cons definition found ih =>
    obtain ⟨here, later⟩ := List.forall_mem_cons.mp own
    cases definition with
    | operation operation => exact List.forall_mem_cons.mpr ⟨here, ih later listed⟩
    | fragment fragment =>
      unfold attachVariables
      split
      · exact List.forall_mem_cons.mpr ⟨here, ih later listed⟩
      · next definitions given =>
        obtain ⟨location, -, entry⟩ := Option.bind_eq_some_iff.mp given
        obtain ⟨before, after, rfl, -⟩ := List.lookup_eq_some_iff.mp entry
        have given' := listed (location.start, definitions) (by simp)
        obtain ⟨-, annotated, selected⟩ := Fragment.same_self.mp here
        refine List.forall_mem_cons.mpr ⟨Fragment.same_self.mpr ⟨given', annotated, selected⟩,
          ih later fun entry member => listed entry (List.mem_of_mem_filter member)⟩

/-- A document that was parsed equals itself. -/
theorem parsed_selfsame {options : ParseOptions} {source : String} {document : Document}
    (parsed : Document.parse options source = .ok document) :
    ∀ definition ∈ document.definitions, definition.same definition = true := by
  obtain ⟨text, table, found, prepared, read, rfl⟩ := parse_ok parsed
  refine attached_selfsame (read_selfsame read) fun entry member => ?_
  obtain ⟨enabled⟩ := options
  cases enabled with
  | false =>
    cases prepared
    cases member
  | true =>
    obtain ⟨pieces, -, -, lists⟩ := prepare_pieces.mp prepared
    obtain ⟨list, -, here⟩ := forall₂_mem_left lists.flip member
    exact VariableList.parse_selfsame here

section
variable (keep : Bool)

theorem sameList_map {α : Type} {same : α → α → Bool} {change : α → α} (items : List α)
    (kept : ∀ item ∈ items, same (change item) (change item) = same item item) :
    sameList same (items.map change) (items.map change) = sameList same items items := by
  induction items with
  | nil => rfl
  | cons item items ih =>
    obtain ⟨here, later⟩ := List.forall_mem_cons.mp kept
    simp only [List.map_cons, sameList, here, ih later]

theorem Directive.same_strip (directive : Directive) :
    (directive.strip keep).same (directive.strip keep) = directive.same directive := by
  simp [Directive.same, Directive.strip]

theorem VariableDefinition.same_strip (definition : VariableDefinition) :
    (definition.strip keep).same (definition.strip keep) = definition.same definition := by
  simp [VariableDefinition.same, VariableDefinition.strip]

private theorem directives_strip (directives : List Directive) :
    sameList Directive.same (directives.map (Directive.strip false))
      (directives.map (Directive.strip false)) = sameList Directive.same directives directives :=
  sameList_map directives fun directive _ => directive.same_strip false

private theorem variables_strip (definitions : List VariableDefinition) :
    sameList VariableDefinition.same (definitions.map (VariableDefinition.strip false))
        (definitions.map (VariableDefinition.strip false)) =
      sameList VariableDefinition.same definitions definitions :=
  sameList_map definitions fun definition _ => definition.same_strip false

private theorem selections_same_strip :
    (∀ selection : Selection, ∀ keep,
      (selection.strip keep).same (selection.strip keep) = selection.same selection) ∧
    ∀ set : SelectionSet, ∀ keep, (set.strip keep).same (set.strip keep) = set.same set := by
  refine Selection.induct ?leaf ?branch ?spread ?inlineFragment ?set
  case leaf =>
    intro responseAlias name arguments directives location keep
    simp [Selection.strip, Field.strip, Selection.same, Field.same, directives_strip]
  case branch =>
    intro responseAlias name arguments directives set location below keep
    simp [Selection.strip, Field.strip, Selection.same, Field.same, directives_strip, below]
  case spread =>
    intro spread keep
    simp [Selection.strip, Selection.same, FragmentSpread.strip, FragmentSpread.same,
      directives_strip]
  case inlineFragment =>
    intro typeCondition directives set location below keep
    simp [Selection.strip, InlineFragment.strip, Selection.same, InlineFragment.same,
      directives_strip, below]
  case set =>
    intro selections location inside keep
    simp [SelectionSet.strip, SelectionSet.same,
      sameList_map selections fun selection member => inside selection member false]

theorem SelectionSet.same_strip (set : SelectionSet) :
    (set.strip keep).same (set.strip keep) = set.same set :=
  selections_same_strip.2 set keep

end

/-- Without its locations a definition still equals itself, if it does. -/
theorem Definition.same_strip (keep : Bool) : ∀ definition : Definition,
    (definition.strip keep).same (definition.strip keep) = definition.same definition
  | .operation node => by
    simp [Definition.strip, Definition.same, Operation.strip, Operation.same, variables_strip,
      directives_strip, SelectionSet.same_strip]
  | .fragment node => by
    simp [Definition.strip, Definition.same, Fragment.strip, Fragment.same, variables_strip,
      directives_strip, SelectionSet.same_strip]

end QueryStore
