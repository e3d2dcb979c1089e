import QueryStore.Proofs.Fragment.Excised
import QueryStore.Proofs.Fragment.Faithful

/-! Variables on their way from the lists in a text to its fragments. Every list is parsed into
the entry of a table, under the offset of the keyword before it, and no two lists have one offset
(`Cuts.ordered`); so a list is found again by its offset (`lookup_parsed`). Fragments that begin
at different offsets each get what the table has for theirs (`attachVariables_eq`). -/
namespace QueryStore
open Text

/-- The offset at which a fragment begins. -/
def Fragment.start? (fragment : Fragment) : Option Nat := fragment.location.map Location.start

/-- A fragment with the variables that a table has for its beginning, if any. -/
def Fragment.given (table : VariableTable) (fragment : Fragment) : Fragment :=
  match fragment.start?.bind fun start => table.lookup start with
  | none => fragment
  | some definitions => { fragment with variableDefinitions := definitions }

/-- A definition with the variables that a table has for its beginning, if it is a fragment. -/
def Definition.given (table : VariableTable) : Definition → Definition
  | .operation node => .operation node
  | .fragment node => .fragment (node.given table)

theorem Fragment.given_name (table : VariableTable) (fragment : Fragment) :
    (fragment.given table).name = fragment.name := by
  unfold Fragment.given
  split <;> rfl

theorem Fragment.given_location (table : VariableTable) (fragment : Fragment) :
    (fragment.given table).location = fragment.location := by
  unfold Fragment.given
  split <;> rfl

/-- Without the entries of one offset a table is the same for the others. -/
theorem lookup_unused {table : VariableTable} {used : Option Nat} {start : Nat}
    (other : used ≠ some start) :
    (table.filter fun entry => some entry.1 ≠ used).lookup start = table.lookup start := by
  induction table with
  | nil => rfl
  | cons entry table ih =>
    obtain ⟨offset, definitions⟩ := entry
    by_cases same : some offset = used
    · have differ : (start == offset) = false := by
        refine beq_false_of_ne ?_
        rintro rfl
        exact other same.symm
      rw [List.filter_cons_of_neg (by simpa using same), ih, List.lookup_cons, differ]
    · rw [List.filter_cons_of_pos (by simpa using same), List.lookup_cons, List.lookup_cons, ih]

/-- Without the entries of one offset a table gives the same to fragments that begin elsewhere. -/
theorem Fragment.given_unused {table : VariableTable} {used : Option Nat} {fragment : Fragment}
    (other : used ≠ fragment.start?) :
    fragment.given (table.filter fun entry => some entry.1 ≠ used) = fragment.given table := by
  have unused : (fragment.start?.bind fun start => (table.filter fun entry =>
      some entry.1 ≠ used).lookup start) = fragment.start?.bind fun start => table.lookup start := by
    cases start : fragment.start? with
    | none => rfl
    | some start' => exact lookup_unused (start ▸ other)
  simp only [Fragment.given, unused]

/-- Fragments that begin at different offsets get what the table has for theirs. -/
theorem attachVariables_eq {table : VariableTable} {found : List Definition}
    (apart : ((fragmentsOf found).map Fragment.start?).Nodup) :
    attachVariables table found = found.map (Definition.given table) := by
  induction found generalizing table with
  | nil => rfl
  | cons definition found ih =>
    cases definition with
    | operation operation =>
      have rest : attachVariables table found = found.map (Definition.given table) := ih apart
      exact congrArg (Definition.operation operation :: ·) rest
    | fragment fragment =>
      obtain ⟨here, later⟩ := List.nodup_cons.mp
        (show (fragment.start? :: (fragmentsOf found).map Fragment.start?).Nodup from apart)
      have bound : (fragment.location.bind fun location => table.lookup location.start) =
          fragment.start?.bind fun start => table.lookup start := by
        cases location : fragment.location <;> simp [Fragment.start?, location]
      unfold attachVariables
      rw [bound]
      cases listed : fragment.start?.bind fun start => table.lookup start with
      | none =>
        have same : fragment.given table = fragment := by simp only [Fragment.given, listed]
        exact List.cons_eq_cons.mpr ⟨congrArg Definition.fragment same.symm, ih later⟩
      | some definitions =>
        have same : fragment.given table = { fragment with variableDefinitions := definitions } := by
          simp only [Fragment.given, listed]
        -- Only the entries for this beginning are used up, and no other fragment begins there.
        refine List.cons_eq_cons.mpr ⟨congrArg Definition.fragment same.symm,
          (ih later).trans (List.map_congr_left fun other member => ?_)⟩
        cases other with
        | operation operation => rfl
        | fragment other =>
          have differ : fragment.start? ≠ other.start? :=
            fun same => here (same ▸ List.mem_map_of_mem (mem_fragmentsOf.mpr member))
          exact congrArg Definition.fragment (Fragment.given_unused differ)

theorem fragmentsOf_given (table : VariableTable) (found : List Definition) :
    fragmentsOf (found.map (Definition.given table)) =
      (fragmentsOf found).map (Fragment.given table) := by
  rw [fragmentsOf, fragmentsOf, List.filterMap_map, List.map_filterMap]
  refine List.filterMap_congr fun definition _ => ?_
  cases definition <;> rfl

/-- Lists are parsed one by one. -/
theorem mapM_parse {lists : List VariableList} {table : VariableTable} :
    lists.mapM VariableList.parse = .ok table ↔
      List.Forall₂ (fun list entry => list.parse = .ok entry) lists table := by
  induction lists generalizing table with
  | nil =>
    rw [List.forall₂_nil_left_iff]
    exact ⟨fun parsed => by cases parsed; rfl, fun none => none ▸ rfl⟩
  | cons list lists ih =>
    rw [List.mapM_cons, List.forall₂_cons_left_iff]
    constructor
    · intro parsed
      cases first : list.parse with
      | error failure =>
        rw [first] at parsed
        cases parsed
      | ok entry =>
        cases others : lists.mapM VariableList.parse with
        | error failure =>
          rw [first, others] at parsed
          cases parsed
        | ok entries =>
          rw [first, others] at parsed
          cases parsed
          exact ⟨entry, entries, rfl, ih.mp others, rfl⟩
    · rintro ⟨entry, entries, first, others, rfl⟩
      rw [first, ih.mpr others]
      rfl

/-- With variables of fragments enabled, a text is cut into pieces and the lists are parsed. -/
theorem prepare_pieces {source : String} {text : List Char} {table : VariableTable} :
    Document.prepare ⟨true⟩ source = .ok (text, table) ↔
      ∃ found, pieces source.toList = .ok found ∧ text = blankedText found ∧
        List.Forall₂ (fun list entry => list.parse = .ok entry) (variableLists found) table := by
  simp only [Document.prepare, ↓reduceIte, separateVariables]
  cases pieces source.toList with
  | error name => simp
  | ok found =>
    simp only [Except.ok.injEq, exists_eq_left', ← mapM_parse]
    cases (variableLists found).mapM VariableList.parse with
    | error failure => simp [bind, Except.bind]
    | ok entries => simp [bind, Except.bind, pure, Except.pure, eq_comm]

/-- A list is entered under the offset of its keyword. -/
theorem VariableList.parse_offset {list : VariableList} {entry : Nat × List VariableDefinition}
    (parsed : list.parse = .ok entry) : entry.1 = list.keywordOffset := by
  unfold VariableList.parse at parsed
  split at parsed
  · cases parsed
  · cases parsed
    rfl

section
variable {lists : List VariableList} {table : VariableTable}
  (parsed : List.Forall₂ (fun list entry => list.parse = .ok entry) lists table)
include parsed

/-- What a table has for an offset was parsed from a list. -/
theorem parsed_of_lookup {start : Nat} {definitions : List VariableDefinition}
    (found : table.lookup start = some definitions) :
    ∃ list ∈ lists, list.keywordOffset = start ∧ list.parse = .ok (start, definitions) := by
  obtain ⟨before, after, rfl, -⟩ := List.lookup_eq_some_iff.mp found
  obtain ⟨list, member, same⟩ := forall₂_mem_left parsed.flip (List.mem_append_right before
    (List.mem_cons_self))
  exact ⟨list, member, (VariableList.parse_offset same).symm, same⟩

/-- The table has what was parsed from a list, if the lists have offsets of their own. -/
theorem lookup_parsed (apart : lists.Pairwise (·.keywordOffset < ·.keywordOffset))
    {list : VariableList} (member : list ∈ lists) :
    ∃ definitions, table.lookup list.keywordOffset = some definitions ∧
      list.parse = .ok (list.keywordOffset, definitions) := by
  induction parsed with
  | nil => cases member
  | @cons first entry lists table here others ih =>
    obtain ⟨offset, definitions⟩ := entry
    obtain rfl : offset = first.keywordOffset := VariableList.parse_offset here
    obtain ⟨before, apart'⟩ := List.pairwise_cons.mp apart
    rcases List.mem_cons.mp member with rfl | later
    · exact ⟨definitions, by simp, here⟩
    · obtain ⟨found, listed, same⟩ := ih apart' later
      have differ : (list.keywordOffset == first.keywordOffset) = false :=
        beq_false_of_ne (Nat.ne_of_gt (before list later))
      exact ⟨found, by rw [List.lookup_cons, differ, listed], same⟩

end

/-- The keywords of lists stand in the order of the lists. Those of the lists behind a spot are
among the recent names there, or behind it. -/
theorem Cuts.ordered {spot : Spot} {chunks : List Chunk} {found : List Piece}
    (cuts : Cuts spot chunks found) (bound : ∀ name ∈ spot.recent, name.1 ≤ spot.offset) :
    (variableLists found).Pairwise (·.keywordOffset < ·.keywordOffset) ∧
      ∀ list ∈ variableLists found,
        (∃ name ∈ spot.recent, name.1 = list.keywordOffset) ∨ spot.offset ≤ list.keywordOffset := by
  induction cuts with
  | done => exact ⟨.nil, by simp [variableLists]⟩
  | @keep spot chunk chunks found shut later ih =>
    have onward : spot.offset ≤ (spot.past chunk).offset := Nat.le_add_right ..
    have recent : ∀ name ∈ (spot.past chunk).recent, name ∈ spot.recent ∨ name.1 = spot.offset := by
      intro name member
      cases chunk with
      | ignored | comment => exact Or.inl member
      | name text =>
        rcases List.mem_cons.mp member with rfl | known
        · exact Or.inr rfl
        · exact Or.inl known
      | string | dollar | mark => cases member
    obtain ⟨apart, behind⟩ := ih fun name member => by
      rcases recent name member with known | here
      · exact Nat.le_trans (bound name known) onward
      · exact here ▸ onward
    refine ⟨apart, fun list member => ?_⟩
    rcases behind list member with ⟨name, known, same⟩ | after
    · rcases recent name known with known' | here
      · exact Or.inl ⟨name, known', same⟩
      · exact Or.inr (Nat.le_of_eq (here.symm.trans same))
    · exact Or.inr (Nat.le_trans onward after)
  | @excise spot keyword name chunks list rest found opens closed later ih =>
    obtain ⟨apart, behind⟩ := ih (by simp)
    have known : ∃ name ∈ spot.recent, name.1 = keyword := by
      have opens' : spot.heading? = some (keyword, name) := opens
      unfold Spot.heading? at opens'
      split at opens'
      · obtain ⟨_, word, _, whole, -⟩ := RecentNames.heading_eq_some.mp opens'
        exact ⟨(keyword, word), by simp [whole], rfl⟩
      · cases opens'
    obtain ⟨word, recent, rfl⟩ := known
    have filled : 0 < byteLength ('(' :: Chunk.textOf list) := Nat.add_pos_left (by decide) _
    have behind' : ∀ other ∈ variableLists found,
        spot.offset + byteLength ('(' :: Chunk.textOf list) ≤ other.keywordOffset :=
      fun other member => (behind other member).resolve_left (by simp)
    have early := bound word recent
    refine ⟨List.pairwise_cons.mpr ⟨fun other member => ?_, apart⟩, fun other member => ?_⟩
    · have after := behind' other member
      change word.1 < _
      omega
    · rcases List.mem_cons.mp member with rfl | member'
      · exact Or.inl ⟨word, recent, rfl⟩
      · have after := behind' other member'
        exact Or.inr (by omega)

end QueryStore
