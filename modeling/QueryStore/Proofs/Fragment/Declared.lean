import QueryStore.Proofs.Fragment.Attached
import QueryStore.Proofs.Fragment.Recovered

/-! Lists of variables are accepted behind the names of any fragments of a text
(`variables_inserted`): the lists are found again, the rest of the text is read as it was, though
its definitions begin elsewhere (`Definition.Moves`), and every fragment gets what the query with
its list declares (`lookup_chosen`). -/
namespace QueryStore
open Text Grammar

/-- The offset behind the name of a fragment, which is the token behind the one that the fragment
begins with. -/
def nameStop (source : String) (fragment : Fragment) : Nat :=
  match (TokenStream.ofText source.toList).tokens.dropWhile fun token =>
      some token.place.offset ≠ fragment.start? with
  | _ :: name :: _ => name.stop
  | _ => 0

/-- The lists of the chosen ones of the fragments of a source, where they are put in. -/
def insertions (source : String) (chosen : Fragment → Option (List Char))
    (fragments : List Fragment) : List (Nat × List Char) :=
  chosenPoints chosen (nameStop source) fragments

/-- A source with lists right behind the names of the chosen ones of its fragments. -/
def insertLists (source : String) (chosen : Fragment → Option (List Char))
    (fragments : List Fragment) : String :=
  String.ofList (insertAll 0 source.toList (insertions source chosen fragments))

/-- A fragment with the variables that the query with its list has, if it is chosen. -/
def Fragment.declare (chosen : Fragment → Option (List Char)) (fragment : Fragment) : Fragment :=
  match chosen fragment with
  | none => fragment
  | some list => { fragment with variableDefinitions := declarations list }

def Definition.declare (chosen : Fragment → Option (List Char)) : Definition → Definition
  | .operation node => .operation node
  | .fragment node => .fragment (node.declare chosen)

/-- A document whose chosen fragments have the variables of their lists. -/
def Document.declare (chosen : Fragment → Option (List Char)) (document : Document) : Document :=
  { document with definitions := document.definitions.map (Definition.declare chosen) }

/-- A fragment that begins with a token has its name behind the token. -/
theorem nameStop_eq {source : String} {fragment : Fragment} {keyword name : Token}
    {others : List Token}
    (within : keyword :: name :: others <:+: (TokenStream.ofText source.toList).tokens)
    (start : fragment.start? = some keyword.place.offset) : nameStop source fragment = name.stop := by
  obtain ⟨front, back, split⟩ := within
  rw [List.append_assoc] at split
  have rise := tokens_rise source.toList
  rw [← split] at rise
  obtain ⟨-, -, before⟩ := List.pairwise_append.mp rise
  have skipped : ∀ token ∈ front, decide (some token.place.offset ≠ fragment.start?) = true := by
    intro token member
    have early := before token member keyword (by simp)
    simpa [start] using Nat.ne_of_lt early
  rw [nameStop, ← split, List.dropWhile_append_of_pos skipped, List.cons_append,
    List.dropWhile_cons_of_neg (by simp [start])]
  rfl

/-- In a straight text a fragment begins where its first token stands, and then has its name. -/
theorem FragmentStands.named {source : String} {run : List Token} {fragment : Fragment}
    (straight : Straight source.toList)
    (within : run <:+: (TokenStream.ofText source.toList).tokens)
    (stands : FragmentStands source run fragment) :
    ∃ keyword name others, run = keyword :: name :: others ∧ name.isName = true ∧
      fragment.start? = some keyword.place.offset ∧ nameStop source fragment = name.stop := by
  obtain ⟨keyword, name, others, split, -, start, -⟩ := FragmentStands.begins stands
  have named : name.isName = true := by
    cases stands with
    | fragment _ named =>
      cases split
      exact named
  subst split
  rw [Token.offsetByPosition,
    position_offset straight (within.subset List.mem_cons_self)] at start
  exact ⟨keyword, name, others, rfl, named, start, nameStop_eq within start⟩

/-- Lists of variables are entered with what they declare. -/
theorem mapM_declares {lists : List VariableList} (declares : ∀ list ∈ lists, Declares list.text) :
    lists.mapM VariableList.parse =
      .ok (lists.map fun list => (list.keywordOffset, declarations list.text)) := by
  induction lists with
  | nil => rfl
  | cons list lists ih =>
    obtain ⟨here, others⟩ := List.forall_mem_cons.mp declares
    have parsed : list.parse = .ok (list.keywordOffset, declarations list.text) := here.parse _ _
    rw [List.mapM_cons, parsed, ih others]
    rfl

/-- What fragments are given that begin at different offsets. -/
theorem lookup_chosen {chosen : Fragment → Option (List Char)} {start : Fragment → Nat}
    {fragments : List Fragment} (apart : fragments.Pairwise (start · ≠ start ·)) :
    ∀ fragment ∈ fragments, ((chosenLists chosen start fragments).map fun list =>
      (list.keywordOffset, declarations list.text)).lookup (start fragment) =
        (chosen fragment).map declarations := by
  induction fragments with
  | nil => simp
  | cons first fragments ih =>
    obtain ⟨differ, apart'⟩ := List.pairwise_cons.mp apart
    cases choice : chosen first with
    | none =>
      have lists : chosenLists chosen start (first :: fragments) =
          chosenLists chosen start fragments :=
        List.filterMap_cons_none (by rw [choice, Option.map_none])
      rw [lists]
      refine List.forall_mem_cons.mpr ⟨?_, ih apart'⟩
      rw [choice, Option.map_none, List.lookup_eq_none_iff]
      intro entry member
      obtain ⟨list, listed, rfl⟩ := List.mem_map.mp member
      obtain ⟨other, member', chosen'⟩ := List.mem_filterMap.mp listed
      obtain ⟨_, -, rfl⟩ := Option.map_eq_some_iff.mp chosen'
      exact bne_iff_ne.mpr (differ other member')
    | some list =>
      have lists : chosenLists chosen start (first :: fragments) =
          ⟨first.name, start first, list⟩ :: chosenLists chosen start fragments :=
        List.filterMap_cons_some (by rw [choice, Option.map_some])
      rw [lists, List.map_cons]
      refine List.forall_mem_cons.mpr ⟨by simp [choice], fun other member => ?_⟩
      have other' : (start other == start first) = false :=
        beq_false_of_ne (differ other member).symm
      rw [List.lookup_cons, other']
      exact ih apart' other member

/-- The variables that are found in a source behind the names of the chosen ones of its fragments,
entered where the fragments are moved to. -/
def chosenTable (source : String) (chosen : Fragment → Option (List Char))
    (fragments : List Fragment) : VariableTable :=
  (chosenLists chosen (fun fragment =>
      moved (insertions source chosen fragments) (fragment.start?.getD 0)) fragments).map
    fun list => (list.keywordOffset, declarations list.text)

/-- Definitions that differ in their locations only, the one beginning where the beginning of the
other is moved to. -/
structure Definition.Moves (points : List (Nat × List Char)) (left right : Definition) : Prop where
  same : SameDefinition left right
  start : right.location.map Location.start =
    (left.location.map Location.start).map (moved points)

/-- A definition begins where the position of its first token leads. -/
theorem definition_begins {source : String} {size : Nat} {taken others : List Token}
    {found : Definition}
    (read : definition (.ofPositions source) size (taken ++ others) = .ok (found, others)) :
    ∃ first more, taken = first :: more ∧
      found.location.map Location.start = some (first.offsetByPosition source.toList) := by
  obtain ⟨run, split, stands⟩ :=
    definition_stands (placedBy_locates (.ofPositions source) _) _ _ _ (List.suffix_refl _) read
  obtain rfl := List.append_cancel_right split
  obtain ⟨first, head, closing, -, -, placed⟩ := stands.placed
  obtain ⟨more, rfl⟩ := List.head?_eq_some_iff.mp head
  exact ⟨first, more, rfl, by rw [placed]; rfl⟩

private theorem forall₂_behind {α β : Type} {R : α → β → Prop} {left front back : List α}
    {right front' back' : List β} (related : List.Forall₂ R left right)
    (split : left = front ++ back) (split' : right = front' ++ back')
    (length : front.length = front'.length) : List.Forall₂ R back back' := by
  subst split split'
  have later := List.forall₂_drop_append _ _ _ related
  rwa [← length, List.drop_left] at later

/-- What a definition is given behind the moves is what it declares, locations apart. -/
theorem Definition.Moves.given {points : List (Nat × List Char)} {left right : Definition}
    {table : VariableTable} {chosen : Fragment → Option (List Char)}
    (moves : Definition.Moves points left right)
    (entered : ∀ fragment ∈ left.asFragment, ∃ start, fragment.start? = some start ∧
      table.lookup (moved points start) = (chosen fragment).map declarations) :
    (right.given table).strip false = (left.declare chosen).strip false := by
  obtain ⟨same, start⟩ := moves
  cases left with
  | operation operation =>
    cases right with
    | operation operation' => exact same.symm
    | fragment fragment' => cases same
  | fragment fragment =>
    cases right with
    | operation operation' => cases same
    | fragment fragment' =>
      have same' : fragment.strip false = fragment'.strip false := by
        simpa [SameDefinition, Definition.strip] using same
      obtain ⟨offset, begins, listed⟩ := entered fragment rfl
      have begins' : fragment'.start? = some (moved points offset) := by
        have moved' : fragment'.start? = fragment.start?.map (moved points) := start
        rw [moved', begins]
        rfl
      refine congrArg Definition.fragment ?_
      unfold Fragment.given Fragment.declare
      rw [begins', Option.bind_some, listed]
      cases chosen fragment with
      | none => exact same'.symm
      | some list =>
        exact congrArg (fun stripped : Fragment => { stripped with
          variableDefinitions := (declarations list).map (VariableDefinition.strip false) }) same'.symm

section
variable {source source' : String} {shown : List Char} {points : List (Nat × List Char)}
  (straight : Straight source.toList) (straight' : Straight source'.toList)
  (inserted : Inserted 0 points source.toList source'.toList)
  (blanks : Inserted 0 (blankPoints points) source.toList shown)
  (blanked : Blanked source'.toList shown)
include straight straight' inserted blanks blanked

/-- The position of a token behind blanks leads to where the token is moved to by the lists. -/
theorem Token.Moves.found {left right : Token}
    (member : left ∈ (TokenStream.ofText source.toList).tokens)
    (member' : right ∈ (TokenStream.ofText shown).tokens)
    (moves : Token.Moves (blankPoints points) 0 0 left right) :
    right.offsetByPosition source'.toList = moved points (left.offsetByPosition source.toList) := by
  obtain ⟨gap, behind, whole, begins⟩ := token_within nestingLimit .origin source.toList left member
  obtain ⟨place, place', counterparts, here, there⟩ := inserted.counterparts blanks whole
  have begins' : left.place.offset = 0 + byteLength gap := begins
  have offset : left.offsetByPosition source.toList = left.place.offset :=
    position_offset straight member
  have same : right.place.offset = place' := by
    have place := moves.place
    rw [begins'] at place
    omega
  rw [offset, begins', ← here, Nat.zero_add]
  exact ((token_counterparts blanked straight' member').eq_iff counterparts).mpr same

/-- Definitions that stand in corresponding stretches move with their tokens. -/
theorem Grammar.Twins.moves {size size' : Nat} {left right : Definition}
    (moves : List.Forall₂ (Token.Moves (blankPoints points) 0 0)
      (TokenStream.ofText source.toList).tokens (TokenStream.ofText shown).tokens)
    (twins : Twins (.ofPositions source) (.ofPositions source') size size'
      (TokenStream.ofText source.toList).tokens (TokenStream.ofText shown).tokens left right) :
    Definition.Moves points left right := by
  obtain ⟨keyword, more, taken, start⟩ := definition_begins twins.read
  obtain ⟨keyword', more', taken', start'⟩ := definition_begins twins.read'
  refine ⟨twins.same, ?_⟩
  have split : (TokenStream.ofText source.toList).tokens =
      twins.first ++ (keyword :: more ++ twins.others) := taken ▸ twins.split
  have split' : (TokenStream.ofText shown).tokens =
      twins.first' ++ (keyword' :: more' ++ twins.others') := taken' ▸ twins.split'
  have here := (List.forall₂_cons.mp
    (forall₂_behind moves split split' twins.earlier.length_eq)).1
  have found := here.found straight straight' inserted blanks blanked (by simp [split])
    (by simp [split'])
  rw [start, start', found]
  rfl

end

section
variable {source : String} {definitions : List Definition} {chosen : Fragment → Option (List Char)}
  (straight : Straight source.toList)
  (ended : (TokenStream.ofText source.toList).ending = .endOfInput)
  (runs : Runs (DefinitionStands (placedBy (.ofPositions source)))
    (TokenStream.ofText source.toList).tokens definitions)
  (declares : ∀ fragment ∈ fragmentsOf definitions, ∀ list ∈ chosen fragment, Declares list)
include straight runs

/-- A fragment is given what the query with its list declares. -/
theorem lookup_chosenTable : ∀ fragment ∈ fragmentsOf definitions, ∃ start,
    fragment.start? = some start ∧
      (chosenTable source chosen (fragmentsOf definitions)).lookup
        (moved (insertions source chosen (fragmentsOf definitions)) start) =
          (chosen fragment).map declarations := by
  obtain ⟨apart, begins⟩ := starts_nodup runs (positions_rise (Blanked.refl _) straight)
  have differ : (fragmentsOf definitions).Pairwise fun left right =>
      moved (insertions source chosen (fragmentsOf definitions)) (left.start?.getD 0) ≠
        moved (insertions source chosen (fragmentsOf definitions)) (right.start?.getD 0) := by
    refine (List.pairwise_map.mp apart).imp_of_mem fun {left right} member member' differ same => ?_
    obtain ⟨_, -, start⟩ := begins left member
    obtain ⟨_, -, start'⟩ := begins right member'
    have offsets := moved_inj same
    rw [start, start'] at offsets
    exact differ (by rw [start, start']; exact congrArg some offsets)
  intro fragment member
  obtain ⟨token, -, start⟩ := begins fragment member
  have listed := @lookup_chosen chosen _ _ differ fragment member
  rw [start] at listed
  exact ⟨_, start, listed⟩

include declares

/-- Blanks are put in behind names. -/
theorem chosen_blanks : ∀ point ∈ blankPoints (insertions source chosen (fragmentsOf definitions)),
      (point.2 ≠ [] ∧ ∀ char ∈ point.2, char = ' ' ∨ char = '\n' ∨ char = '\r') ∧
      ∃ token ∈ (TokenStream.ofText source.toList).tokens,
        token.kind = .name ∧ token.stop = point.1 := by
  intro point member
  obtain ⟨original, listed, rfl⟩ := List.mem_map.mp member
  obtain ⟨fragment, member', choice⟩ := List.mem_filterMap.mp listed
  obtain ⟨list, choice', rfl⟩ := Option.map_eq_some_iff.mp choice
  obtain ⟨run, within, stands⟩ := runs.exists_of_mem (mem_fragmentsOf.mp member')
  obtain ⟨keyword, name, others, rfl, named, -, stop⟩ := FragmentStands.named straight within stands
  obtain ⟨more, opens⟩ := List.head?_eq_some_iff.mp (declares fragment member' list choice').opens
  refine ⟨⟨by simp [opens], fun char held => ?_⟩, name, within.subset (by simp), ?_, stop.symm⟩
  · obtain ⟨original, -, rfl⟩ := List.mem_map.mp held
    unfold Piece.blank Chunk.endsLine
    split
    · next line =>
      simp only [Bool.or_eq_true, decide_eq_true_eq] at line
      exact Or.inr line
    · exact Or.inl rfl
  · simpa [Token.isName] using named

include ended

/-- The lists that are put into a text are the ones that are cut out of it, and blanks are shown in
their places. -/
theorem insertLists_prepared : ∃ shown,
    Document.prepare ⟨true⟩ (insertLists source chosen (fragmentsOf definitions)) =
      .ok (shown, chosenTable source chosen (fragmentsOf definitions)) ∧
    Inserted 0 (insertions source chosen (fragmentsOf definitions)) source.toList
      (insertLists source chosen (fragmentsOf definitions)).toList ∧
    Inserted 0 (blankPoints (insertions source chosen (fragmentsOf definitions))) source.toList
      shown := by
  obtain ⟨apart, wide⟩ := tokens_apart nestingLimit .origin source.toList
  have aligned : Aligned 0 (TokenStream.ofText source.toList).tokens (Chunk.ofText source.toList) :=
    tokens_aligned ended straight.calm
  have placed : ∀ run fragment, run <:+: (TokenStream.ofText source.toList).tokens →
      FragmentStands source run fragment →
      NamedAt (fun fragment => fragment.start?.getD 0) (nameStop source) run fragment := by
    intro run fragment within stands
    obtain ⟨keyword, name, others, split, -, start, stop⟩ :=
      FragmentStands.named straight within stands
    exact ⟨keyword, name, others, split, by simp [start], stop⟩
  obtain ⟨chunks, found, recovered, lists⟩ := lists_recovered runs declares placed apart
    (fun token member => (wide token member).2) aligned (Chunk.chunked_ofText source.toList) 0
  have inserted := recovered.inserted
  have blanks := recovered.blanked
  rw [Chunk.textOf_ofText] at inserted blanks
  have whole : (insertLists source chosen (fragmentsOf definitions)).toList = Chunk.textOf chunks := by
    rw [insertLists, String.toList_ofList]
    exact inserted.eq
  refine ⟨blankedText found, ?_, whole ▸ inserted, blanks⟩
  have cut : pieces (insertLists source chosen (fragmentsOf definitions)).toList = .ok found := by
    have cuts := pieces_of_cuts recovered.cuts
    rw [pieces, whole, recovered.chunked]
    exact cuts
  simp only [Nat.zero_add] at lists
  have spoken : ∀ list ∈ variableLists found, Declares list.text := by
    intro list member
    rw [lists] at member
    obtain ⟨fragment, member', choice⟩ := List.mem_filterMap.mp member
    obtain ⟨text, choice', rfl⟩ := Option.map_eq_some_iff.mp choice
    exact declares fragment member' text choice'
  simp only [Document.prepare, ↓reduceIte, separateVariables, cut, mapM_declares spoken]
  rw [lists]
  rfl

end

/-- **Variables are accepted behind the names of fragments.** Texts that declare variables are put
in behind the names of any fragments of a source without tabs, carriage returns and byte-order
marks. If the source is accepted without variables of fragments, the result is accepted with them,
and is the same document, locations apart, but for the variables of the chosen fragments, which are
those of the queries with the texts. -/
theorem variables_inserted {source : String} {document : Document}
    (unmarked : Unmarked source.toList)
    (parsed : Document.parse ⟨false⟩ source = .ok document)
    {chosen : Fragment → Option (List Char)}
    (declares : ∀ fragment ∈ document.fragments, ∀ list ∈ chosen fragment, Declares list) :
    ∃ inserted, Document.parse ⟨true⟩ (insertLists source chosen document.fragments) =
        .ok inserted ∧
      inserted.strip false = (document.declare chosen).strip false := by
  have straight := straight_of_unmarked unmarked
  have read := read_of_parse parsed
  obtain ⟨ended, runs⟩ := readDefinitions_stand (placedBy_locates _ _) read
  obtain ⟨shown, prepared, inserted, blanks⟩ := insertLists_prepared straight ended runs declares
  have blanked := prepare_blanked prepared
  have straight' : Straight (insertLists source chosen document.fragments).toList := by
    refine straight_of_unmarked fun char member => ?_
    rcases inserted.mem member with own | ⟨point, listed, held⟩
    · exact unmarked char own
    · obtain ⟨fragment, member', choice⟩ := List.mem_filterMap.mp listed
      obtain ⟨text, choice', rfl⟩ := Option.map_eq_some_iff.mp choice
      exact (declares fragment member' text choice').unmarked char held
  -- The text with the blanks has the tokens of the source, so it has its definitions.
  have points := chosen_blanks straight runs declares
  obtain ⟨ended', moves⟩ := @Inserted.tokens _ _ _ nestingLimit .origin .origin blanks
    (fun point member => (points point member).1) ended fun point member => (points point member).2
  obtain ⟨definitions, read', twins⟩ := readDefinitions_alike
    (.ofPositions (insertLists source chosen document.fragments))
    ⟨moves.imp fun _ _ token => token.alike, ended.trans ended'.symm⟩ read
  obtain ⟨-, runs'⟩ := readDefinitions_stand (placedBy_locates _ _) read'
  refine ⟨_, parse_of_read prepared read', ?_⟩
  have given : attachVariables (chosenTable source chosen (fragmentsOf document.definitions))
      definitions = definitions.map (Definition.given _) :=
    attachVariables_eq (starts_nodup runs' (positions_rise blanked straight')).1
  have each : List.Forall₂ (fun left right => (left.declare chosen).strip false =
      (right.given (chosenTable source chosen (fragmentsOf document.definitions))).strip false)
      document.definitions definitions := by
    refine ((List.forall₂_and_left _ _).mpr
      ⟨fun left (member : left ∈ document.definitions) => member, twins⟩).imp ?_
    rintro left right ⟨member, ⟨twin⟩⟩
    refine ((twin.moves straight straight' inserted blanks blanked moves).given
      fun fragment same => ?_).symm
    exact lookup_chosenTable straight runs fragment (List.mem_filterMap.mpr ⟨left, member, same⟩)
  have same := forall₂_map_eq each
  rw [given]
  simp only [Document.strip, Document.declare, stripOwn_false, List.map_map]
  exact congrArg (Document.mk · none) same.symm

/-- Lists of several lines, with comments, strings and characters of several bytes, for some of the
fragments, one of which is named like the keyword, and lookalikes of lists around them. -/
theorem mixed_lists_inserted :
    let source := "# é fragment F ($x: Int)\nfragment F on T \x7b a(s: \"fragment G (\") \x7d " ++
      "fragment G on T \x7b c \x7d query Q($q: I) \x7b b \x7d fragment fragment on T @d \x7b d \x7d"
    let chosen : Fragment → Option (List Char) := fun fragment =>
      if fragment.name = "F" then some "(\n $x: [I!] = [1], # )\n $s: S = \"é)\")".toList
      else if fragment.name = "fragment" then some "($y: Y)".toList else none
    ∃ document inserted, Document.parse ⟨false⟩ source = .ok document ∧
      Document.parse ⟨true⟩ (insertLists source chosen document.fragments) = .ok inserted ∧
      inserted.strip false = (document.declare chosen).strip false ∧
      (document.declare chosen).fragments.map (fun fragment =>
        (fragment.name, fragment.variableDefinitions.map (·.name))) =
        [("F", ["x", "s"]), ("G", []), ("fragment", ["y"])] := by
  intro source chosen
  have declares : ∀ fragment, ∀ list ∈ chosen fragment, Declares list := by
    intro fragment list choice
    dsimp only [chosen] at choice
    split at choice
    · cases choice
      decide +kernel
    split at choice
    · cases choice
      decide +kernel
    · cases choice
  have names : (Document.parse ⟨false⟩ source).toOption.map (fun document =>
      (document.declare chosen).fragments.map fun fragment =>
        (fragment.name, fragment.variableDefinitions.map (·.name))) =
      some [("F", ["x", "s"]), ("G", []), ("fragment", ["y"])] := by
    decide +kernel
  cases parsed : Document.parse ⟨false⟩ source with
  | error failure =>
    rw [parsed] at names
    cases names
  | ok document =>
    obtain ⟨inserted, parsed', same⟩ := variables_inserted (by decide +kernel) parsed
      fun fragment _ => declares fragment
    rw [parsed] at names
    exact ⟨document, inserted, rfl, parsed', same, Option.some.inj names⟩

/-- A parenthesis that only a comment has ends a text with which a query is accepted, but the
comment goes on in the text with the list, and hides what is behind it. -/
theorem comment_hides_rest :
    let list := "($x: Int) \x7b a \x7d # )".toList
    let source := "fragment F on T \x7b b \x7d"
    Unmarked source.toList ∧ Unmarked list ∧ list.head? = some '(' ∧ list.getLast? = some ')' ∧
    (∃ operation ∈ queryOperation? list, operation.directives = []) ∧
    ∃ document, Document.parse ⟨false⟩ source = .ok document ∧
      document.fragments.map (·.name) = ["F"] ∧
      insertLists source (fun _ => some list) document.fragments =
        "fragment F($x: Int) \x7b a \x7d # ) on T \x7b b \x7d" ∧
      (Document.parse ⟨true⟩ (insertLists source (fun _ => some list) document.fragments)).isOk =
        false := by
  intro list source
  refine ⟨by decide +kernel, by decide +kernel, by decide +kernel, by decide +kernel,
    by decide +kernel, ?_⟩
  have refused : (Document.parse ⟨false⟩ source).toOption.map (fun document =>
      (document.fragments.map (·.name),
        insertLists source (fun _ => some list) document.fragments,
        (Document.parse ⟨true⟩ (insertLists source (fun _ => some list) document.fragments)).isOk)) =
      some (["F"], "fragment F($x: Int) \x7b a \x7d # ) on T \x7b b \x7d", false) := by
    decide +kernel
  cases parsed : Document.parse ⟨false⟩ source with
  | error failure =>
    rw [parsed] at refused
    cases refused
  | ok document =>
    rw [parsed] at refused
    have facts := Option.some.inj refused
    simp only [Prod.mk.injEq] at facts
    exact ⟨document, rfl, facts⟩

end QueryStore
