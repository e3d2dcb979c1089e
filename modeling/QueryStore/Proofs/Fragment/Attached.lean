import QueryStore.Proofs.Fragment.Attaching
import QueryStore.Proofs.Fragment.Keeping
import QueryStore.Proofs.Token.Order

/-! Variables of fragments reach the fragments that they were written for (`variables_attached`).
A list knows the offset of the keyword before it in the text, and a fragment the offset that the
line and the column of its keyword lead to; in straight texts these are one number. The exception
are lists behind `fragment fragment on`, which are taken for those of a fragment `on` and go to
none (`Stray`). Behind a tab the numbers differ, and variables are lost (`tab_loses_variables`). -/
namespace QueryStore
open Text Grammar

private theorem closeString_shape {escaped : Bool} {text : List Char} {read : List Char × List Char}
    (closed : closeString escaped text = some read) :
    '\n' ∉ read.1 ∧ ∃ inner, read.1 = inner ++ ['\x22'] := by
  induction text generalizing escaped read with
  | nil => simp [closeString] at closed
  | cons char text ih =>
    unfold closeString at closed
    split at closed
    · cases closed
    next feed =>
    split at closed
    · next quote =>
      simp only [Bool.and_eq_true, decide_eq_true_eq] at quote
      obtain ⟨rfl, -⟩ := quote
      cases closed
      exact ⟨by simp, [], rfl⟩
    · obtain ⟨found, later, rfl⟩ := Option.map_eq_some_iff.mp closed
      obtain ⟨single, inner, ends⟩ := ih later
      exact ⟨by simp [Ne.symm feed, single], char :: inner, congrArg (char :: ·) ends⟩

/-- A string is on one line, and ends with a quote. -/
theorem string_shape (budget : Nat) (place : Place) (text : List Char) :
    ∀ token ∈ (tokensFrom budget place text).tokens, token.kind = .stringValue →
      '\n' ∉ token.text.toList ∧ ∃ inner, token.text.toList = inner ++ ['\x22'] := by
  induction budget, place, text using stream_induction with
  | ended budget place text stop =>
    generalize tokensFrom budget place text = stream at stop
    cases stop <;> simp
  | step budget place text start first rest read remaining reads ih =>
    rw [tokens_read reads]
    refine List.forall_mem_cons.mpr ⟨fun kind => ?_, ih⟩
    rw [Lexeme.token_text]
    cases lexeme_iff.mp reads.found with
    | mark | dots | name | block => cases kind
    | number _ _ _ _ number =>
      have kind' : _ = TokenKind.stringValue := kind
      rcases numberKind_kind number with other | other <;> rw [other] at kind' <;> cases kind'
    | string quote _ closed =>
      obtain ⟨single, inner, ends⟩ := closeString_shape closed
      subst quote
      exact ⟨by simp [single], '\x22' :: inner, congrArg ('\x22' :: ·) ends⟩

/-- No carriage return stands in a string of a straight text, for a line end would follow it. -/
theorem Straight.calm {text : List Char} (straight : Straight text) :
    Calm (TokenStream.ofText text).tokens := by
  intro token member kind held
  obtain ⟨gap, behind, whole, -⟩ :=
    places_accurate (⟨rfl, rfl⟩ : Accurate [] .origin) straight token member
  obtain ⟨single, inner, ends⟩ := string_shape _ _ _ token member kind
  rw [ends] at held single
  have held' : '\r' ∈ inner := by simpa using held
  obtain ⟨front, back, rfl⟩ := List.append_of_mem held'
  have feed := straight.pairs (gap ++ front) (back ++ '\x22' :: behind) (by simp [whole, ends])
  cases back with
  | nil => cases feed
  | cons char back =>
    cases feed
    exact single (by simp)

section
variable {source text : List Char} (blanked : Blanked source text) (straight : Straight source)
include blanked straight

/-- The position of a token leads to the character that it begins with. -/
theorem token_counterparts {token : Token} (member : token ∈ (TokenStream.ofText text).tokens) :
    Counterparts source text (token.offsetByPosition source) token.place.offset := by
  have straight' := straight.blanked blanked
  obtain ⟨gap, behind, whole, accurate⟩ :=
    places_accurate (⟨rfl, rfl⟩ : Accurate [] .origin) straight' token member
  have offset : token.place.offset = byteLength gap := accurate.offset
  obtain ⟨before, after, split, front, -⟩ := blanked_split (whole ▸ blanked)
  exact ⟨before, gap, ⟨after, split.symm⟩, ⟨_, whole.symm⟩, front,
    (offset_found straight' member whole offset split front).symm, offset.symm⟩

/-- The positions of tokens lead to offsets that rise. -/
theorem positions_rise : (TokenStream.ofText text).tokens.Pairwise
    fun left right => left.offsetByPosition source < right.offsetByPosition source :=
  (tokens_rise text).imp_of_mem fun here there ordered =>
    ((token_counterparts blanked straight here).lt_iff
      (token_counterparts blanked straight there)).mpr ordered

end

/-- A fragment in its tokens, located by lines and columns. -/
abbrev FragmentStands (source : String) (run : List Token) (fragment : Fragment) : Prop :=
  DefinitionStands (placedBy (.ofPositions source)) run (.fragment fragment)

/-- A fragment begins where the position of its first token leads, and has no variables yet. -/
theorem FragmentStands.begins {source : String} {run : List Token} {fragment : Fragment}
    (stands : FragmentStands source run fragment) :
    ∃ keyword name behind, run = keyword :: name :: behind ∧ name.text = fragment.name ∧
      fragment.start? = some (keyword.offsetByPosition source.toList) ∧
      fragment.variableDefinitions = [] := by
  cases stands with
  | @fragment keyword name on type annotated below _ _ _ _ _ _ _ _ _ placed =>
    obtain ⟨first, head, closing, -, -, rfl⟩ := placed
    cases head
    exact ⟨keyword, name, _, rfl, rfl, rfl, rfl⟩

/-- Fragments whose tokens lead to offsets that rise begin at different offsets. -/
theorem starts_nodup {source : String} {tokens : List Token} {found : List Definition}
    (runs : Runs (DefinitionStands (placedBy (.ofPositions source))) tokens found)
    (rise : tokens.Pairwise fun left right =>
      left.offsetByPosition source.toList < right.offsetByPosition source.toList) :
    ((fragmentsOf found).map Fragment.start?).Nodup ∧ ∀ fragment ∈ fragmentsOf found,
      ∃ token ∈ tokens, fragment.start? = some (token.offsetByPosition source.toList) := by
  induction runs with
  | nil => exact ⟨.nil, by simp [fragmentsOf]⟩
  | @cons run others definition found stands rest ih =>
    obtain ⟨-, rise', ordered⟩ := List.pairwise_append.mp rise
    obtain ⟨apart, begins⟩ := ih rise'
    have later : ∀ fragment ∈ fragmentsOf found, ∃ token ∈ run ++ others,
        fragment.start? = some (token.offsetByPosition source.toList) := by
      intro fragment member
      obtain ⟨token, within, start⟩ := begins fragment member
      exact ⟨token, List.mem_append_right _ within, start⟩
    cases definition with
    | operation operation => exact ⟨apart, later⟩
    | fragment fragment =>
      obtain ⟨keyword, name, behind, rfl, -, start, -⟩ := FragmentStands.begins stands
      refine ⟨List.nodup_cons.mpr ⟨fun repeated => ?_, apart⟩,
        List.forall_mem_cons.mpr ⟨⟨keyword, by simp, start⟩, later⟩⟩
      obtain ⟨other, member, same⟩ := List.mem_map.mp repeated
      obtain ⟨token, within, start'⟩ := begins other member
      rw [start', start, Option.some.injEq] at same
      exact Nat.ne_of_gt (ordered keyword List.mem_cons_self token within) same

/-- Where a list of variables might stand in a fragment, a token and the next one are in front. -/
theorem headings_infix {shift : Nat} {run : List Token} {heading : Nat × List Char}
    (member : heading ∈ headings shift run) : ∃ keyword name, [keyword, name] <:+: run ∧
      heading = (keyword.place.offset + shift, name.text.toList) := by
  unfold headings at member
  split at member
  · next keyword name on behind =>
    rcases List.mem_cons.mp member with rfl | member'
    · exact ⟨keyword, name, ⟨[], on :: behind, rfl⟩, rfl⟩
    · split at member'
      · obtain rfl := List.mem_singleton.mp member'
        exact ⟨name, on, ⟨[keyword], behind, rfl⟩, rfl⟩
      · cases member'
  · cases member

/-- A list of variables that might stand in a fragment is one of the fragment, or else it stands
behind the word `on` of a fragment that is named like the keyword. -/
theorem FragmentStands.headed {source : String} {run : List Token} {fragment : Fragment}
    (stands : FragmentStands source run fragment) {heading : Nat × List Char}
    (listed : heading ∈ headings 0 run) : ∃ token ∈ run, heading.1 = token.place.offset ∧
      (fragment.start? = some (token.offsetByPosition source.toList) ∨
        fragment.name = "fragment" ∧ heading.2 = "on".toList ∧ ∃ keyword closing,
          [keyword, token, closing].Sublist run ∧
          fragment.location = (Locator.ofPositions source).node keyword closing) := by
  cases stands with
  | @fragment keyword name on type annotated below _ _ _ worded named parted _ _ _ placed =>
    obtain ⟨first, head, closing, last, -, rfl⟩ := placed
    cases head
    rcases List.mem_cons.mp listed with rfl | lookalike
    · exact ⟨keyword, List.mem_cons_self, rfl, Or.inl rfl⟩
    · split at lookalike
      · next same =>
        obtain rfl := List.mem_singleton.mp lookalike
        simp only [Token.isWord, Bool.and_eq_true, decide_eq_true_eq] at parted
        have closes : closing ∈ on :: type :: (annotated ++ below) := by
          refine List.mem_of_getLast? ?_
          rwa [List.getLast?_cons_cons, List.getLast?_cons_cons] at last
        refine ⟨name, by simp, rfl, Or.inr ⟨String.toList_inj.mp same, by rw [parted.2],
          keyword, closing, ?_, rfl⟩⟩
        exact ((List.singleton_sublist.mpr closes).cons_cons name).cons_cons keyword
      · cases lookalike

/-- Every list that is cut out of a text stands behind the name of a fragment in the text that is
shown instead, or behind the word after it. -/
theorem lists_stand {source : List Char} {found : List Piece} {definitions : List Definition}
    {placement : Placement} (cut : pieces source = .ok found)
    (ended : (TokenStream.ofText (blankedText found)).ending = .endOfInput)
    (calm : Calm (TokenStream.ofText (blankedText found)).tokens)
    (runs : Runs (DefinitionStands placement) (TokenStream.ofText (blankedText found)).tokens
      definitions) :
    ∀ list ∈ variableLists found, ∃ run fragment heading,
      run <:+: (TokenStream.ofText (blankedText found)).tokens ∧ .fragment fragment ∈ definitions ∧
      DefinitionStands placement run (.fragment fragment) ∧ heading ∈ headings 0 run ∧
      list.fragmentName = String.ofList heading.2 ∧
      Counterparts source (blankedText found) list.keywordOffset heading.1 := by
  intro list member
  have start : Abreast [] [] (.fresh 0) (.fresh 0) := ⟨.nil, rfl, rfl, rfl, [], [], rfl, .nil⟩
  obtain ⟨shown, last, shows'⟩ := (cuts_of_pieces cut).shows
  obtain ⟨earlier, chunk, later, offset, name, split, opens, named, place⟩ :=
    shows'.lists start list member
  rw [List.nil_append, List.nil_append, Chunk.textOf_ofText, shows'.text] at place
  let heads : Heads := fun heading => ∃ run fragment,
    run <:+: (TokenStream.ofText (blankedText found)).tokens ∧ .fragment fragment ∈ definitions ∧
      DefinitionStands placement run (.fragment fragment) ∧ heading ∈ headings 0 run
  have still : Still heads (.fresh 0) (Chunk.ofText (blankedText found)) :=
    (text_still ended calm runs fun run fragment within member stands heading listed =>
      ⟨run, fragment, within, member, stands, listed⟩).1
  have chunks : Chunk.ofText (blankedText found) = earlier ++ chunk :: later := by
    rw [← split, ← (shows'.chunked (Chunk.chunked_ofText source)).1, shows'.text]
  rw [chunks] at still
  obtain ⟨-, here, -⟩ := still_append.mp still
  obtain ⟨⟨run, fragment, within, member', stands, listed⟩, -⟩ := here _ opens
  exact ⟨run, fragment, (offset, name), within, member', stands, listed, named, place⟩

/-- A list behind the word `on` of a fragment that is named like the keyword. It is taken for a
list of a fragment `on` that begins at this name. -/
structure Stray (document : Document) (list : VariableList) : Prop where
  named : list.fragmentName = "on"
  inside : ∃ fragment ∈ document.fragments, fragment.name = "fragment" ∧
    ∃ location ∈ fragment.location,
      location.start < list.keywordOffset ∧ list.keywordOffset < location.stop

/-- Lists of variables went to the fragments of a document: every list to the fragment that
begins at its keyword, unless it is a stray one, and nothing else to the others. -/
structure Attached (lists : List VariableList) (document : Document) : Prop where
  owned : ∀ list ∈ lists, (∃ fragment ∈ document.fragments,
    fragment.start? = some list.keywordOffset) ∨ Stray document list
  given : ∀ list ∈ lists, ∀ fragment ∈ document.fragments,
    fragment.start? = some list.keywordOffset → fragment.name = list.fragmentName ∧
      list.parse = .ok (list.keywordOffset, fragment.variableDefinitions)
  bare : ∀ fragment ∈ document.fragments,
    (∀ list ∈ lists, fragment.start? ≠ some list.keywordOffset) → fragment.variableDefinitions = []

/-- A text that was read with its lists of variables apart. -/
structure Separated (source : String) (found : List Piece) (table : VariableTable)
    (definitions : List Definition) : Prop where
  cut : pieces source.toList = .ok found
  entered : List.Forall₂ (fun list entry => list.parse = .ok entry) (variableLists found) table
  blanked : Blanked source.toList (blankedText found)
  ended : (TokenStream.ofText (blankedText found)).ending = .endOfInput
  runs : Runs (DefinitionStands (placedBy (.ofPositions source)))
    (TokenStream.ofText (blankedText found)).tokens definitions

/-- What a document consists of that is parsed with variables of fragments enabled. -/
theorem parse_separated {source : String} {document : Document}
    (parsed : Document.parse ⟨true⟩ source = .ok document) : ∃ found table definitions,
      Separated source found table definitions ∧ document = ⟨attachVariables table definitions,
        some ⟨0, byteLength source.toList, some source⟩⟩ := by
  obtain ⟨text, table, definitions, prepared, read, rfl⟩ := parse_ok parsed
  have blanked := prepare_blanked prepared
  obtain ⟨found, cut, rfl, entered⟩ := prepare_pieces.mp prepared
  obtain ⟨ended, runs⟩ := readDefinitions_stand (placedBy_locates _ _) read
  exact ⟨found, table, definitions, ⟨cut, entered, blanked, ended, runs⟩, rfl⟩

section
variable {source : String} {found : List Piece} {table : VariableTable}
  {definitions : List Definition} (separated : Separated source found table definitions)
  (straight : Straight source.toList)
include separated straight

/-- The fragments of the document are those of the text with what the table has for them. -/
theorem Separated.fragments : fragmentsOf (attachVariables table definitions) =
    (fragmentsOf definitions).map (Fragment.given table) := by
  rw [attachVariables_eq (starts_nodup separated.runs (positions_rise separated.blanked straight)).1,
    fragmentsOf_given]

/-- A list goes to the fragment that begins at its keyword, or it is a stray one. -/
theorem Separated.owned {location : Option Location} {list : VariableList}
    (member : list ∈ variableLists found) :
    (∃ fragment ∈ fragmentsOf (attachVariables table definitions),
      fragment.start? = some list.keywordOffset) ∨
        Stray ⟨attachVariables table definitions, location⟩ list := by
  have rise := positions_rise separated.blanked straight
  obtain ⟨run, fragment, heading, within, member', stands, listed, named, place⟩ :=
    lists_stand separated.cut separated.ended (straight.blanked separated.blanked).calm
      separated.runs list member
  have kept : fragment.given table ∈ fragmentsOf (attachVariables table definitions) :=
    separated.fragments straight ▸ List.mem_map_of_mem (mem_fragmentsOf.mpr member')
  obtain ⟨token, inside, offset, either⟩ := FragmentStands.headed stands listed
  have place' := token_counterparts separated.blanked straight (within.subset inside)
  have same : list.keywordOffset = token.offsetByPosition source.toList :=
    (place.eq_iff place').mpr offset
  rcases either with start | ⟨lookalike, on, keyword, closing, sublist, located⟩
  · refine Or.inl ⟨_, kept, ?_⟩
    rw [Fragment.start?, Fragment.given_location, same]
    exact start
  · -- The name stands between the keyword and the brace that closes the fragment.
    have ordered := rise.sublist (sublist.trans within.sublist)
    simp only [List.pairwise_cons, List.mem_cons, List.not_mem_nil, or_false,
      forall_eq_or_imp, forall_eq] at ordered
    obtain ⟨⟨first, -⟩, second, -⟩ := ordered
    rw [← same] at first second
    have bound := (offset_boundary closing.place.position source.toList).le_length
    exact Or.inr ⟨by rw [named, on]; rfl, _, kept, (Fragment.given_name ..).trans lookalike, _,
      (Fragment.given_location ..).trans located, first,
      Nat.lt_min.mpr ⟨Nat.lt_succ_of_lt second, Nat.lt_of_lt_of_le second bound⟩⟩

/-- A fragment that begins at the keyword of a list is the one that the list names, and has the
variables that the list is parsed into. -/
theorem Separated.given {list : VariableList} (member : list ∈ variableLists found)
    {fragment : Fragment} (held : fragment ∈ fragmentsOf (attachVariables table definitions))
    (start : fragment.start? = some list.keywordOffset) :
    fragment.name = list.fragmentName ∧
      list.parse = .ok (list.keywordOffset, fragment.variableDefinitions) := by
  rw [separated.fragments straight] at held
  obtain ⟨original, member', rfl⟩ := List.mem_map.mp held
  rw [Fragment.start?, Fragment.given_location] at start
  obtain ⟨run, within, stands⟩ := separated.runs.exists_of_mem (mem_fragmentsOf.mp member')
  obtain ⟨keyword, name, behind, rfl, named, begins, -⟩ := FragmentStands.begins stands
  obtain ⟨run', _, heading, within', -, -, listed, named', place⟩ :=
    lists_stand separated.cut separated.ended (straight.blanked separated.blanked).calm
      separated.runs list member
  obtain ⟨keyword', name', pair, rfl⟩ := headings_infix listed
  refine ⟨?_, ?_⟩
  · -- The keyword is the same token, and so is the name behind it.
    have here := token_counterparts separated.blanked straight (within.subset List.mem_cons_self)
    have same : keyword.place.offset = keyword'.place.offset :=
      (here.eq_iff place).mp (Option.some.inj (begins.symm.trans start))
    have pair' : [keyword, name] <:+: keyword :: name :: behind :=
      (List.prefix_append [keyword, name] behind).isInfix
    rw [Fragment.given_name, named', ← named,
      next_unique (tokens_rise _) (pair'.trans within) (pair.trans within') same,
      String.ofList_toList]
  · have ordered := (Cuts.ordered (cuts_of_pieces separated.cut) (by simp)).1
    obtain ⟨definitions', listed', parsed⟩ := lookup_parsed separated.entered ordered member
    have start' : original.start? = some list.keywordOffset := start
    have same : (original.given table).variableDefinitions = definitions' := by
      simp only [Fragment.given, start', Option.bind_some, listed']
    rw [same, parsed]

/-- A fragment at whose beginning no list has its keyword has no variables. -/
theorem Separated.bare {fragment : Fragment}
    (held : fragment ∈ fragmentsOf (attachVariables table definitions))
    (unlisted : ∀ list ∈ variableLists found, fragment.start? ≠ some list.keywordOffset) :
    fragment.variableDefinitions = [] := by
  rw [separated.fragments straight] at held
  obtain ⟨original, member, rfl⟩ := List.mem_map.mp held
  obtain ⟨run, -, stands⟩ := separated.runs.exists_of_mem (mem_fragmentsOf.mp member)
  obtain ⟨keyword, name, behind, rfl, -, begins, none⟩ := FragmentStands.begins stands
  have absent : table.lookup (keyword.offsetByPosition source.toList) = Option.none := by
    by_contra listed
    obtain ⟨definitions', listed⟩ := Option.ne_none_iff_exists'.mp listed
    obtain ⟨list, member', same, -⟩ := parsed_of_lookup separated.entered listed
    refine unlisted list member' ?_
    rw [Fragment.start?, Fragment.given_location, same]
    exact begins
  rw [← none]
  simp only [Fragment.given, begins, Option.bind_some, absent]

end

/-- **Variables are given to the fragments that they were written for.** In a straight text that
is parsed with variables of fragments enabled, every list that is cut out goes to the fragment that
begins at its keyword: this is the fragment that it names, and it has the variables that the list
is parsed into, in order. Fragments without a list have no variables. Only stray lists are given to
no fragment. -/
theorem variables_attached {source : String} {document : Document}
    (straight : Straight source.toList) (parsed : Document.parse ⟨true⟩ source = .ok document) :
    ∃ found, pieces source.toList = .ok found ∧ Attached (variableLists found) document := by
  obtain ⟨found, table, definitions, separated, rfl⟩ := parse_separated parsed
  exact ⟨found, separated.cut,
    fun _ member => separated.owned straight member,
    fun _ member _ held start => separated.given straight member held start,
    fun _ held unlisted => separated.bare straight held unlisted⟩

/-- A stray list is cut out, and given to no fragment. -/
example :
    let source := "fragment fragment on($x: Int) T \x7b a \x7d"
    (pieces source.toList).toOption.map variableLists = some [⟨"on", 9, "($x: Int)".toList⟩] ∧
    (Document.parse ⟨true⟩ source).toOption.map (fun document =>
      document.fragments.map fun fragment => (fragment.name, fragment.variableDefinitions.length)) =
      some [("fragment", 0)] := by
  decide +kernel

/-- Lists behind the names of some of the fragments, with line ends, comments and characters of
several bytes before them and inside. -/
theorem mixed_lists_attached :
    let source := "# é ($no: I)\nfragment F (\n $x: [I!] = [1], # )\n $s: S = \"é)\") on T \x7b a \x7d " ++
      "fragment G on T \x7b c \x7d, fragment fragment($y: Y) on T \x7b d \x7d"
    ∃ document found, Document.parse ⟨true⟩ source = .ok document ∧
      pieces source.toList = .ok found ∧ Attached (variableLists found) document ∧
      document.fragments.map (fun fragment =>
        (fragment.name, fragment.start?, fragment.variableDefinitions.map (·.name))) =
        [("F", some 14, ["x", "s"]), ("G", some 75, []), ("fragment", some 98, ["y"])] := by
  intro source
  have given : (Document.parse ⟨true⟩ source).toOption.map (fun document =>
      document.fragments.map fun fragment =>
        (fragment.name, fragment.start?, fragment.variableDefinitions.map (·.name))) =
      some [("F", some 14, ["x", "s"]), ("G", some 75, []), ("fragment", some 98, ["y"])] := by
    decide +kernel
  have unmarked : source.toList.all
      (fun char => char ≠ '\t' && char ≠ '\r' && char ≠ '\uFEFF') = true := by
    decide +kernel
  have straight : Straight source.toList := straight_of_unmarked fun char member => by
    simpa [and_assoc] using List.all_eq_true.mp unmarked char member
  cases parsed : Document.parse ⟨true⟩ source with
  | error failure =>
    rw [parsed] at given
    cases given
  | ok document =>
    obtain ⟨found, cut, attached⟩ := variables_attached straight parsed
    rw [parsed] at given
    exact ⟨document, found, rfl, cut, attached, Option.some.inj given⟩

/-- A tab counts as eight columns, which lead past the keyword. So the fragment does not begin
where its list has the keyword, and the variables are lost. -/
theorem tab_loses_variables :
    let source := "\tfragment F($x: Int) on T \x7b a \x7d"
    (pieces source.toList).toOption.map (fun found => (variableLists found).map fun list =>
      (list.fragmentName, list.keywordOffset, list.parse.toOption.map fun entry =>
        entry.2.map (·.name))) = some [("F", 1, some ["x"])] ∧
    (Document.parse ⟨true⟩ source).toOption.map (fun document =>
      document.fragments.map fun fragment =>
        (fragment.name, fragment.start?, fragment.variableDefinitions.map (·.name))) =
      some [("F", some 8, [])] :=
  ⟨by decide +kernel, by decide +kernel⟩

end QueryStore
