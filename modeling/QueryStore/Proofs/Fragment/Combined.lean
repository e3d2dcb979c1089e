import QueryStore.Proofs.Fragment.Declares
import QueryStore.Proofs.Fragment.Joined

/-! Documents of texts on lines of their own (`parse_join`). What is read behind another text stands
as many bytes further on in the source as that text has (`Part.offset`), although the texts that are
shown instead of the two may have fewer. So definitions point at the same texts as before
(`Recurs`), and fragments are given the lists that they were given before (`Rests.given`). -/
namespace QueryStore
open Text Grammar

/-- A text that is a part of another one, and what is shown of it a part of what is shown of the
other, in the same place. -/
def Part (source text whole shown : List Char) (distance distance' : Nat) : Prop :=
  ∃ front back front' back', whole = front ++ (source ++ back) ∧
    shown = front' ++ (text ++ back') ∧ Blanked front front' ∧ byteLength front = distance ∧
    byteLength front' = distance'

section
variable {source text whole shown : List Char} {distance distance' : Nat}
  (part : Part source text whole shown distance distance')
include part

/-- Tokens that stand further on in what is shown are found further on in the source. -/
theorem Part.offset (blanked : Blanked source text) (straight : Straight source)
    (blanked' : Blanked whole shown) (straight' : Straight whole) {token token' : Token}
    (member : token ∈ (TokenStream.ofText text).tokens)
    (member' : token' ∈ (TokenStream.ofText shown).tokens)
    (along : Token.Along 0 distance' token token') :
    token'.offsetByPosition whole = distance + token.offsetByPosition source := by
  have found := token_counterparts blanked' straight' member'
  obtain ⟨front, back, front', back', rfl, rfl, fronts, rfl, rfl⟩ := part
  obtain ⟨before, before', within, within', beginnings, bytes, bytes'⟩ :=
    token_counterparts blanked straight member
  have moved : Counterparts (front ++ (source ++ back)) (front' ++ (text ++ back'))
      (byteLength front + token.offsetByPosition source)
      (byteLength front' + token.place.offset) := by
    refine ⟨front ++ before, front' ++ before', ?_, ?_, List.rel_append fronts beginnings, ?_, ?_⟩
    · exact (List.prefix_append_right_inj front).mpr (within.trans (List.prefix_append ..))
    · exact (List.prefix_append_right_inj front').mpr (within'.trans (List.prefix_append ..))
    · rw [byteLength_append, bytes]
    · rw [byteLength_append, bytes']
  have apart := along.apart
  exact (found.eq_iff moved).mpr (by omega)

end

/-- A closing brace ends before its text does. -/
theorem brace_within {source text : List Char} (blanked : Blanked source text)
    (straight : Straight source) {closing : Token}
    (member : closing ∈ (TokenStream.ofText text).tokens)
    (closes : closing.isPunctuator "\x7d" = true) :
    closing.offsetByPosition source + 1 ≤ byteLength source := by
  obtain ⟨gap, behind, rfl, offset⟩ := token_within _ _ _ closing member
  obtain ⟨-, spelled⟩ := Token.punctuator_spelled closes
  obtain ⟨before, after, rfl, front, back⟩ := blanked_split blanked
  have whole : closing.text.toList ++ behind = '\x7d' :: behind := by rw [spelled]; rfl
  rw [whole] at back
  obtain ⟨others, rfl, -⟩ := blanked_head (by decide) back
  have found : closing.offsetByPosition (before ++ '\x7d' :: others) = byteLength before :=
    offset_found (straight.blanked blanked) member rfl
      (by simpa [Place.origin] using offset) rfl front
  have size : '\x7d'.utf8Size = 1 := rfl
  rw [found, byteLength_append, byteLength, size]
  omega

/-- A definition that recurs in another text: it differs in locations only, and points at the same
text. -/
structure Recurs (left right : Definition) : Prop where
  same : SameDefinition left right
  own : right.location.bind Location.text? = left.location.bind Location.text?

theorem Recurs.trans {left middle right : Definition} (first : Recurs left middle)
    (second : Recurs middle right) : Recurs left right :=
  ⟨first.same.trans second.same, second.own.trans first.own⟩

theorem recurs_refl (definitions : List Definition) :
    List.Forall₂ Recurs definitions definitions :=
  List.forall₂_same.mpr fun _ _ => ⟨rfl, rfl⟩

theorem recurs_trans {left middle right : List Definition} (first : List.Forall₂ Recurs left middle)
    (second : List.Forall₂ Recurs middle right) : List.Forall₂ Recurs left right := by
  induction first generalizing right with
  | nil => exact second
  | cons here _ ih =>
    cases second with
    | cons there others => exact .cons (here.trans there) (ih others)

/-- A definition that recurs in a text as many bytes further on. -/
structure Rests (distance : Nat) (left right : Definition) : Prop extends Recurs left right where
  begins : right.location.map Location.start =
    (left.location.map Location.start).map (distance + ·)

section
variable {options : ParseOptions} {source whole : String} {text shown : List Char}
  {table table' : VariableTable} {definitions definitions' : List Definition}
  {distance distance' : Nat} (here : Prepared options source text table definitions)
include here

/-- A definition whose tokens stand further on points further on, at the same text. -/
theorem Prepared.rests (there : Prepared options whole shown table' definitions')
    (part : Part source.toList text whole.toList shown distance distance') {left right : Definition}
    (shifted : Shifted distance' (.ofPositions source) (.ofPositions whole)
      (TokenStream.ofText text).tokens (TokenStream.ofText shown).tokens left right) :
    Rests distance left right := by
  obtain ⟨same, first, member, closing, member', first', other, closing', other', opens, ends, closes,
    location, location'⟩ := shifted
  have bound := brace_within here.blanked here.straight member' closes
  have moved : ∀ {token token'}, token ∈ (TokenStream.ofText text).tokens →
      token' ∈ (TokenStream.ofText shown).tokens → Token.Along 0 distance' token token' →
      token'.offsetByPosition whole.toList = distance + token.offsetByPosition source.toList :=
    part.offset here.blanked here.straight there.blanked there.straight
  have begins := moved member other opens
  have stops := moved member' other' ends
  obtain ⟨front, back, -, -, split, -, -, rfl, -⟩ := part
  have size : byteLength whole.toList =
      byteLength front + (byteLength source.toList + byteLength back) := by
    rw [split, byteLength_append, byteLength_append]
  refine ⟨⟨same, ?_⟩, ?_⟩
  · rw [location, location']
    simp only [Locator.ofPositions, Location.through, Option.bind_some, Location.text?]
    rw [begins, stops, Nat.min_eq_left (by omega), Nat.min_eq_left (by omega), split,
      Nat.add_assoc, slice_within _ _ _ bound]
  · rw [location, location']
    exact congrArg some begins

/-- The definitions of a document are those of the text, with what the table has for them. -/
theorem Prepared.attached :
    attachVariables table definitions = definitions.map (Definition.given table) :=
  attachVariables_eq (starts_nodup here.runs (positions_rise here.blanked here.straight)).1

/-- A fragment begins within the text. -/
theorem Prepared.start_le {fragment : Fragment} (member : .fragment fragment ∈ definitions)
    {start : Nat} (begins : fragment.start? = some start) : start ≤ byteLength source.toList := by
  obtain ⟨token, -, found⟩ := (starts_nodup here.runs (positions_rise here.blanked here.straight)).2
    fragment (mem_fragmentsOf.mpr member)
  rw [begins] at found
  cases found
  exact (offset_boundary token.place.position source.toList).le_length

end

/-- A fragment that rests is given the same variables, if the tables have the same for it. -/
theorem Rests.given {distance : Nat} {left right : Definition} (rests : Rests distance left right)
    {table table' : VariableTable} (listed : ∀ fragment start, left = .fragment fragment →
      fragment.start? = some start → table'.lookup (distance + start) = table.lookup start) :
    Recurs (left.given table) (right.given table') := by
  obtain ⟨⟨same, own⟩, begins⟩ := rests
  cases left with
  | operation operation =>
    cases right with
    | operation operation' => exact ⟨same, own⟩
    | fragment fragment => cases same
  | fragment fragment =>
    cases right with
    | operation operation => cases same
    | fragment fragment' =>
      have found : (fragment'.start?.bind fun start => table'.lookup start) =
          fragment.start?.bind fun start => table.lookup start := by
        have begins' : fragment'.start? = fragment.start?.map (distance + ·) := begins
        rw [begins']
        cases start : fragment.start? with
        | none => rfl
        | some start' => exact listed fragment start' rfl start
      refine ⟨?_, ?_⟩
      · have same' : fragment.strip false = fragment'.strip false := Definition.fragment.inj same
        refine congrArg Definition.fragment ?_
        unfold Fragment.given
        rw [found]
        split
        · exact same'
        · next definitions _ =>
          exact congrArg (fun stripped : Fragment => { stripped with
            variableDefinitions := definitions.map (VariableDefinition.strip false) }) same'
      · have own' : (fragment'.location.bind Location.text?) =
            fragment.location.bind Location.text? := own
        simp only [Definition.given, Definition.location, Fragment.given_location, own']

section
variable {table table' : VariableTable} {bound start : Nat}

theorem lookup_onward (distance : Nat) :
    (onwardTable distance table).lookup (distance + start) = table.lookup start := by
  induction table with
  | nil => rfl
  | cons entry table ih =>
    have same : (distance + start == entry.1 + distance) = (start == entry.1) := by
      rw [Bool.eq_iff_iff, beq_iff_eq, beq_iff_eq]
      omega
    rw [onwardTable, List.map_cons, List.lookup_cons, List.lookup_cons, same]
    split
    · rfl
    · exact ih

/-- Of two tables, the second further on, the first has what belongs to early offsets. -/
theorem lookup_front (early : start ≤ bound) :
    (table ++ onwardTable (bound + 1) table').lookup start = table.lookup start := by
  have none : (onwardTable (bound + 1) table').lookup start = none := by
    simp only [onwardTable, List.lookup_eq_none_iff, List.mem_map, bne_iff_ne]
    rintro _ ⟨entry, -, rfl⟩
    exact (by omega : start ≠ entry.1 + (bound + 1))
  rw [List.lookup_append, none, Option.or_none]

/-- The second has what belongs to offsets behind those of the first. -/
theorem lookup_back (within : ∀ entry ∈ table, entry.1 ≤ bound) :
    (table ++ onwardTable (bound + 1) table').lookup (bound + 1 + start) = table'.lookup start := by
  have none : table.lookup (bound + 1 + start) = none := by
    simp only [List.lookup_eq_none_iff, bne_iff_ne]
    intro entry member
    have before := within entry member
    omega
  rw [List.lookup_append, none, Option.none_or, lookup_onward]

end

/-- What a straight text is parsed into, by what is read from it when its lists are apart. -/
theorem parse_prepared {options : ParseOptions} {source : String} {document : Document}
    (straight : Straight source.toList) (parsed : Document.parse options source = .ok document) :
    ∃ text table definitions, Prepared options source text table definitions ∧
      document.definitions = definitions.map (Definition.given table) := by
  obtain ⟨text, table, definitions, prepared, read, rfl⟩ := parse_ok parsed
  have here : Prepared options source text table definitions := ⟨straight, prepared, read⟩
  exact ⟨text, table, definitions, here, here.attached⟩

theorem Unmarked.straight {text : List Char} (unmarked : Unmarked text) : Straight text :=
  straight_of_unmarked unmarked

theorem Unmarked.line {first second : List Char} (unmarked : Unmarked first)
    (unmarked' : Unmarked second) : Unmarked (first ++ '\n' :: second) := by
  intro char member
  rcases List.mem_append.mp member with early | late
  · exact unmarked char early
  · rcases List.mem_cons.mp late with rfl | behind
    · decide
    · exact unmarked' char behind

/-- **Documents of texts on lines of their own.** A text behind another one and a line end is parsed
as it is alone: the definitions are those of the one text and then those of the other, each pointing
at the same text as before, and fragments keep their variables. -/
theorem parse_join {options : ParseOptions} {first second : String} {left right : Document}
    (unmarked : Unmarked first.toList) (unmarked' : Unmarked second.toList)
    (parsed : Document.parse options first = .ok left)
    (parsed' : Document.parse options second = .ok right) :
    ∃ document, Document.parse options (first ++ "\n" ++ second) = .ok document ∧
      List.Forall₂ Recurs (left.definitions ++ right.definitions) document.definitions := by
  obtain ⟨text, table, found, here, same⟩ := parse_prepared unmarked.straight parsed
  obtain ⟨text', table', found', there, same'⟩ := parse_prepared unmarked'.straight parsed'
  have joined : (first ++ "\n" ++ second).toList = first.toList ++ '\n' :: second.toList := by simp
  obtain ⟨front, back, read, shifted, shifted'⟩ :=
    readDefinitions_join (.ofPositions (first ++ "\n" ++ second)) here.read there.read
  have both : Prepared options (first ++ "\n" ++ second) _ _ (front ++ back) :=
    ⟨joined ▸ (unmarked.line unmarked').straight, here.join there.prepared, read⟩
  refine ⟨_, parse_of_read both.prepared read, ?_⟩
  have earlier : Part first.toList text (first ++ "\n" ++ second).toList (text ++ '\n' :: text') 0 0 :=
    ⟨[], '\n' :: second.toList, [], '\n' :: text', joined, rfl, .nil, rfl, rfl⟩
  have later : Part second.toList text' (first ++ "\n" ++ second).toList (text ++ '\n' :: text')
      (byteLength first.toList + 1) (byteLength text + 1) := by
    refine ⟨first.toList ++ ['\n'], [], text ++ ['\n'], [], ?_, ?_,
      List.rel_append here.blanked (Blanked.refl _), byteLength_append .., byteLength_append ..⟩
    · rw [joined]
      simp
    · simp
  dsimp only
  rw [both.attached, same, same', List.map_append]
  refine List.rel_append ?_ ?_
  · rw [List.forall₂_map_left_iff, List.forall₂_map_right_iff]
    refine ((List.forall₂_and_left _ _).mpr ⟨fun _ held => held, shifted⟩).imp ?_
    rintro definition other ⟨member, shifted⟩
    refine (here.rests both earlier shifted).given fun fragment start fragments begins => ?_
    rw [Nat.zero_add]
    exact lookup_front (here.start_le (fragments ▸ member) begins)
  · rw [List.forall₂_map_left_iff, List.forall₂_map_right_iff]
    refine shifted'.imp fun definition other shifted => ?_
    exact (there.rests both later shifted).given fun _ _ _ _ => lookup_back here.table_le

/-- Any number of texts on lines of their own are parsed one by one. -/
theorem parse_lines {options : ParseOptions} {texts : List String} {documents : List Document}
    (some : texts ≠ []) (unmarked : ∀ text ∈ texts, Unmarked text.toList)
    (accepted : List.Forall₂ (fun text document => Document.parse options text = .ok document)
      texts documents) :
    Unmarked ("\n".intercalate texts).toList ∧
      ∃ document, Document.parse options ("\n".intercalate texts) = .ok document ∧
        List.Forall₂ Recurs (documents.flatMap Document.definitions) document.definitions := by
  induction accepted with
  | nil => exact absurd rfl some
  | @cons first left texts documents parsed later ih =>
    obtain ⟨here, others⟩ := List.forall_mem_cons.mp unmarked
    rw [List.flatMap_cons]
    cases later with
    | nil =>
      rw [String.intercalate_singleton, List.flatMap_nil, List.append_nil]
      exact ⟨here, left, parsed, recurs_refl _⟩
    | @cons second right texts documents parsed' later =>
      obtain ⟨behind, document, rest, recurs⟩ := ih (List.cons_ne_nil _ _) others
      rw [String.intercalate_cons_cons]
      obtain ⟨whole, all, recurs'⟩ := parse_join here behind parsed rest
      exact ⟨by simpa using here.line behind, whole, all,
        recurs_trans (List.rel_append (recurs_refl _) recurs) recurs'⟩

end QueryStore
