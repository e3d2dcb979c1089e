import QueryStore.Proofs.Document.Spreads
import QueryStore.Proofs.Fragment.Kept

/-! Where inline fragments begin. Their braces, and all that stands between their dots and these, is
found in the source as it is in the text that the lists of variables were cut out of, and so in a
straight text the lines and columns of their tokens lead to where these stand (`Dotted`). From the
token behind the dots these are found exactly if no comment stands between
(`inline_fragments_dotted_iff`). -/
namespace QueryStore
open Text Grammar

/-- Tokens between two others stand between them in bytes. -/
theorem tokens_between {text : List Char} {inner : List Token} {opening closing : Token}
    (within : opening :: (inner ++ [closing]) <:+: (TokenStream.ofText text).tokens) :
    ∀ token ∈ inner, opening.stop ≤ token.place.offset ∧ token.stop ≤ closing.place.offset := by
  intro token member
  have apart := (tokens_apart nestingLimit .origin text).1.sublist within.sublist
  obtain ⟨first, rest⟩ := List.pairwise_cons.mp apart
  obtain ⟨-, -, last⟩ := List.pairwise_append.mp rest
  exact ⟨first token (List.mem_append_left _ member), last token member closing (by simp)⟩

section
variable {text : List Char} {run : List Token} {dots following closing : Token}
  (introduced : Introduced run dots following closing)
  (within : run <:+: (TokenStream.ofText text).tokens)
include introduced within

theorem Introduced.row : [dots, following] <:+: (TokenStream.ofText text).tokens := by
  obtain ⟨behind, rfl⟩ := List.head?_eq_some_iff.mp introduced.head
  obtain ⟨others, rfl⟩ := List.head?_eq_some_iff.mp introduced.next
  exact (List.prefix_append [dots, following] others).isInfix.trans within

theorem Introduced.ordered : following.place.offset ≤ closing.place.offset := by
  obtain ⟨behind, rfl⟩ := List.head?_eq_some_iff.mp introduced.head
  obtain ⟨others, rfl⟩ := List.head?_eq_some_iff.mp introduced.next
  have last := introduced.last
  rw [List.getLast?_cons_cons] at last
  have rise := ((tokens_rise text).sublist within.sublist).of_cons
  rcases List.mem_cons.mp (List.mem_of_getLast? last) with rfl | later
  · exact Nat.le_refl _
  · exact Nat.le_of_lt (List.rel_of_pairwise_cons rise later)

/-- The text of an inline fragment, from its dots through the brace that closes it. -/
theorem Introduced.spelled : ∃ front gap own behind,
    text = front ++ (("...".toList ++ (gap ++ (own ++ ['\x7d']))) ++ behind) ∧
      dots.place.offset = byteLength front ∧
      following.place.offset = byteLength (front ++ ("...".toList ++ gap)) ∧
      closing.place.offset = byteLength (front ++ ("...".toList ++ (gap ++ own))) ∧
      PassedOver gap := by
  obtain ⟨front, gap, behind, whole, begins, next, passed⟩ :=
    gap_between (introduced.row within)
  obtain ⟨before, after, whole', ends⟩ := token_within _ _ _ closing
    (within.subset (List.mem_of_getLast? introduced.last))
  rw [(Token.punctuator_spelled introduced.dotted).2] at whole next
  rw [(Token.punctuator_spelled introduced.closes).2] at whole'
  have ends' : closing.place.offset = byteLength before := ends.trans (Nat.zero_add _)
  have split : (front ++ ("...".toList ++ gap)) ++ behind = before ++ ("\x7d".toList ++ after) := by
    rw [← whole', whole]
    simp
  obtain ⟨own, rfl, rfl⟩ := split_of_bytes split (next ▸ ends' ▸ introduced.ordered within)
  exact ⟨front, gap, own, after, by simp [whole], begins, next, by simp [ends'], passed⟩

/-- If that text stands in a source as well, the tokens are found there by their positions. -/
theorem Introduced.found {source lead front gap own behind after : List Char}
    (straight : Straight text) (blanked : Blanked lead front)
    (whole : text = front ++ (("...".toList ++ (gap ++ (own ++ ['\x7d']))) ++ behind))
    (split : source = lead ++ (("...".toList ++ (gap ++ (own ++ ['\x7d']))) ++ after))
    (begins : dots.place.offset = byteLength front)
    (follows : following.place.offset = byteLength (front ++ ("...".toList ++ gap)))
    (ends : closing.place.offset = byteLength (front ++ ("...".toList ++ (gap ++ own)))) :
    dots.offsetByPosition source = byteLength lead ∧
      following.offsetByPosition source = byteLength (lead ++ ("...".toList ++ gap)) ∧
      closing.offsetByPosition source = byteLength (lead ++ ("...".toList ++ (gap ++ own))) := by
  have members : ∀ token ∈ run, token ∈ (TokenStream.ofText text).tokens :=
    fun _ member => within.subset member
  have longer : ∀ part, Blanked (lead ++ part) (front ++ part) :=
    fun part => List.rel_append blanked (Blanked.refl part)
  have cuts : ∀ front behind : List Char,
      front ++ (("...".toList ++ (gap ++ (own ++ ['\x7d']))) ++ behind) =
        (front ++ ("...".toList ++ gap)) ++ (own ++ '\x7d' :: behind) ∧
      front ++ (("...".toList ++ (gap ++ (own ++ ['\x7d']))) ++ behind) =
        (front ++ ("...".toList ++ (gap ++ own))) ++ '\x7d' :: behind := by
    simp
  refine ⟨?_, ?_, ?_⟩
  · exact offset_found straight (members _ (List.mem_of_head? introduced.head)) whole begins split
      blanked
  · exact offset_found straight
      (members _ (List.mem_of_mem_tail (List.mem_of_head? introduced.next)))
      (whole.trans (cuts _ _).1) follows (split.trans (cuts _ _).1) (longer _)
  · exact offset_found straight (members _ (List.mem_of_getLast? introduced.last))
      (whole.trans (cuts _ _).2) ends (split.trans (cuts _ _).2) (longer _)

end

/-- An inline fragment in its source: the text before its dots, what is passed over between these
and the next token, and the rest through the brace that closes its selections. The lines and
columns of its tokens lead to where they stand. -/
structure Dotted (source : String) (tokens : List Token) (fragment : InlineFragment) where
  run : List Token
  dots : Token
  following : Token
  closing : Token
  lead : List Char
  gap : List Char
  own : List Char
  behind : List Char
  within : run <:+: tokens
  stands : SelectionStands (dottedBy (.ofPositions source)) run (.inlineFragment fragment)
  introduced : Introduced run dots following closing
  placed : fragment.location =
    (Locator.ofPositions source).inlineFragment dots following closing
  whole : source.toList = lead ++ ("...".toList ++ (gap ++ (own ++ '\x7d' :: behind)))
  passed : PassedOver gap
  begins : dots.offsetByPosition source.toList = byteLength lead
  follows : following.offsetByPosition source.toList = byteLength (lead ++ ("...".toList ++ gap))
  ends : closing.offsetByPosition source.toList =
    byteLength (lead ++ ("...".toList ++ (gap ++ own)))

/-- An inline fragment in its source, with where it is located. -/
theorem Dotted.located {source : String} {tokens : List Token} {fragment : InlineFragment}
    (dotted : Dotted source tokens fragment) : ∃ start,
      fragment.location = some ⟨start,
        byteLength (dotted.lead ++ ("...".toList ++ (dotted.gap ++ dotted.own))) + 1,
        some source⟩ ∧
      (start = byteLength dotted.lead ↔ '#' ∉ dotted.gap) ∧ byteLength dotted.lead ≤ start ∧
      start ≤ byteLength (dotted.lead ++ ("...".toList ++ dotted.gap)) := by
  refine ⟨_, ?_, dotsBefore_between dotted.lead (dotted.own ++ '\x7d' :: dotted.behind)
    dotted.passed⟩
  have fits : byteLength (dotted.lead ++ ("...".toList ++ (dotted.gap ++ dotted.own))) + 1 ≤
      byteLength source.toList := by
    have brace : '\x7d'.utf8Size = 1 := by decide
    rw [dotted.whole]
    simp only [byteLength_append, byteLength, brace]
    omega
  simp only [dotted.placed, Locator.ofPositions, Location.through, dotted.follows, dotted.ends,
    Nat.min_eq_left fits, ← dotted.whole]

/-- Selections stand between braces that match, and so does every selection below them. -/
theorem Grammar.SetStands.between {placement : Placement} {run : List Token} {set : SelectionSet}
    (stands : SetStands placement run set) : ∃ opening inner closing,
      run = opening :: (inner ++ [closing]) ∧ opening.isPunctuator "\x7b" = true ∧
        closing.isPunctuator "\x7d" = true ∧ Balanced (bracketsOf inner) ∧
        ∀ depth, ∀ entry ∈ set.preorder depth,
          ∃ own, own <:+: inner ∧ SelectionStands placement own entry.2 := by
  obtain ⟨inner', ⟨opening', closing', run', -, -⟩, balanced⟩ := stands.enclosed
  cases stands with
  | @braces opening closing inner _ _ opens closes _ inside _ =>
    obtain ⟨rfl, rest⟩ := List.cons.inj run'
    obtain ⟨rfl, -⟩ := List.append_inj' rest rfl
    exact ⟨opening, inner, closing, rfl, opens, closes, balanced,
      fun _ _ member => runs_preorder inside member⟩

section
variable {options : ParseOptions} {source : String} {text : List Char} {table : VariableTable}
  (straight : Straight source.toList)
  (prepared : Document.prepare options source = .ok (text, table))
  (ended : (TokenStream.ofText text).ending = .endOfInput)
include straight prepared ended

/-- From a token between braces that match through another one, the text stands in the source. -/
theorem run_kept {inner : List Token} {opening closer first last : Token}
    (within : opening :: (inner ++ [closer]) <:+: (TokenStream.ofText text).tokens)
    (opens : opening.isPunctuator "\x7b" = true) (shuts : closer.isPunctuator "\x7d" = true)
    (balanced : Balanced (bracketsOf inner)) (inside : first ∈ inner) (inside' : last ∈ inner)
    {front part behind : List Char} (whole : text = front ++ (part ++ behind))
    (begins : first.place.offset = byteLength front)
    (ends : last.stop = byteLength (front ++ part)) :
    ∃ lead after, source.toList = lead ++ (part ++ after) ∧ Blanked lead front := by
  obtain ⟨begins', -⟩ := tokens_between within first inside
  obtain ⟨-, ends'⟩ := tokens_between within last inside'
  obtain ⟨earlier, later, tokens⟩ := within
  have split : (TokenStream.ofText text).tokens =
      earlier ++ opening :: (inner ++ closer :: later) := by simp [← tokens]
  have calm := (straight.blanked (prepare_blanked prepared)).calm
  obtain ⟨kept⟩ := braces_kept ended calm split opens shuts prepared balanced
  exact kept.part whole (begins ▸ begins') (ends ▸ ends')

/-- An inline fragment below selections is found in the source. -/
theorem dotted_of_stands {below : List Token} {set : SelectionSet}
    (stands : SetStands (dottedBy (.ofPositions source)) below set)
    (within : below <:+: (TokenStream.ofText text).tokens) {depth level : Nat}
    {fragment : InlineFragment} (member : (level, .inlineFragment fragment) ∈ set.preorder depth) :
    Nonempty (Dotted source (TokenStream.ofText text).tokens fragment) := by
  obtain ⟨opening, inner, closer, rfl, opens, shuts, balanced, entries⟩ := stands.between
  obtain ⟨run, inside, stands'⟩ := entries depth _ member
  obtain ⟨dots, following, closing, introduced, placed⟩ := stands'.placed
  have within' : run <:+: (TokenStream.ofText text).tokens :=
    (inside.trans ⟨[opening], [closer], by simp⟩).trans within
  obtain ⟨front, gap, own, behind, whole, begins, follows, ends, passed⟩ :=
    introduced.spelled within'
  have ends' : closing.stop =
      byteLength (front ++ ("...".toList ++ (gap ++ (own ++ ['\x7d'])))) := by
    rw [Token.stop, (Token.punctuator_spelled introduced.closes).2, ends, ← byteLength_append]
    simp
  obtain ⟨lead, after, split, blanked⟩ := run_kept straight prepared ended within opens shuts
    balanced (inside.subset (List.mem_of_head? introduced.head))
    (inside.subset (List.mem_of_getLast? introduced.last)) whole begins ends'
  obtain ⟨begins', follows', ends'⟩ := introduced.found within'
    (straight.blanked (prepare_blanked prepared)) blanked whole split begins follows ends
  exact ⟨run, dots, following, closing, lead, gap, own, after, within', stands', introduced,
    placed, by simp [split], passed, begins', follows', ends'⟩

end

/-- The inline fragment that a selection is, if it is one. -/
def Selection.inlineFragment? : Selection → Option InlineFragment
  | .inlineFragment fragment => some fragment
  | _ => none

/-- The inline fragments of a document at any depth, each before those below it. -/
def Document.inlineFragments (document : Document) : List InlineFragment :=
  document.definitions.flatMap fun definition =>
    (definition.selectionSet.preorder 0).filterMap fun entry => entry.2.inlineFragment?

theorem mem_inlineFragments {document : Document} {fragment : InlineFragment} :
    fragment ∈ document.inlineFragments ↔ ∃ definition ∈ document.definitions,
      ∃ level, (level, .inlineFragment fragment) ∈ definition.selectionSet.preorder 0 := by
  have known : ∀ selection : Selection,
      selection.inlineFragment? = some fragment ↔ selection = .inlineFragment fragment := by
    intro selection
    cases selection <;> simp [Selection.inlineFragment?]
  simp [Document.inlineFragments, known]

/-- **Inline fragments begin at their dots, unless a comment follows these.** An inline fragment at
any depth of a document that is read from a straight text ends behind the brace that closes its
selections. It begins at its three dots exactly if no comment stands between them and the next
token, and somewhere between the two in any case. -/
theorem inline_fragments_dotted_iff {options : ParseOptions} {source : String} {document : Document}
    (straight : Straight source.toList) (parsed : Document.parse options source = .ok document) :
    ∃ text table, Document.prepare options source = .ok (text, table) ∧
      ∀ fragment ∈ document.inlineFragments,
        ∃ dotted : Dotted source (TokenStream.ofText text).tokens fragment, ∃ start,
          fragment.location = some ⟨start,
            byteLength (dotted.lead ++ ("...".toList ++ (dotted.gap ++ dotted.own))) + 1,
            some source⟩ ∧
          (start = byteLength dotted.lead ↔ '#' ∉ dotted.gap) ∧ byteLength dotted.lead ≤ start ∧
          start ≤ byteLength (dotted.lead ++ ("...".toList ++ dotted.gap)) := by
  obtain ⟨text, table, found, prepared, read, rfl⟩ := parse_ok parsed
  obtain ⟨ended, runs⟩ := readDefinitions_stand (dottedBy_locates _ _) read
  refine ⟨text, table, prepared, fun fragment member => ?_⟩
  obtain ⟨definition, held, level, listed⟩ := mem_inlineFragments.mp member
  have selections := attached_views Definition.selectionSet (fun _ _ => rfl) table found
  obtain ⟨original, held', same⟩ := List.mem_map.mp (selections ▸ List.mem_map_of_mem held)
  obtain ⟨run, within, stands⟩ := runs.exists_of_mem held'
  obtain ⟨below, ending, stands'⟩ := stands.selected
  obtain ⟨dotted⟩ := dotted_of_stands straight prepared ended stands'
    (ending.isInfix.trans within) (same ▸ listed)
  exact ⟨dotted, dotted.located⟩

/-- Inline fragments in a row and in one another, behind a list of variables, with commas, line
ends and characters of several bytes around. The last has a comment behind its dots, and begins at
its brace. -/
theorem nested_fragments_dotted :
    let source := "fragment F($x: I) on T \x7b f(s: \"é\") ...,\n on A " ++
      "\x7b ...@d \x7b a \x7d \x7d ... # b\n\x7b c \x7d \x7d"
    ∃ document text table, Document.parse ⟨true⟩ source = .ok document ∧
      Document.prepare ⟨true⟩ source = .ok (text, table) ∧
      document.inlineFragments.map (fun fragment =>
        fragment.location.map fun location => (location.start, location.stop)) =
          [some (36, 62), some (49, 60), some (71, 76)] ∧
      ∀ fragment ∈ document.inlineFragments,
        ∃ dotted : Dotted source (TokenStream.ofText text).tokens fragment, ∃ start,
          fragment.location = some ⟨start,
            byteLength (dotted.lead ++ ("...".toList ++ (dotted.gap ++ dotted.own))) + 1,
            some source⟩ ∧
          (start = byteLength dotted.lead ↔ '#' ∉ dotted.gap) := by
  intro source
  have located : (Document.parse ⟨true⟩ source).toOption.map (fun document =>
      document.inlineFragments.map fun fragment =>
        fragment.location.map fun location => (location.start, location.stop)) =
      some [some (36, 62), some (49, 60), some (71, 76)] := by
    decide +kernel
  cases parsed : Document.parse ⟨true⟩ source with
  | error failure =>
    rw [parsed] at located
    cases located
  | ok document =>
    obtain ⟨text, table, prepared, all⟩ :=
      inline_fragments_dotted_iff (straight_of_unmarked (by simp [source])) parsed
    rw [parsed] at located
    refine ⟨document, text, table, rfl, prepared, Option.some.inj located, fun _ member => ?_⟩
    obtain ⟨dotted, start, place, begins, -⟩ := all _ member
    exact ⟨dotted, start, place, begins⟩

/-- Dots at the end of a comment are taken for those that stand before it. -/
theorem comment_hides_dots :
    let source := "\x7b ... # ...\n on T \x7b a \x7d \x7d"
    ((TokenStream.ofText source.toList).tokens.filter (Token.isPunctuator "...")).map
        (·.place.offset) = [2] ∧
      (Document.parse ⟨false⟩ source).toOption.map (fun document =>
        document.inlineFragments.map fun fragment => fragment.location.map (·.start)) =
        some [some 8] :=
  ⟨by decide +kernel, by decide +kernel⟩

end QueryStore
