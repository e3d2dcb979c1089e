import QueryStore.Proofs.Document.Tail
import QueryStore.Proofs.Fragment.Aligned
import QueryStore.Proofs.Fragment.Cutting

/-! What the cut of a text into pieces makes of the tokens of a definition. A run of tokens is
kept under a condition on the spot before it, and leaves a condition on the spot behind it
(`Keeps`). Whole definitions are kept (`definition_keeps`): lists of variables might begin only
behind the first names of fragments (`headings`), and no parenthesis stands there. -/
namespace QueryStore
open Text Grammar

/-- Lists of variables, given by the offset of a keyword and the name of a fragment. -/
abbrev Heads : Type := Nat × List Char → Prop

/-- The chunks of a run of tokens are kept. The text that is cut may be another one than the
text of the tokens, in which the same chunks begin `shift` bytes later. -/
def Keeps (heads : Heads) (shift : Nat) (before : Spot → Prop) (run : List Token)
    (behind : Spot → Prop) : Prop :=
  ∀ offset tokens chunks, Aligned offset (run ++ tokens) chunks →
    ∃ part rest, chunks = part ++ rest ∧
      Aligned (offset + byteLength (Chunk.textOf part)) tokens rest ∧
      ∀ spot : Spot, spot.offset = offset + shift → before spot →
        Still heads spot part ∧ behind (spot.after part)

/-- Outside of all brackets, behind names of a kind. -/
structure Spot.Behind (names : RecentNames → Prop) (spot : Spot) : Prop where
  outside : spot.depth = ⟨0, 0⟩
  names : names spot.recent

/-- Outside of all brackets, right behind a chunk that is no name. -/
abbrev Spot.Fresh : Spot → Prop := Spot.Behind (· = [])

section
variable {heads : Heads} {shift : Nat} {before between behind : Spot → Prop} {run : List Token}

theorem Keeps.weaken {before' behind' : Spot → Prop} (keeps : Keeps heads shift before run behind)
    (stronger : ∀ spot, before' spot → before spot) (weaker : ∀ spot, behind spot → behind' spot) :
    Keeps heads shift before' run behind' := by
  intro offset tokens chunks aligned
  obtain ⟨part, rest, split, later, kept⟩ := keeps offset tokens chunks aligned
  refine ⟨part, rest, split, later, fun spot place held => ?_⟩
  obtain ⟨still, reached⟩ := kept spot place (stronger spot held)
  exact ⟨still, weaker _ reached⟩

theorem Keeps.append {run' : List Token} (first : Keeps heads shift before run between)
    (second : Keeps heads shift between run' behind) : Keeps heads shift before (run ++ run') behind := by
  intro offset tokens chunks aligned
  rw [List.append_assoc] at aligned
  obtain ⟨part, rest, rfl, aligned', kept⟩ := first _ _ _ aligned
  obtain ⟨part', rest', rfl, aligned'', kept'⟩ := second _ _ _ aligned'
  rw [Nat.add_assoc, ← byteLength_append, ← Chunk.textOf_append] at aligned''
  refine ⟨part ++ part', rest', (List.append_assoc ..).symm, aligned'', fun spot place held => ?_⟩
  obtain ⟨still, reached⟩ := kept spot place held
  have place' : (spot.after part).offset = offset + byteLength (Chunk.textOf part) + shift := by
    rw [spot.after_offset, place]
    omega
  obtain ⟨still', reached'⟩ := kept' _ place' reached
  rw [Spot.after_append]
  exact ⟨still_append.mpr ⟨still, still'⟩, reached'⟩

theorem Keeps.nil : Keeps heads shift before [] before := by
  intro offset tokens chunks aligned
  exact ⟨[], chunks, rfl, aligned, fun spot _ held => ⟨trivial, held⟩⟩

theorem Keeps.cons {token : Token} (first : Keeps heads shift before [token] between)
    (second : Keeps heads shift between run behind) : Keeps heads shift before (token :: run) behind :=
  first.append second

private theorem Spot.Behind.known {names : RecentNames → Prop} {spot : Spot}
    (held : spot.Behind names)
    (known : ∀ recent, names recent → ∀ heading ∈ recent.heading?, heads heading) :
    ∀ heading ∈ spot.heading?, heads heading := by
  rw [Spot.heading?, if_pos held.outside]
  exact known _ held.names

/-- A name is kept and remembered, with the gap before it. -/
theorem name_part {token : Token} (named : token.isName = true) {names : RecentNames → Prop}
    (known : ∀ recent, names recent → ∀ heading ∈ recent.heading?, heads heading) {offset : Nat}
    {tokens : List Token} {chunks : List Chunk} (aligned : Aligned offset (token :: tokens) chunks) :
    ∃ gap rest, chunks = (gap ++ [.name token.text.toList]) ++ rest ∧
      token.place.offset + byteLength token.text.toList =
        offset + byteLength (Chunk.textOf (gap ++ [.name token.text.toList])) ∧
      Aligned (token.place.offset + byteLength token.text.toList) tokens rest ∧
      ∀ spot : Spot, spot.offset = offset + shift → spot.Behind names →
        Still heads spot (gap ++ [.name token.text.toList]) ∧
        (spot.after (gap ++ [.name token.text.toList])).Behind fun recent => ∃ earlier,
          names earlier ∧ recent = (token.place.offset + shift, token.text.toList) :: earlier := by
  obtain ⟨gap, rest, rfl, blank, place, later⟩ := aligned.at_name named
  refine ⟨gap, rest, by simp, ?_, later, fun spot begins held => ?_⟩
  · rw [place, Nat.add_assoc, ← byteLength_append]
    simp [Chunk.text]
  · have after := spot.after_gap blank
    have held' : (spot.after gap).Behind names := by
      rw [after]
      exact ⟨held.outside, held.names⟩
    have here : Still heads (spot.after gap) [.name token.text.toList] :=
      ⟨fun heading found => ⟨held'.known known heading found, by simp⟩, trivial⟩
    refine ⟨still_append.mpr ⟨gap_still blank (held.known known), here⟩, ?_⟩
    rw [Spot.after_append, after]
    refine ⟨held.outside, spot.recent, held.names, ?_⟩
    have begins' : spot.offset + byteLength (Chunk.textOf gap) = token.place.offset + shift := by
      omega
    rw [← begins']
    rfl

theorem name_keeps {token : Token} (named : token.isName = true) {names : RecentNames → Prop}
    (known : ∀ recent, names recent → ∀ heading ∈ recent.heading?, heads heading) :
    Keeps heads shift (Spot.Behind names) [token] (Spot.Behind fun recent =>
      ∃ earlier, names earlier ∧
        recent = (token.place.offset + shift, token.text.toList) :: earlier) := by
  intro offset tokens chunks aligned
  obtain ⟨gap, rest, rfl, stop, later, kept⟩ := name_part named known aligned
  exact ⟨_, rest, rfl, stop ▸ later, kept⟩

/-- A mark where no list may begin is kept, with the gap before it. -/
private theorem mark_still {gap : List Chunk} (blank : gap.all Chunk.isGap = true) {spot : Spot}
    (closed : spot.Closed) : Still heads spot gap ∧ (spot.after gap).Closed := by
  refine ⟨gap_still blank (by simp [closed.heading]), ?_⟩
  rw [spot.after_gap blank]
  exact ⟨closed.outside, closed.shut⟩

/-- An at sign is kept, and the names before it are forgotten. -/
theorem sign_keeps {sign : Token} (marked : sign.isPunctuator "@" = true) :
    Keeps heads shift Spot.Closed [sign] Spot.Fresh := by
  intro offset tokens chunks aligned
  obtain ⟨mark, spelled⟩ := Token.punctuator_spelled marked
  have spelled' : sign.text.toList = ['@'] := spelled
  obtain ⟨gap, rest, rfl, blank, later⟩ := aligned.at_mark mark spelled' (Or.inl rfl)
  refine ⟨gap ++ [.mark '@'], rest, by simp, ?_, fun spot begins closed => ?_⟩
  · simpa [Chunk.text] using later
  · obtain ⟨still, closed'⟩ := mark_still blank closed
    refine ⟨still_append.mpr ⟨still, still_cons closed'.heading trivial⟩, ?_⟩
    rw [Spot.after_append]
    exact ⟨closed'.outside, rfl⟩

/-- What stands in brackets of one kind is kept. -/
private theorem enclosed_keeps {opens closes : String} {opening closing : Char}
    {inner : List Token} (enclosed : Enclosed opens closes run inner)
    (pair : Pair opening closing) (opened : opens.toList = [opening])
    (closed : closes.toList = [closing]) : Keeps heads shift Spot.Closed run Spot.Fresh := by
  obtain ⟨⟨first, last, rfl, opens', closes'⟩, inside⟩ := enclosed
  have brackets : isBracket opening = true ∧ isBracket closing = true := by cases pair <;> decide
  intro offset tokens chunks aligned
  rw [List.cons_append, List.append_assoc] at aligned
  obtain ⟨mark, spelled⟩ := Token.punctuator_spelled opens'
  obtain ⟨gap, rest, rfl, blank, later⟩ :=
    aligned.at_mark mark (spelled.trans opened) (Or.inr brackets.1)
  obtain ⟨mark', spelled'⟩ := Token.punctuator_spelled closes'
  obtain ⟨part, rest', rfl, same, -, later'⟩ :=
    later.up_to mark' (spelled'.trans closed) brackets.2
  refine ⟨gap ++ .mark opening :: (part ++ [.mark closing]), rest', by simp, ?_,
    fun spot begins held => ?_⟩
  · rw [Nat.add_assoc, ← byteLength_append] at later'
    simpa [Chunk.text] using later'
  · obtain ⟨still, held'⟩ := mark_still blank held
    obtain ⟨still', after'⟩ := enclosed_still held' pair (same ▸ inside)
    refine ⟨still_append.mpr ⟨still, still'⟩, ?_⟩
    rw [Spot.after_append, after']
    exact ⟨rfl, rfl⟩

theorem Group.keeps (group : Group run) : Keeps heads shift Spot.Closed run Spot.Fresh := by
  cases group with
  | parentheses enclosed => exact enclosed_keeps enclosed .parentheses rfl rfl
  | braces enclosed => exact enclosed_keeps enclosed .braces rfl rfl

theorem fresh_closed (spot : Spot) (fresh : spot.Fresh) : spot.Closed :=
  ⟨fresh.outside, by rw [fresh.names]; rfl⟩

/-- What a definition ends with is kept, unless a list may begin right before it. -/
theorem Tail.keeps (tail : Tail run) : Keeps heads shift Spot.Closed run Spot.Fresh := by
  induction tail with
  | last group => exact group.keeps
  | group group behind ih =>
    exact group.keeps.append (ih.weaken fresh_closed fun _ held => held)
  | @directive sign name rest marked named behind ih =>
    have naming : Keeps heads shift Spot.Fresh [name] Spot.Closed := by
      refine (name_keeps named ?_).weaken (fun _ held => held) ?_
      · rintro _ rfl _ ⟨⟩
      · rintro spot ⟨outside, _, rfl, names⟩
        exact ⟨outside, by rw [names]; rfl⟩
    exact (sign_keeps marked).cons (naming.cons ih)

/-- The keyword and the name of a fragment are kept. -/
theorem heading_keeps {keyword name : Token} (worded : keyword.isName = true)
    (named : name.isName = true) : Keeps heads shift Spot.Fresh [keyword, name]
      (Spot.Behind (· = [(name.place.offset + shift, name.text.toList),
        (keyword.place.offset + shift, keyword.text.toList)])) := by
  have first : Keeps heads shift Spot.Fresh [keyword]
      (Spot.Behind (· = [(keyword.place.offset + shift, keyword.text.toList)])) := by
    refine (name_keeps worded ?_).weaken (fun _ held => held) ?_
    · rintro _ rfl _ ⟨⟩
    · rintro spot ⟨outside, _, rfl, names⟩
      exact ⟨outside, names⟩
  refine first.cons ((name_keeps named ?_).weaken (fun _ held => held) ?_)
  · rintro _ rfl _ ⟨⟩
  · rintro spot ⟨outside, _, rfl, names⟩
    exact ⟨outside, names⟩

/-- What follows the name of a fragment is kept, if the lists that may begin before it and
behind its first word are of the given kind. -/
theorem fragment_keeps {on type : Token} (parted : on.isWord "on" = true)
    (typed : type.isName = true) (tail : Tail run) {names : RecentNames → Prop}
    (known : ∀ recent, names recent → ∀ heading ∈ recent.heading?, heads heading)
    (known' : ∀ recent, names recent → ∀ heading ∈ RecentNames.heading?
      ((on.place.offset + shift, on.text.toList) :: recent), heads heading) :
    Keeps heads shift (Spot.Behind names) (on :: type :: run) Spot.Fresh := by
  simp only [Token.isWord, Bool.and_eq_true, decide_eq_true_eq] at parted
  have named : on.isName = true := by simpa [Token.isName] using parted.1
  refine (name_keeps named known).cons ((name_keeps typed ?_).cons
    (tail.keeps.weaken ?_ fun _ held => held))
  · rintro _ ⟨earlier, held, rfl⟩
    exact known' earlier held
  · rintro spot ⟨outside, _, ⟨_, -, rfl⟩, recent⟩
    refine ⟨outside, ?_⟩
    rw [recent, parted.2]
    rfl

/-- The lists of variables that may stand in a fragment: behind its name, and behind the word
after it, if the name looks like the keyword. -/
def headings (shift : Nat) : List Token → List (Nat × List Char)
  | keyword :: name :: on :: _ => (keyword.place.offset + shift, name.text.toList) ::
      if name.text.toList = "fragment".toList then [(name.place.offset + shift, on.text.toList)]
      else []
  | _ => []

/-- Whole definitions are kept. -/
theorem definition_keeps {placement : Placement} {definition : Definition}
    (stands : DefinitionStands placement run definition)
    (known : ∀ fragment, definition = .fragment fragment →
      ∀ heading ∈ headings shift run, heads heading) :
    Keeps heads shift Spot.Fresh run Spot.Fresh := by
  cases stands with
  | shorthand selected placed =>
    exact (selections_tail selected).keeps.weaken fresh_closed fun _ held => held
  | @operation keyword label _ _ _ kind _ _ _ _ worded means named declares directives selected =>
    have tail := (variables_extend declares).append (directives_extend directives) _
      (selections_tail selected)
    rw [List.append_assoc] at tail
    refine (name_keeps worded (by rintro _ rfl _ ⟨⟩)).cons ?_
    cases label with
    | none =>
      refine tail.keeps.weaken ?_ fun _ held => held
      rintro spot ⟨outside, _, rfl, recent⟩
      exact ⟨outside, by rw [recent]; rfl⟩
    | some label =>
      refine (name_keeps (named label rfl) ?_).cons (tail.keeps.weaken ?_ fun _ held => held)
      · rintro _ ⟨_, rfl, rfl⟩ _ ⟨⟩
      · rintro spot ⟨outside, _, ⟨_, rfl, rfl⟩, recent⟩
        refine ⟨outside, ?_⟩
        rw [recent]
        exact if_neg fun same => operationKind_ne_fragment means (String.toList_inj.mp same)
  | @fragment keyword name on type _ _ _ _ _ worded named parted typed directives selected =>
    have tail := directives_extend directives _ (selections_tail selected)
    have worded' : keyword.isName = true ∧ keyword.text = "fragment" := by
      simpa [Token.isWord, Token.isName] using worded
    have known' := known _ rfl
    refine (heading_keeps worded'.1 named).append (fragment_keeps parted typed tail ?_ ?_)
    · rintro _ rfl heading found
      simp only [RecentNames.heading?, worded'.2, ↓reduceIte, Option.mem_some_iff] at found
      exact known' heading (found ▸ List.mem_cons_self)
    · rintro _ rfl heading found
      simp only [RecentNames.heading?] at found
      split at found
      · next lookalike =>
        refine known' heading (List.mem_cons_of_mem _ ?_)
        rw [if_pos lookalike, List.mem_singleton]
        exact (Option.mem_some_iff.mp found).symm
      · cases found

/-- Definitions in a row are kept. -/
theorem definitions_keep {placement : Placement} {tokens : List Token} {found : List Definition}
    (runs : Runs (DefinitionStands placement) tokens found)
    (known : ∀ run fragment, run <:+: tokens → .fragment fragment ∈ found →
      DefinitionStands placement run (.fragment fragment) →
      ∀ heading ∈ headings shift run, heads heading) :
    Keeps heads shift Spot.Fresh tokens Spot.Fresh := by
  induction runs with
  | nil => exact .nil
  | @cons run others item items first rest ih =>
    refine (definition_keeps first ?_).append (ih ?_)
    · rintro fragment rfl
      exact known run fragment (List.prefix_append run others).isInfix List.mem_cons_self first
    · intro run' fragment within member
      exact known run' fragment (within.trans (List.suffix_append run others).isInfix)
        (List.mem_cons_of_mem _ member)

end

/-- The text of definitions is kept as a whole, if no carriage return stands in its strings. What
comes behind it is cut as a text of its own. -/
theorem text_still {heads : Heads} {placement : Placement} {text : List Char}
    {found : List Definition} (ended : (TokenStream.ofText text).ending = .endOfInput)
    (calm : Calm (TokenStream.ofText text).tokens)
    (runs : Runs (DefinitionStands placement) (TokenStream.ofText text).tokens found)
    (known : ∀ run fragment, run <:+: (TokenStream.ofText text).tokens →
      .fragment fragment ∈ found → DefinitionStands placement run (.fragment fragment) →
      ∀ heading ∈ headings 0 run, heads heading) :
    Still heads (.fresh 0) (Chunk.ofText text) ∧
      ((Spot.fresh 0).after (Chunk.ofText text)).Fresh := by
  have aligned : Aligned 0 (TokenStream.ofText text).tokens (Chunk.ofText text) :=
    tokens_aligned ended calm
  rw [← List.append_nil (TokenStream.ofText text).tokens] at aligned
  obtain ⟨part, rest, split, last, kept⟩ := definitions_keep runs known 0 [] _ aligned
  obtain ⟨still, fresh⟩ := kept (.fresh 0) rfl ⟨rfl, rfl⟩
  have closed : (((Spot.fresh 0).after part)).heading? = none :=
    (fresh_closed _ fresh).heading
  rw [split, Spot.after_append, Spot.after_gap last.behind_last]
  exact ⟨still_append.mpr ⟨still, gap_still last.behind_last (by simp [closed])⟩,
    fresh.outside, fresh.names⟩

end QueryStore
