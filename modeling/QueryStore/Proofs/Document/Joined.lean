import QueryStore.Proofs.Document.Segments
import QueryStore.Proofs.Document.Tail
import QueryStore.Proofs.Token.Joined
import QueryStore.Proofs.Token.Shuts

/-! The definitions of two texts, the second on a new line behind the first, are those of the one
and then those of the other (`readDefinitions_join`). A definition is the same as in its own text,
and begins and ends with the same tokens, as many bytes further on as its text does (`Shifted`). -/
namespace QueryStore
open Text

namespace Grammar
open Reader

/-- Definitions that are read from tokens in turn, until no token is left. -/
inductive InTurn (locator : Locator) (size : Nat) : List Token → List Definition → Prop
  | none : InTurn locator size [] []
  | next {taken rest : List Token} {first : Definition} {others : List Definition}
    (read : definition locator size (taken ++ rest) = .ok (first, rest))
    (later : InTurn locator size rest others) :
    InTurn locator size (taken ++ rest) (first :: others)

section
variable {locator locator' : Locator} {size size' fuel : Nat} {tokens : List Token}
  {found : List Definition}

/-- A definition takes tokens. -/
private theorem definition_takes {taken rest : List Token} {first : Definition}
    (read : definition locator size (taken ++ rest) = .ok (first, rest)) : taken ≠ [] := by
  obtain ⟨taken', split, filled, -⟩ := definition_shuts locator locator (Nat.le_refl size) _ _ _ read
  obtain rfl := List.append_cancel_right split
  exact filled

/-- There are no more definitions than tokens. -/
theorem InTurn.length_le (turns : InTurn locator size tokens found) :
    found.length ≤ tokens.length := by
  induction turns with
  | none => exact Nat.le_refl _
  | next read _ ih =>
    have filled := List.length_pos_iff.mpr (definition_takes read)
    simp only [List.length_cons, List.length_append]
    omega

theorem inTurn_of_definitions {rest : List Token}
    (read : definitions locator size fuel tokens = .ok (found, rest)) :
    InTurn locator size tokens found ∧ found ≠ [] := by
  induction fuel generalizing tokens found with
  | zero => cases tokens <;> cases read
  | succ fuel ih =>
    obtain ⟨first, middle, one, peeked⟩ := bind_ok.mp read
    obtain ⟨_, _, ⟨⟩, others⟩ := bind_ok.mp peeked
    obtain ⟨taken, rfl, -⟩ := definition_shuts locator locator (Nat.le_refl size) _ _ _ one
    cases middle with
    | nil =>
      cases others
      exact ⟨.next one .none, List.cons_ne_nil _ _⟩
    | cons token middle =>
      obtain ⟨more, _, later, ⟨⟩⟩ := bind_ok.mp others
      exact ⟨.next one (ih later).1, List.cons_ne_nil _ _⟩

theorem InTurn.definitions (turns : InTurn locator size tokens found) (filled : found ≠ [])
    (enough : found.length ≤ fuel) :
    Grammar.definitions locator size fuel tokens = .ok (found, []) := by
  induction turns generalizing fuel with
  | none => exact absurd rfl filled
  | @next taken rest first others read later ih =>
    obtain ⟨fuel, rfl⟩ := Nat.exists_eq_succ_of_ne_zero (Nat.ne_zero_of_lt enough)
    refine bind_ok.mpr ⟨first, rest, read, ?_⟩
    cases later with
    | none => exact bind_ok.mpr ⟨_, _, rfl, rfl⟩
    | @next taken' rest' _ _ read' later' =>
      obtain ⟨token, more, rfl⟩ := List.exists_cons_of_ne_nil (definition_takes read')
      have behind := ih (List.cons_ne_nil _ _) (Nat.le_of_succ_le_succ enough)
      exact bind_ok.mpr ⟨_, _, rfl, bind_ok.mpr ⟨_, _, behind, rfl⟩⟩

/-- A definition and what it is in another text, in which its tokens stand further on. -/
structure Shifted (offset : Nat) (locator locator' : Locator) (tokens tokens' : List Token)
    (left right : Definition) : Prop where
  same : SameDefinition left right
  placed : ∃ first ∈ tokens, ∃ closing ∈ tokens, ∃ first' ∈ tokens', ∃ closing' ∈ tokens',
    Token.Along 0 offset first first' ∧ Token.Along 0 offset closing closing' ∧
    closing.isPunctuator "\x7d" = true ∧
    left.location = locator.node first closing ∧ right.location = locator'.node first' closing'

theorem Shifted.within {offset : Nat} {tokens' more more' : List Token} {left right : Definition}
    (shifted : Shifted offset locator locator' tokens tokens' left right) (here : tokens ⊆ more)
    (there : tokens' ⊆ more') : Shifted offset locator locator' more more' left right := by
  obtain ⟨same, first, member, closing, member', first', other, closing', other', rest⟩ := shifted
  exact ⟨same, first, here member, closing, here member', first', there other, closing',
    there other', rest⟩

/-- The location of a definition is that of the first and the last of its tokens. -/
private theorem definition_ends {taken rest : List Token} {found : Definition}
    (read : definition locator size (taken ++ rest) = .ok (found, rest)) :
    ∃ first ∈ taken.head?, ∃ closing ∈ taken.getLast?, closing.isPunctuator "\x7d" = true ∧
      found.location = locator.node first closing := by
  obtain ⟨run, split, stands⟩ := definition_stands
    (placedBy_locates locator (taken ++ rest)) _ _ _ (List.suffix_refl _) read
  obtain rfl := List.append_cancel_right split
  exact stands.placed

/-- The first entries of related lists are related, and so are the last. -/
private theorem forall₂_ends {α β : Type} {R : α → β → Prop} {left : List α} {right : List β}
    (related : List.Forall₂ R left right) :
    (∀ first ∈ left.head?, ∀ first' ∈ right.head?, R first first') ∧
      ∀ last ∈ left.getLast?, ∀ last' ∈ right.getLast?, R last last' := by
  have heads : ∀ {left : List α} {right : List β}, List.Forall₂ R left right →
      ∀ first ∈ left.head?, ∀ first' ∈ right.head?, R first first' := by
    rintro _ _ (_ | ⟨here, _⟩) first ⟨⟩ first' ⟨⟩
    exact here
  refine ⟨heads related, ?_⟩
  rw [List.getLast?_eq_head?_reverse, List.getLast?_eq_head?_reverse]
  exact heads (List.rel_reverse related)

/-- Tokens that stand further on are read in turn as before, and then what stands behind them. -/
theorem InTurn.join {offset : Nat} {front more : List Token} {others : List Definition}
    (locator' : Locator) (turns : InTurn locator size tokens found)
    (along : List.Forall₂ (Token.Along 0 offset) tokens front) (enough : size ≤ size')
    (behind : InTurn locator' size' more others) :
    ∃ found', InTurn locator' size' (front ++ more) (found' ++ others) ∧
      List.Forall₂ (Shifted offset locator locator' tokens front) found found' := by
  induction turns generalizing front with
  | none =>
    cases along
    exact ⟨[], behind, .nil⟩
  | @next taken rest first found read later ih =>
    obtain ⟨front, back, rfl, ahead, along'⟩ := forall₂_split along
    obtain ⟨found', turns', shifted⟩ := ih along'
    have alike : List.Forall₂ Token.Alike taken front := ahead.imp fun _ _ same => same.alike
    obtain ⟨_, split, -, again⟩ := definition_shuts locator locator' enough _ _ _ read
    obtain rfl := List.append_cancel_right split
    obtain ⟨first', read'⟩ := again front (back ++ more) alike
    refine ⟨first' :: found', ?_, .cons ?_ (shifted.imp fun _ _ shifted => shifted.within
      (List.subset_append_right _ _) (List.subset_append_right _ _))⟩
    · rw [List.append_assoc]
      exact .next read' turns'
    · obtain ⟨opening, head, closing, last, closes, location⟩ := definition_ends read
      obtain ⟨opening', head', closing', last', -, location'⟩ := definition_ends read'
      obtain ⟨heads, lasts⟩ := forall₂_ends ahead
      refine ⟨segments_same read read' alike, opening, ?_, closing, ?_, opening', ?_, closing', ?_,
        heads _ head _ head', lasts _ last _ last', closes, location, location'⟩
      · exact List.mem_append_left _ (List.mem_of_head? head)
      · exact List.mem_append_left _ (List.mem_of_getLast? last)
      · exact List.mem_append_left _ (List.mem_of_head? head')
      · exact List.mem_append_left _ (List.mem_of_getLast? last')

end

end Grammar

open Grammar

/-- A text is read as definitions if it has tokens up to its end, and definitions can be read from
them in turn. -/
theorem readDefinitions_iff {locator : Locator} {text : List Char} {found : List Definition} :
    readDefinitions locator text = .ok found ↔
      (TokenStream.ofText text).ending = .endOfInput ∧ found ≠ [] ∧
        InTurn locator ((TokenStream.ofText text).tokens.length + 1)
          (TokenStream.ofText text).tokens found := by
  constructor
  · intro read
    simp only [readDefinitions, readAll] at read
    split at read
    · cases read
    · next definitions all =>
      obtain ⟨⟨_, rest⟩, parsed, rfl⟩ := map_eq_ok.mp all
      cases ended : (TokenStream.ofText text).ending with
      | failure error => simp [ended] at read
      | endOfInput =>
        simp only [ended, Except.ok.injEq] at read
        obtain ⟨turns, filled⟩ := inTurn_of_definitions parsed
        exact ⟨rfl, read ▸ filled, read ▸ turns⟩
  · rintro ⟨ended, filled, turns⟩
    have all := turns.definitions filled (Nat.le_succ_of_le turns.length_le)
    simp only [readDefinitions, readAll, all, Except.map, ended]

/-- A text that is read as definitions is whole. -/
theorem whole_of_read {locator : Locator} {text : List Char} {found : List Definition}
    (read : readDefinitions locator text = .ok found) : Whole text := by
  obtain ⟨ended, filled, -⟩ := readDefinitions_iff.mp read
  obtain ⟨-, runs⟩ := readDefinitions_stand (placedBy_locates locator _) read
  exact ⟨ended, definitions_balanced runs, definitions_end runs filled⟩

/-- **The definitions of texts on lines of their own.** Behind those of the first text come those
of the second. -/
theorem readDefinitions_join {locator locator' : Locator} (joined : Locator)
    {first second : List Char} {found found' : List Definition}
    (read : readDefinitions locator first = .ok found)
    (read' : readDefinitions locator' second = .ok found') :
    let tokens := (TokenStream.ofText (first ++ '\n' :: second)).tokens
    ∃ front back, readDefinitions joined (first ++ '\n' :: second) = .ok (front ++ back) ∧
      List.Forall₂ (Shifted 0 locator joined (TokenStream.ofText first).tokens tokens) found front ∧
      List.Forall₂ (Shifted (byteLength first + 1) locator' joined
        (TokenStream.ofText second).tokens tokens) found' back := by
  intro tokens
  obtain ⟨-, filled, turns⟩ := readDefinitions_iff.mp read
  obtain ⟨ended, -, turns'⟩ := readDefinitions_iff.mp read'
  obtain ⟨front, back, split, ending, along, along'⟩ := tokens_join (whole_of_read read) second
  have split' : tokens = front ++ back := split
  have lengths := along.length_eq
  have lengths' := along'.length_eq
  have size : tokens.length = front.length + back.length := by rw [split', List.length_append]
  have enough : (TokenStream.ofText second).tokens.length + 1 ≤ tokens.length + 1 := by omega
  obtain ⟨later, turns'', shifted'⟩ := turns'.join joined along' enough .none
  rw [List.append_nil, List.append_nil] at turns''
  obtain ⟨early, all, shifted⟩ := turns.join joined along (by omega) turns''
  rw [← split'] at all
  refine ⟨early, later, readDefinitions_iff.mpr ⟨ending.trans ended, ?_, all⟩,
    shifted.imp fun _ _ here => here.within (List.Subset.refl _) ?_,
    shifted'.imp fun _ _ here => here.within (List.Subset.refl _) ?_⟩
  · intro none
    obtain ⟨rfl, -⟩ := List.append_eq_nil_iff.mp none
    cases shifted
    exact filled rfl
  · exact split' ▸ List.subset_append_left _ _
  · exact split' ▸ List.subset_append_right _ _

end QueryStore
