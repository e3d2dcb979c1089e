import QueryStore.Document.Parse
import QueryStore.Proofs.Document.Alike

/-! The definitions of a document take up its tokens one after the other. A definition is the
same wherever its tokens stand (`segments_same`). Streams alike have corresponding definitions
(`readDefinitions_alike`). -/
namespace QueryStore
namespace Grammar
open Reader

variable {locator locator' : Locator} {size size' : Nat}

/-- A definition can be read from its own tokens, or tokens like them. -/
private theorem definition_alone {taken taken' others : List Token} {found : Definition}
    (read : definition locator size (taken ++ others) = .ok (found, others))
    (alike : List.Forall₂ Token.Alike taken taken') {bound : Nat} (enough : size ≤ bound) :
    ∃ other, definition .none bound taken' = .ok (other, []) ∧ SameDefinition found other := by
  obtain ⟨taken'', split, -, again⟩ := definition_follows locator .none enough _ found others read
  obtain rfl := List.append_cancel_right split
  obtain ⟨other, read', same⟩ := again taken' [] alike (by simp [Continues])
  rw [List.append_nil] at read'
  exact ⟨other, read', same⟩

/-- Definitions of tokens alike differ in their locations only, wherever the tokens stand. -/
theorem segments_same {taken taken' others others' : List Token} {left right : Definition}
    (read : definition locator size (taken ++ others) = .ok (left, others))
    (read' : definition locator' size' (taken' ++ others') = .ok (right, others'))
    (alike : List.Forall₂ Token.Alike taken taken') : SameDefinition left right := by
  obtain ⟨found, first, same⟩ := definition_alone read alike (Nat.le_max_left size size')
  obtain ⟨found', second, same'⟩ :=
    definition_alone read' (alike_refl taken') (Nat.le_max_right size size')
  rw [first] at second
  cases second
  exact same.trans same'.symm

/-- Definitions that take up the same stretch of two lists of tokens. -/
structure Twins (locator locator' : Locator) (size size' : Nat) (tokens tokens' : List Token)
    (left right : Definition) where
  first : List Token
  taken : List Token
  others : List Token
  first' : List Token
  taken' : List Token
  others' : List Token
  split : tokens = first ++ (taken ++ others)
  split' : tokens' = first' ++ (taken' ++ others')
  read : definition locator size (taken ++ others) = .ok (left, others)
  read' : definition locator' size' (taken' ++ others') = .ok (right, others')
  earlier : List.Forall₂ Token.Alike first first'
  inside : List.Forall₂ Token.Alike taken taken'

namespace Twins
variable {tokens tokens' : List Token} {left right : Definition}

theorem same (twins : Twins locator locator' size size' tokens tokens' left right) :
    SameDefinition left right :=
  segments_same twins.read twins.read' twins.inside

/-- Twins stay twins behind tokens alike. -/
def behind {front front' : List Token} (alike : List.Forall₂ Token.Alike front front')
    (twins : Twins locator locator' size size' tokens tokens' left right) :
    Twins locator locator' size size' (front ++ tokens) (front' ++ tokens') left right :=
  { twins with
    first := front ++ twins.first
    first' := front' ++ twins.first'
    split := by rw [List.append_assoc, ← twins.split]
    split' := by rw [List.append_assoc, ← twins.split']
    earlier := List.rel_append alike twins.earlier }

end Twins

/-- Tokens alike have definitions in the same stretches. -/
theorem definitions_alike (locator' : Locator) {fuel fuel' : Nat} {tokens tokens' rest : List Token}
    {found : List Definition}
    (read : definitions locator size fuel tokens = .ok (found, rest))
    (alike : List.Forall₂ Token.Alike tokens tokens') (enough : size ≤ size')
    (steps : fuel ≤ fuel') :
    ∃ found', definitions locator' size' fuel' tokens' = .ok (found', []) ∧
      List.Forall₂ (fun left right =>
        Nonempty (Twins locator locator' size size' tokens tokens' left right)) found found' := by
  induction fuel generalizing fuel' tokens tokens' found with
  | zero => cases tokens <;> cases read
  | succ fuel ih =>
    obtain ⟨fuel', rfl⟩ := Nat.exists_eq_succ_of_ne_zero (Nat.ne_zero_of_lt steps)
    obtain ⟨first, middle, one, peeked⟩ := bind_ok.mp read
    obtain ⟨_, _, ⟨⟩, others⟩ := bind_ok.mp peeked
    obtain ⟨taken, rfl, -, again⟩ :=
      definition_follows locator locator' enough tokens first middle one
    obtain ⟨taken', middle', rfl, inside, behind⟩ := forall₂_split alike
    have goes : Continues middle middle' := by
      have all := (Continues.refl []).of_append behind
      simpa using all
    obtain ⟨first', one', -⟩ := again taken' middle' inside goes
    have here : Nonempty (Twins locator locator' size size' (taken ++ middle) (taken' ++ middle')
        first first') :=
      ⟨[], taken, middle, [], taken', middle', rfl, rfl, one, one', .nil, inside⟩
    cases behind with
    | nil =>
      cases others
      exact ⟨[first'], bind_ok.mpr ⟨first', [], one', rfl⟩, .cons here .nil⟩
    | cons head tail =>
      obtain ⟨found, _, more, ⟨⟩⟩ := bind_ok.mp others
      obtain ⟨found', more', twins⟩ := ih more (.cons head tail) (Nat.le_of_succ_le_succ steps)
      refine ⟨first' :: found', bind_ok.mpr ⟨first', _, one', ?_⟩, .cons here ?_⟩
      · exact bind_ok.mpr ⟨_, _, rfl, bind_ok.mpr ⟨found', [], more', rfl⟩⟩
      · exact twins.imp fun _ _ ⟨twin⟩ => ⟨twin.behind inside⟩

end Grammar

open Grammar in
/-- Streams alike have definitions in the same stretches of their tokens. -/
theorem readDefinitions_alike {locator : Locator} (locator' : Locator) {text text' : List Char}
    {found : List Definition}
    (alike : StreamsAlike (.ofText text) (.ofText text'))
    (read : readDefinitions locator text = .ok found) :
    ∃ found', readDefinitions locator' text' = .ok found' ∧
      List.Forall₂ (fun left right =>
        Nonempty (Twins locator locator' ((TokenStream.ofText text).tokens.length + 1)
          ((TokenStream.ofText text').tokens.length + 1) (TokenStream.ofText text).tokens
          (TokenStream.ofText text').tokens left right)) found found' := by
  have enough := Nat.succ_le_succ (Nat.le_of_eq alike.tokens.length_eq)
  simp only [readDefinitions, readAll] at read ⊢
  cases all : definitions locator ((TokenStream.ofText text).tokens.length + 1)
      ((TokenStream.ofText text).tokens.length + 1) (TokenStream.ofText text).tokens with
  | error refusal => simp [all, Except.map] at read
  | ok result =>
    obtain ⟨definitions, rest⟩ := result
    obtain ⟨definitions', all', twins⟩ :=
      definitions_alike locator' all alike.tokens enough enough
    simp only [all, all', Except.map, alike.ending] at read ⊢
    cases ending : (TokenStream.ofText text').ending with
    | failure error => simp [ending] at read
    | endOfInput =>
      simp only [ending, Except.ok.injEq] at read
      subst read
      exact ⟨definitions', rfl, twins⟩

/-- Streams alike are both read as definitions or neither is. -/
theorem readDefinitions_isOk (locator locator' : Locator) {text text' : List Char}
    (alike : StreamsAlike (.ofText text) (.ofText text')) :
    (readDefinitions locator text).isOk = (readDefinitions locator' text').isOk := by
  have onward : ∀ (locator locator' : Locator) {text text' : List Char},
      StreamsAlike (.ofText text) (.ofText text') → (readDefinitions locator text).isOk = true →
        (readDefinitions locator' text').isOk = true := by
    intro locator locator' text text' alike succeeds
    cases read : readDefinitions locator text with
    | error failure =>
      rw [read] at succeeds
      cases succeeds
    | ok found =>
      obtain ⟨found', read', -⟩ := readDefinitions_alike locator' alike read
      rw [read']
      rfl
  rw [Bool.eq_iff_iff]
  exact ⟨onward locator locator' alike, onward locator' locator alike.symm⟩

end QueryStore
