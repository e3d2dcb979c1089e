import QueryStore.Proofs.Document.Derivation

/-! Readers that know from their own tokens where they end. `Shuts` says that one reader succeeds on
tokens like those that another one took, whatever stands behind them, even if nothing stood behind
the others. So do readers whose last step is to take a closing punctuator, and with them all that
read a definition (`definition_shuts`). -/
namespace QueryStore
namespace Reader
variable {α β γ δ : Type}

/-- Wherever `reader` takes tokens, `follower` takes tokens like them before any others. -/
def Shuts (reader : Reader α) (follower : Reader β) : Prop :=
  ∀ tokens value rest, reader tokens = .ok (value, rest) →
    ∃ taken, tokens = taken ++ rest ∧ taken ≠ [] ∧
      ∀ taken' rest', List.Forall₂ Token.Alike taken taken' →
        ∃ value', follower (taken' ++ rest') = .ok (value', rest')

namespace Shuts

theorem refuse {follower : Reader β} : Shuts (Reader.refuse : Reader α) follower := by
  intro tokens value rest read
  cases tokens <;> cases read

theorem satisfying {test : Token → Bool} (placeless : Placeless test) :
    Shuts (Reader.satisfying test) (Reader.satisfying test) := by
  intro tokens token rest read
  obtain ⟨rfl, passes⟩ := satisfying_ok.mp read
  refine ⟨[token], rfl, by simp, ?_⟩
  rintro _ rest' (_ | ⟨alike, ⟨⟩⟩)
  exact ⟨_, satisfying_ok.mpr ⟨rfl, placeless _ _ alike ▸ passes⟩⟩

/-- What comes to a result without taking tokens may be the last step. -/
theorem pure {reader : Reader α} {follower : Reader β} {left : α → γ} {right : β → δ}
    (shuts : Shuts reader follower) :
    Shuts (reader >>= fun value => Pure.pure (left value))
      (follower >>= fun value => Pure.pure (right value)) := by
  intro tokens value rest read
  obtain ⟨found, _, first, ⟨⟩⟩ := bind_ok.mp read
  obtain ⟨taken, split, filled, again⟩ := shuts _ _ _ first
  refine ⟨taken, split, filled, fun taken' rest' alike => ?_⟩
  obtain ⟨found', first'⟩ := again taken' rest' alike
  exact ⟨right found', bind_ok.mpr ⟨found', rest', first', rfl⟩⟩

/-- The last step decides. Tokens of its own stand behind the others. -/
theorem bind {R : α → β → Prop} {takes : Bool} {reader : Reader α} {follower : Reader β}
    {next : α → Reader γ} {next' : β → Reader δ} (follows : Follows takes R reader follower)
    (last : ∀ left right, R left right → Shuts (next left) (next' right)) :
    Shuts (reader >>= next) (follower >>= next') := by
  intro tokens value rest read
  obtain ⟨found, middle, first, second⟩ := bind_ok.mp read
  obtain ⟨taken, rfl, -, again⟩ := follows tokens found middle first
  obtain ⟨right, -, related⟩ := again taken middle (alike_refl taken) (.refl middle)
  obtain ⟨more, rfl, filled, -⟩ := last found right related middle value rest second
  refine ⟨taken ++ more, (List.append_assoc ..).symm, by simp [filled], ?_⟩
  intro both rest' alike
  obtain ⟨taken', more', rfl, front, back⟩ := forall₂_split alike
  have goes : Continues (more ++ rest) (more' ++ rest') := by
    cases back with
    | nil => exact absurd rfl filled
    | cons head _ =>
      rintro _ ⟨⟩
      exact ⟨_, rfl, head⟩
  obtain ⟨found', first', related'⟩ := again taken' (more' ++ rest') front goes
  obtain ⟨more'', split, -, again'⟩ := last found found' related' _ value rest second
  obtain rfl := List.append_cancel_right split
  obtain ⟨value', second'⟩ := again' more' rest' back
  exact ⟨value', by rw [List.append_assoc]; exact bind_ok.mpr ⟨found', _, first', second'⟩⟩

/-- A reader may look at the next token and refuse if there is none. -/
theorem peek {next : Option Token → Reader γ} {next' : Option Token → Reader δ}
    (stops : ∀ tokens, (next none tokens).isOk = false)
    (goes : ∀ left right, Token.Alike left right → Shuts (next (some left)) (next' (some right))) :
    Shuts (Reader.peek >>= next) (Reader.peek >>= next') := by
  intro tokens value rest read
  obtain ⟨_, _, ⟨⟩, read⟩ := bind_ok.mp read
  cases tokens with
  | nil =>
    have stop := stops []
    rw [show next none [] = _ from read] at stop
    cases stop
  | cons token tokens =>
    obtain ⟨taken, split, filled, -⟩ := goes token token (.refl token) _ value rest read
    refine ⟨taken, split, filled, fun taken' rest' alike => ?_⟩
    cases alike with
    | nil => exact absurd rfl filled
    | @cons _ _ front _ head tail =>
      obtain ⟨rfl, rfl⟩ := List.cons.inj split
      obtain ⟨taken'', split', -, again⟩ := goes token _ head _ value rest read
      have same : (token :: front) ++ rest = taken'' ++ rest := split'
      obtain rfl := List.append_cancel_right same
      obtain ⟨value', read'⟩ := again _ rest' (.cons head tail)
      exact ⟨value', bind_ok.mpr ⟨_, _, rfl, read'⟩⟩

theorem nextIs {test : Token → Bool} (placeless : Placeless test) {next : Bool → Reader γ}
    {next' : Bool → Reader δ} (both : ∀ found, Shuts (next found) (next' found)) :
    Shuts (Reader.nextIs test >>= next) (Reader.nextIs test >>= next') := by
  intro tokens value rest read
  obtain ⟨found, _, ⟨⟩, read⟩ := bind_ok.mp read
  obtain ⟨taken, rfl, filled, again⟩ := both _ tokens value rest read
  refine ⟨taken, rfl, filled, fun taken' rest' alike => ?_⟩
  obtain ⟨value', read'⟩ := again taken' rest' alike
  refine ⟨value', bind_ok.mpr ⟨_, _, ?_, read'⟩⟩
  cases alike with
  | nil => exact absurd rfl filled
  | cons head _ => simp [Reader.nextIs, placeless _ _ head]

section
variable {R : α → β → Prop} {takes : Bool} {item : Reader α} {item' : Reader β}
  {fuel fuel' : Nat} {closing : String}

theorem untilClosing (items : Follows takes R item item') (enough : fuel ≤ fuel') :
    Shuts (Reader.untilClosing closing item fuel) (Reader.untilClosing closing item' fuel') := by
  induction fuel generalizing fuel' with
  | zero => exact refuse
  | succ fuel ih =>
    obtain ⟨fuel', rfl⟩ := Nat.exists_eq_succ_of_ne_zero (Nat.ne_zero_of_lt enough)
    refine nextIs (isPunctuator_placeless closing) fun found => ?_
    cases found with
    | true => exact (satisfying (isPunctuator_placeless closing)).pure
    | false => exact bind items fun _ _ _ => (ih (Nat.le_of_succ_le_succ enough)).pure

theorem someUntilClosing (items : Follows takes R item item') (enough : fuel ≤ fuel') :
    Shuts (Reader.someUntilClosing closing item fuel)
      (Reader.someUntilClosing closing item' fuel') :=
  bind items fun _ _ _ => (untilClosing items enough).pure

end
end Shuts
end Reader

namespace Grammar
open Reader

variable {fuel fuel' : Nat} (locator locator' : Locator) (enough : fuel ≤ fuel')
include enough

theorem selectionSet_shuts :
    Shuts (selectionSet locator fuel) (selectionSet locator' fuel') := by
  cases fuel with
  | zero => exact .refuse
  | succ fuel =>
    obtain ⟨fuel', rfl⟩ := Nat.exists_eq_succ_of_ne_zero (Nat.ne_zero_of_lt enough)
    have below := Nat.le_of_succ_le_succ enough
    have sets := selectionSet_follows locator locator' below
    exact .bind (Follows.satisfying (isPunctuator_placeless "\x7b")) fun _ _ _ =>
      (Shuts.someUntilClosing (selection_follows sets below) below).pure

/-- What stands behind directives that selections end. -/
private theorem directed_shuts {α β : Type} {left : List Directive → SelectionSet × Token → α}
    {right : List Directive → SelectionSet × Token → β} :
    Shuts (do
        let found ← directives fuel
        let set ← selectionSet locator fuel
        return left found set)
      (do
        let found ← directives fuel'
        let set ← selectionSet locator' fuel'
        return right found set) :=
  .bind (directives_follows enough) fun _ _ _ => (selectionSet_shuts locator locator' enough).pure

/-- A definition ends with its last brace, whatever stands behind it. -/
theorem definition_shuts : Shuts (definition locator fuel) (definition locator' fuel') := by
  refine Shuts.peek (fun tokens => by cases tokens <;> rfl) fun left right alike => ?_
  have braces := isPunctuator_placeless "\x7b" left right alike
  have keywords := isWord_placeless "fragment" left right alike
  have names := isName_placeless left right alike
  simp only [braces, keywords, names, alike.text]
  have name := Follows.satisfying isName_placeless
  by_cases brace : right.isPunctuator "\x7b" = true
  · simp only [brace, ↓reduceIte]
    exact (selectionSet_shuts locator locator' enough).pure.pure
  by_cases keyword : right.isWord "fragment" = true
  · simp only [brace, keyword, ↓reduceIte]
    exact .bind Follows.advance fun _ _ _ => Shuts.pure <|
      .bind name fun _ _ _ => .bind (Follows.satisfying (isWord_placeless "on")) fun _ _ _ =>
        .bind name fun _ _ _ => directed_shuts locator locator' enough
  · simp only [brace, keyword]
    cases (if right.isName = true then operationKind? right.text else none) with
    | none => exact .refuse
    | some kind =>
      exact .bind Follows.advance fun _ _ _ => Shuts.pure <|
        .bind (Follows.when isName_placeless name) fun _ _ _ =>
          .bind (variableDefinitions_follows enough) fun _ _ _ =>
            directed_shuts locator locator' enough

end Grammar
end QueryStore
