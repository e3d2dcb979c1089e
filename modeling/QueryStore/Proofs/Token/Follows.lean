import QueryStore.Proofs.Token.Spacing
import QueryStore.Token.Reader

/-! Readers compared. `Follows` says that one reader does what another one did: whenever the
other takes tokens and comes to a result, this one takes tokens like them and comes to a
related result, whatever stands behind, as long as it does not begin with another token. One
statement so covers three facts about a reader: it consumes tokens from the front, it does
not look past the next token, and the places of tokens do not matter to it. -/
namespace QueryStore

theorem Token.Alike.refl (token : Token) : token.Alike token := ⟨rfl, rfl⟩

namespace Reader
variable {α β γ δ : Type}

/-- What may stand in the place of the tokens that were left: nothing, or tokens that begin
alike. -/
def Continues (rest other : List Token) : Prop :=
  ∀ token ∈ other.head?, ∃ found ∈ rest.head?, Token.Alike found token

/-- A test that does not ask for the place of a token. -/
def Placeless (test : Token → Bool) : Prop :=
  ∀ left right : Token, left.Alike right → test left = test right

/-- Whatever `reader` does on some tokens, `follower` does on tokens like them. If `takes` is
set, neither succeeds without taking a token while there is one. -/
def Follows (takes : Bool) (R : α → β → Prop) (reader : Reader α) (follower : Reader β) : Prop :=
  ∀ tokens value rest, reader tokens = .ok (value, rest) →
    ∃ taken, tokens = taken ++ rest ∧ (takes = true → tokens ≠ [] → taken ≠ []) ∧
      ∀ taken' rest', List.Forall₂ Token.Alike taken taken' → Continues rest rest' →
        ∃ value', follower (taken' ++ rest') = .ok (value', rest') ∧ R value value'

theorem isPunctuator_placeless (text : String) : Placeless (Token.isPunctuator text) := by
  rintro left right ⟨kind, spelled⟩
  simp only [Token.isPunctuator, kind, spelled]

theorem isName_placeless : Placeless Token.isName := by
  rintro left right ⟨kind, -⟩
  simp only [Token.isName, kind]

theorem isWord_placeless (text : String) : Placeless (Token.isWord text) := by
  rintro left right ⟨kind, spelled⟩
  simp only [Token.isWord, kind, spelled]

/-- Two readers in a row succeed exactly when the second goes on where the first stops. -/
theorem bind_ok {reader : Reader α} {next : α → Reader β} {tokens rest : List Token} {value : β} :
    (reader >>= next) tokens = .ok (value, rest) ↔
      ∃ found middle, reader tokens = .ok (found, middle) ∧ next found middle = .ok (value, rest) := by
  change (reader tokens >>= fun read => next read.1 read.2) = _ ↔ _
  cases reader tokens with
  | error refusal => simp [bind, Except.bind]
  | ok read => simp [bind, Except.bind, Prod.ext_iff]

theorem Continues.refl (rest : List Token) : Continues rest rest :=
  fun token first => ⟨token, first, .refl token⟩

/-- A list like two lists in a row is two such lists in a row. -/
theorem forall₂_split {R : α → β → Prop} {front back : List α} {all : List β}
    (alike : List.Forall₂ R (front ++ back) all) :
    ∃ front' back', all = front' ++ back' ∧ List.Forall₂ R front front' ∧
      List.Forall₂ R back back' := by
  induction front generalizing all with
  | nil => exact ⟨[], all, rfl, .nil, alike⟩
  | cons token front ih =>
    cases alike with
    | cons head tail =>
      obtain ⟨front', back', rfl, front, back⟩ := ih tail
      exact ⟨_ :: front', back', rfl, .cons head front, back⟩

theorem alike_refl (tokens : List Token) : List.Forall₂ Token.Alike tokens tokens :=
  List.forall₂_same.mpr fun token _ => .refl token

theorem Continues.of_append {taken taken' rest rest' : List Token}
    (alike : List.Forall₂ Token.Alike taken taken') (goes : Continues rest rest') :
    Continues (taken ++ rest) (taken' ++ rest') := by
  cases alike with
  | nil => exact goes
  | cons head tail =>
    rintro token ⟨⟩
    exact ⟨_, rfl, head⟩

namespace Follows
variable {R : α → β → Prop} {S : γ → δ → Prop} {takes : Bool}

/-- A reader that follows may be said to take less, and to come to less. -/
theorem mono {reader : Reader α} {follower : Reader β} {R' : α → β → Prop}
    (follows : Follows takes R reader follower) (weaker : ∀ left right, R left right → R' left right) :
    Follows takes R' reader follower := by
  intro tokens value rest read
  obtain ⟨taken, split, filled, again⟩ := follows tokens value rest read
  refine ⟨taken, split, filled, ?_⟩
  intro taken' rest' alike goes
  obtain ⟨value', read', related⟩ := again taken' rest' alike goes
  exact ⟨value', read', weaker _ _ related⟩

theorem loosen {reader : Reader α} {follower : Reader β}
    (follows : Follows takes R reader follower) : Follows false R reader follower := by
  intro tokens value rest read
  obtain ⟨taken, split, -, again⟩ := follows tokens value rest read
  exact ⟨taken, split, by simp, again⟩

/-- What is left are the last of the tokens. -/
theorem suffix {reader : Reader α} {follower : Reader β}
    (follows : Follows takes R reader follower) {tokens rest : List Token} {value : α}
    (read : reader tokens = .ok (value, rest)) : ∃ taken, tokens = taken ++ rest := by
  obtain ⟨taken, split, -⟩ := follows tokens value rest read
  exact ⟨taken, split⟩

theorem pure {left : α} {right : β} (related : R left right) :
    Follows false R (Pure.pure left) (Pure.pure right) := by
  rintro tokens value rest ⟨⟩
  refine ⟨[], rfl, by simp, ?_⟩
  rintro _ rest' ⟨⟩ -
  exact ⟨right, rfl, related⟩

theorem refuse {follower : Reader β} : Follows true R Reader.refuse follower := by
  intro tokens value rest read
  cases tokens <;> cases read

theorem bind {takes' : Bool} {reader : Reader α} {follower : Reader β}
    {next : α → Reader γ} {next' : β → Reader δ} (follows : Follows takes R reader follower)
    (later : ∀ left right, R left right → Follows takes' S (next left) (next' right)) :
    Follows (takes || takes') S (reader >>= next) (follower >>= next') := by
  intro tokens value rest read
  obtain ⟨found, middle, first, second⟩ := bind_ok.mp read
  obtain ⟨taken, rfl, filled, again⟩ := follows tokens found middle first
  obtain ⟨right, -, related⟩ := again taken middle (alike_refl taken) (.refl middle)
  obtain ⟨more, rfl, filled', -⟩ := later found right related middle value rest second
  refine ⟨taken ++ more, (List.append_assoc ..).symm, ?_, ?_⟩
  · intro must here gone
    obtain ⟨rfl, rfl⟩ := List.append_eq_nil_iff.mp gone
    rcases (Bool.or_eq_true _ _).mp must with must | must
    · exact filled must here rfl
    · exact filled' must here rfl
  · intro both rest' alike goes
    obtain ⟨taken', more', rfl, front, back⟩ := forall₂_split alike
    obtain ⟨found', first', related'⟩ := again taken' (more' ++ rest') front (goes.of_append back)
    obtain ⟨more'', split, -, again'⟩ := later found found' related' _ value rest second
    obtain rfl := List.append_cancel_right split
    obtain ⟨value', second', result⟩ := again' more' rest' back goes
    refine ⟨value', ?_, result⟩
    rw [List.append_assoc]
    exact bind_ok.mpr ⟨found', more' ++ rest', first', second'⟩

/-- A reader that begins with one that takes a token takes a token. -/
theorem start {reader : Reader α} {follower : Reader β} {next : α → Reader γ}
    {next' : β → Reader δ} (follows : Follows true R reader follower)
    (later : ∀ left right, R left right → Follows false S (next left) (next' right)) :
    Follows true S (reader >>= next) (follower >>= next') :=
  follows.bind later

theorem map {reader : Reader α} {follower : Reader β} {change : α → γ} {change' : β → δ}
    (follows : Follows takes R reader follower)
    (related : ∀ left right, R left right → S (change left) (change' right)) :
    Follows takes S (change <$> reader) (change' <$> follower) := by
  rw [← Bool.or_false takes]
  exact follows.bind fun left right same => pure (related left right same)

theorem satisfying {test : Token → Bool} (placeless : Placeless test) :
    Follows true Token.Alike (Reader.satisfying test) (Reader.satisfying test) := by
  intro tokens value rest read
  cases tokens with
  | nil => cases read
  | cons token tokens =>
    by_cases passes : test token = true
    · simp only [Reader.satisfying, passes, ↓reduceIte, Except.ok.injEq, Prod.mk.injEq] at read
      obtain ⟨rfl, rfl⟩ := read
      refine ⟨[token], rfl, by simp, ?_⟩
      intro taken' rest' alike goes
      cases alike with
      | cons head tail =>
        cases tail
        refine ⟨_, ?_, head⟩
        rw [placeless _ _ head] at passes
        simp [Reader.satisfying, passes]
    · simp [Reader.satisfying, passes] at read

theorem advance : Follows true (fun _ _ => True) Reader.advance Reader.advance := by
  rintro tokens value rest ⟨⟩
  cases tokens with
  | nil =>
    refine ⟨[], rfl, by simp, ?_⟩
    rintro _ rest' ⟨⟩ goes
    cases rest' with
    | nil => exact ⟨(), rfl, trivial⟩
    | cons token rest' =>
      obtain ⟨found, none, -⟩ := goes token rfl
      cases none
  | cons token tokens =>
    refine ⟨[token], rfl, by simp, ?_⟩
    rintro _ rest' (_ | ⟨head, ⟨⟩⟩) -
    exact ⟨(), rfl, trivial⟩

/-- A reader may look at the next token if it refuses when there is none, and takes it. -/
theorem peek {next : Option Token → Reader γ} {next' : Option Token → Reader δ}
    (stops : ∀ tokens, (next none tokens).isOk = false)
    (goes : ∀ left right, Token.Alike left right →
      Follows true S (next (some left)) (next' (some right))) :
    Follows true S (Reader.peek >>= next) (Reader.peek >>= next') := by
  intro tokens value rest read
  obtain ⟨_, _, ⟨⟩, read⟩ := bind_ok.mp read
  cases tokens with
  | nil =>
    have stop := stops []
    rw [show next none [] = _ from read] at stop
    cases stop
  | cons token tokens =>
    obtain ⟨taken, split, filled, -⟩ := goes token token (.refl token) _ value rest read
    have some : taken ≠ [] := filled rfl (by simp)
    refine ⟨taken, split, fun _ _ => some, ?_⟩
    intro taken' rest' alike ends
    cases alike with
    | nil => exact absurd rfl some
    | @cons _ _ front _ head tail =>
      obtain ⟨rfl, rfl⟩ := List.cons.inj split
      obtain ⟨taken'', split', -, again⟩ := goes token _ head _ value rest read
      have same : (token :: front) ++ rest = taken'' ++ rest := split'
      obtain rfl := List.append_cancel_right same
      obtain ⟨value', read', related⟩ := again _ rest' (.cons head tail) ends
      exact ⟨value', bind_ok.mpr ⟨_, _, rfl, read'⟩, related⟩

/-- A reader may ask about the next token if it takes it whenever the answer is yes. -/
theorem nextIs {takes' : Bool} {test : Token → Bool} (placeless : Placeless test)
    {next : Bool → Reader γ} {next' : Bool → Reader δ}
    (yes : Follows true S (next true) (next' true))
    (no : Follows takes' S (next false) (next' false)) :
    Follows takes' S (Reader.nextIs test >>= next) (Reader.nextIs test >>= next') := by
  intro tokens value rest read
  obtain ⟨_, _, ⟨⟩, read⟩ := bind_ok.mp read
  by_cases passes : tokens.head?.any test = true
  · rw [passes] at read
    obtain ⟨taken, rfl, filled, again⟩ := yes tokens value rest read
    have some : taken ≠ [] := by
      apply filled rfl
      intro none
      simp [none] at passes
    refine ⟨taken, rfl, fun _ _ => some, ?_⟩
    intro taken' rest' alike goes
    obtain ⟨value', read', related⟩ := again taken' rest' alike goes
    refine ⟨value', bind_ok.mpr ⟨true, _, ?_, read'⟩, related⟩
    cases alike with
    | nil => exact absurd rfl some
    | cons head tail =>
      have passes' : test _ = true := passes
      rw [placeless _ _ head] at passes'
      simp [Reader.nextIs, passes']
  · rw [Bool.not_eq_true] at passes
    rw [passes] at read
    obtain ⟨taken, rfl, filled, again⟩ := no tokens value rest read
    refine ⟨taken, rfl, filled, ?_⟩
    intro taken' rest' alike goes
    obtain ⟨value', read', related⟩ := again taken' rest' alike goes
    refine ⟨value', bind_ok.mpr ⟨false, _, ?_, read'⟩, related⟩
    have still : (taken' ++ rest').head?.any test = false := by
      have all := goes.of_append alike
      cases first : (taken' ++ rest').head? with
      | none => rfl
      | some token =>
        obtain ⟨found, first', same⟩ := all token first
        rw [Option.mem_def.mp first', Option.any_some, placeless _ _ same] at passes
        exact passes
    rw [← still]
    rfl

theorem convert (token other : Token) (result : Except ValueError α) :
    Follows false (· = ·) (Reader.convert token result) (Reader.convert other result) := by
  intro tokens value rest read
  cases result with
  | error error => cases read
  | ok found =>
    cases read
    refine ⟨[], rfl, by simp, ?_⟩
    rintro _ rest' ⟨⟩ -
    exact ⟨_, rfl, rfl⟩

theorem when {test : Token → Bool} (placeless : Placeless test) {reader : Reader α}
    {follower : Reader β} (follows : Follows true R reader follower) :
    Follows false (Option.Rel R) (Reader.when test reader) (Reader.when test follower) := by
  apply nextIs placeless
  · simp only [↓reduceIte]
    exact follows.bind fun left right related => pure (.some related)
  · simp only [Bool.false_eq_true, ↓reduceIte]
    exact pure .none

theorem skip (text : String) : Follows false (· = ·) (skip? text) (skip? text) := by
  apply nextIs (isPunctuator_placeless text)
  · simp only [↓reduceIte]
    exact advance.bind fun _ _ _ => pure rfl
  · simp only [Bool.false_eq_true, ↓reduceIte]
    exact pure rfl

section
variable {item : Reader α} {item' : Reader β} {fuel fuel' : Nat}

theorem whileNext {test : Token → Bool} (placeless : Placeless test)
    (items : Follows true R item item') (enough : fuel ≤ fuel') :
    Follows false (List.Forall₂ R) (Reader.whileNext test item fuel)
      (Reader.whileNext test item' fuel') := by
  induction fuel generalizing fuel' with
  | zero => exact refuse.loosen
  | succ fuel ih =>
    obtain ⟨fuel', rfl⟩ := Nat.exists_eq_succ_of_ne_zero (Nat.ne_zero_of_lt enough)
    apply nextIs placeless
    · simp only [↓reduceIte]
      exact items.bind fun first first' alike =>
        (ih (Nat.le_of_succ_le_succ enough)).bind fun others others' all =>
          pure (.cons alike all)
    · simp only [Bool.false_eq_true, ↓reduceIte]
      exact pure .nil

/-- Items that are related one by one, behind which stand tokens alike. -/
def Closed (R : α → β → Prop) (left : List α × Token) (right : List β × Token) : Prop :=
  List.Forall₂ R left.1 right.1 ∧ left.2.Alike right.2

theorem untilClosing {closing : String} (items : Follows takes R item item')
    (enough : fuel ≤ fuel') :
    Follows true (Closed R) (Reader.untilClosing closing item fuel)
      (Reader.untilClosing closing item' fuel') := by
  induction fuel generalizing fuel' with
  | zero => exact refuse
  | succ fuel ih =>
    obtain ⟨fuel', rfl⟩ := Nat.exists_eq_succ_of_ne_zero (Nat.ne_zero_of_lt enough)
    apply nextIs (isPunctuator_placeless closing)
    · simp only [↓reduceIte]
      exact (satisfying (isPunctuator_placeless closing)).bind fun last last' alike =>
        pure ⟨.nil, alike⟩
    · simp only [Bool.false_eq_true, ↓reduceIte]
      rw [← Bool.or_true takes]
      refine items.bind fun first first' alike => ?_
      exact (ih (Nat.le_of_succ_le_succ enough)).bind fun others others' closed =>
        pure ⟨.cons alike closed.1, closed.2⟩

theorem someUntilClosing {closing : String} (items : Follows takes R item item')
    (enough : fuel ≤ fuel') :
    Follows true (Closed R) (Reader.someUntilClosing closing item fuel)
      (Reader.someUntilClosing closing item' fuel') := by
  rw [← Bool.or_true takes]
  refine items.bind fun first first' alike => ?_
  exact (untilClosing items enough).bind fun others others' closed =>
    pure ⟨.cons alike closed.1, closed.2⟩

end
end Follows
end Reader
end QueryStore
