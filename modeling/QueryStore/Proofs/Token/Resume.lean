import QueryStore.Proofs.Token.Brackets
import QueryStore.Proofs.Token.Order
import QueryStore.Proofs.Token.Spacing

/-! A text that goes on behind its last token. Its tokens are the same wherever it begins, and
those of what follows come behind them (`tokens_resume`), unless the last token goes on there. As
many brackets may be opened there as the tokens before leave (`spend`), which is as many as before
them if they are balanced. Blanks before a text leave its tokens alone (`tokens_behind_blanks`). -/
namespace QueryStore
open Text

/-- Tokens that differ in their places only, and are as far from two offsets. -/
structure Token.Along (offset offset' : Nat) (left right : Token) : Prop where
  alike : left.Alike right
  apart : offset + right.place.offset = offset' + left.place.offset

/-- A text may follow a token: any text follows a punctuator of one character, and one that does
not go on with the name follows a name. -/
def Token.Stops (token : Token) (tail : List Char) : Prop :=
  (∃ char, QueryStore.isPunctuator char = true ∧ token.kind = .punctuator ∧
    token.text.toList = [char]) ∨
  token.kind = .name ∧ ∀ char ∈ tail.head?, isNameChar char = false

/-- How many more brackets may be opened behind brackets. -/
def spend (budget : Nat) (brackets : List Char) : Option Nat :=
  brackets.foldlM (fun left char => budgetAfter left [char]) budget

theorem spend_append (budget : Nat) (left right : List Char) :
    spend budget (left ++ right) = (spend budget left).bind (spend · right) :=
  List.foldlM_append

/-- Brackets that match leave as many as there were. -/
theorem Balanced.spend {brackets : List Char} (balanced : Balanced brackets)
    {budget remaining : Nat} (spent : spend budget brackets = some remaining) :
    remaining = budget := by
  -- A bracket that opens takes one from the budget, and the one that closes it gives it back.
  have pair : ∀ {opening closing : Char} {inner rest : List Char} {budget remaining : Nat},
      (∀ budget, budgetAfter budget [opening] = if budget = 0 then none else some (budget - 1)) →
      (∀ budget, budgetAfter budget [closing] = some (budget + 1)) →
      (∀ {budget remaining}, QueryStore.spend budget inner = some remaining → remaining = budget) →
      (∀ {budget remaining}, QueryStore.spend budget rest = some remaining → remaining = budget) →
      QueryStore.spend budget (opening :: (inner ++ closing :: rest)) = some remaining →
      remaining = budget := by
    intro opening closing inner rest budget remaining opens closes inside behind spent
    rw [QueryStore.spend, List.foldlM_cons, opens] at spent
    split at spent
    · cases spent
    · next filled =>
      change QueryStore.spend (budget - 1) (inner ++ closing :: rest) = some remaining at spent
      rw [spend_append] at spent
      obtain ⟨middle, inner', rest'⟩ := Option.bind_eq_some_iff.mp spent
      rw [inside inner', QueryStore.spend, List.foldlM_cons, closes] at rest'
      have last : remaining = budget - 1 + 1 := behind rest'
      omega
  induction balanced generalizing budget remaining with
  | nil => exact (Option.some.inj spent).symm
  | parentheses _ _ ih ih' => exact pair (fun _ => rfl) (fun _ => rfl) ih ih' spent
  | squares _ _ ih ih' => exact pair (fun _ => rfl) (fun _ => rfl) ih ih' spent
  | braces _ _ ih ih' => exact pair (fun _ => rfl) (fun _ => rfl) ih ih' spent

/-- A text that does not begin with a bracket opens and closes nothing. -/
private theorem budgetAfter_plain {char : Char} {more : List Char} (plain : isBracket char = false)
    (budget : Nat) : budgetAfter budget (char :: more) = some budget := by
  unfold budgetAfter
  split <;> first | rfl | (next same => cases same; cases plain)

/-- What a token leaves of the budget is what its brackets leave of it. -/
theorem token_spends {first : Char} {rest : List Char} {read : Lexeme} {budget remaining : Nat}
    (found : lexeme first rest = .ok read) (left : budgetAfter budget read.text = some remaining)
    (start : Place) : spend budget (read.token start).brackets = some remaining := by
  have plain : ∀ {more : List Char}, read.text = first :: more → isBracket first = false →
      (read.token start).brackets = [] →
      spend budget (read.token start).brackets = some remaining := by
    intro more spelled other bare
    rw [spelled, budgetAfter_plain other] at left
    rw [bare]
    exact left
  cases lexeme_iff.mp found with
  | mark mark =>
    have brackets : (Lexeme.token ⟨.punctuator, [first], rest⟩ start).brackets =
        [first].filter isBracket := by
      simp [Token.brackets, Lexeme.token]
    by_cases bracket : isBracket first = true
    · rw [brackets, List.filter_cons_of_pos bracket]
      simpa [spend] using left
    · exact plain rfl (Bool.not_eq_true _ ▸ bracket)
        (brackets.trans (List.filter_cons_of_neg bracket))
  | dots dot whole =>
    subst dot
    refine plain rfl (by decide) ?_
    have bare : ['.', '.', '.'].filter isBracket = [] := by decide
    simpa [Token.brackets, Lexeme.token] using bare
  | name noMark =>
    exact plain rfl (isBracket_mark noMark) (Token.brackets_of_kind (by simp [Lexeme.token]))
  | number noMark _ _ _ number =>
    refine plain rfl (isBracket_mark noMark) (Token.brackets_of_kind ?_)
    rcases numberKind_kind number with rfl | rfl <;> simp [Lexeme.token]
  | block quote | string quote =>
    subst quote
    exact plain rfl (by decide) (Token.brackets_of_kind (by simp [Lexeme.token]))

/-- What stands between tokens is passed over from any place. -/
theorem skip_elsewhere {inComment : Bool} {place start : Place} {text rest : List Char}
    (skipped : skipIgnored inComment place text = (start, rest)) (place' : Place) :
    ∃ start', skipIgnored inComment place' text = (start', rest) ∧
      place.offset + start'.offset = place'.offset + start.offset := by
  have same : ∀ place place', (skipIgnored inComment place text).2 =
      (skipIgnored inComment place' text).2 := by
    clear skipped
    induction text generalizing inComment with
    | nil => exact fun _ _ => rfl
    | cons char text ih =>
      intro place place'
      unfold skipIgnored
      repeat' split
      all_goals first
        | exact ih _ _
        | rfl
  have skipped' : skipIgnored inComment place' text =
      ((skipIgnored inComment place' text).1, rest) := by
    have behind := same place' place
    rw [skipped] at behind
    exact Prod.ext rfl behind
  refine ⟨_, skipped', ?_⟩
  have bytes := skip_bytes skipped
  have bytes' := skip_bytes skipped'
  omega

/-- The last token of a text is the same with what may follow it. -/
private theorem lexeme_stops {first : Char} {rest : List Char} {read : Lexeme}
    (found : lexeme first rest = .ok read) (none : read.rest = []) {start : Place}
    {tail : List Char} (stops : (read.token start).Stops tail) :
    lexeme first (rest ++ tail) = .ok { read with rest := tail } := by
  rw [lexeme_iff]
  cases lexeme_iff.mp found with
  | mark mark =>
    obtain rfl : rest = [] := none
    exact .mark mark
  | name noMark noDot letter =>
    have dropped : rest.dropWhile isNameChar = [] := none
    have taken : rest.takeWhile isNameChar = rest := by
      have split := List.takeWhile_append_dropWhile (p := isNameChar) (l := rest)
      rwa [dropped, List.append_nil] at split
    have ends : ∀ char ∈ tail.head?, isNameChar char = false := by
      rcases stops with ⟨_, -, kind, -⟩ | ⟨-, ends⟩
      · cases kind
      · exact ends
    have goes := (run_taken (show (rest ++ []).takeWhile isNameChar = rest by
      rwa [List.append_nil])).1
    have lexes : Lexes first (rest ++ tail) _ := .name noMark noDot letter
    rw [(run_stops goes ends).1, (run_stops goes ends).2] at lexes
    rwa [taken]
  | dots =>
    rcases stops with ⟨char, -, -, spelled⟩ | ⟨kind, -⟩
    · simp [Lexeme.token] at spelled
    · cases kind
  | @number kind _ _ _ _ number =>
    have other : kind = .punctuator ∨ kind = .name := by
      rcases stops with ⟨_, -, mark, -⟩ | ⟨name, -⟩
      · exact Or.inl mark
      · exact Or.inr name
    rcases numberKind_kind number with rfl | rfl <;> simp at other
  | block | string => rcases stops with ⟨_, -, kind, -⟩ | ⟨kind, -⟩ <;> cases kind

/-- A token with text behind it is the same with more text behind that. -/
private theorem lexeme_followed {first : Char} {rest : List Char} {read : Lexeme}
    (found : lexeme first rest = .ok read) (filled : read.rest ≠ []) (tail : List Char) :
    lexeme first (rest ++ tail) = .ok { read with rest := read.rest ++ tail } := by
  obtain ⟨char, behind, whole⟩ := List.exists_cons_of_ne_nil filled
  have same : ∀ char ∈ (read.rest ++ tail).head?, char ∈ read.rest.head? := by simp [whole]
  obtain ⟨more, -, split, again⟩ := lexeme_again found same
  rwa [← List.append_assoc, ← split] at again

/-- A token that is read in one place is read in any other, too, with what may follow it there. -/
private theorem reads_elsewhere {budget remaining : Nat} {place start : Place}
    {text rest tail behind : List Char} {letter : Char} {read : Lexeme}
    (reads : Reads budget place text start letter rest read remaining)
    (found : lexeme letter (rest ++ tail) = .ok { read with rest := behind }) (place' : Place) :
    ∃ start', Reads budget place' (text ++ tail) start' letter (rest ++ tail)
      { read with rest := behind } remaining ∧
      place.offset + start'.offset = place'.offset + start.offset := by
  obtain ⟨gap, rfl, -, skips, -⟩ := skip_gap reads.skipped
  obtain ⟨start', skipped, apart⟩ := skip_elsewhere (skips (rest ++ tail)) place'
  refine ⟨start', ⟨?_, found, reads.budget⟩, apart⟩
  rwa [List.append_assoc, List.cons_append]

/-- Tokens behind one are as far apart as that one is. -/
private theorem along_past {place place' start start' : Place} {text : List Char}
    {left right : List Token} (apart : place.offset + start'.offset = place'.offset + start.offset)
    (along : List.Forall₂ (Token.Along (start.past text).offset (start'.past text).offset)
      left right) : List.Forall₂ (Token.Along place.offset place'.offset) left right := by
  refine along.imp fun left right same => ⟨same.alike, ?_⟩
  have apart' := same.apart
  rw [Place.past_offset, Place.past_offset] at apart'
  omega

/-- A text has the same tokens from any place. -/
theorem tokens_elsewhere (budget : Nat) (place place' : Place) (text : List Char) :
    (tokensFrom budget place' text).ending = (tokensFrom budget place text).ending ∧
      List.Forall₂ (Token.Along place.offset place'.offset) (tokensFrom budget place text).tokens
        (tokensFrom budget place' text).tokens := by
  induction budget, place, text using stream_induction generalizing place' with
  | ended budget place text stop =>
    generalize tokensFrom budget place text = stream at stop
    cases stop with
    | exhausted skipped =>
      obtain ⟨start', skipped', -⟩ := skip_elsewhere skipped place'
      rw [tokens_ended (.exhausted skipped')]
      exact ⟨rfl, .nil⟩
    | unreadable skipped failed =>
      obtain ⟨start', skipped', -⟩ := skip_elsewhere skipped place'
      rw [tokens_ended (.unreadable skipped' failed)]
      exact ⟨rfl, .nil⟩
    | tooDeep skipped found spent =>
      obtain ⟨start', skipped', -⟩ := skip_elsewhere skipped place'
      rw [tokens_ended (.tooDeep skipped' found spent)]
      exact ⟨rfl, .nil⟩
  | step budget place text start first rest read remaining reads ih =>
    obtain ⟨start', skipped', apart⟩ := skip_elsewhere reads.skipped place'
    obtain ⟨ending, along⟩ := ih (start'.past read.text)
    rw [tokens_read reads, tokens_read ⟨skipped', reads.found, reads.budget⟩]
    exact ⟨ending, .cons ⟨⟨rfl, rfl⟩, apart⟩ (along_past apart along)⟩

/-- A text goes on behind `last`: wherever it begins, and with whatever may follow that token, the
tokens of what follows come behind its own, read with `remaining` brackets left to open. -/
def Resumes (budget : Nat) (place : Place) (text : List Char) (last : Token) (remaining : Nat) :
    Prop :=
  ∀ place' tail, last.Stops tail → ∃ first behind,
    behind.offset = place'.offset + byteLength text ∧
    (tokensFrom budget place' (text ++ tail)).tokens =
      first ++ (tokensFrom remaining behind tail).tokens ∧
    (tokensFrom budget place' (text ++ tail)).ending = (tokensFrom remaining behind tail).ending ∧
    List.Forall₂ (Token.Along place.offset place'.offset) (tokensFrom budget place text).tokens first

private theorem Resumes.empty (budget : Nat) (place : Place) (last : Token) :
    Resumes budget place [] last budget := by
  intro place' tail _
  have ended : tokensFrom budget place [] = ⟨[], .endOfInput, place.position⟩ :=
    tokens_ended (.exhausted rfl)
  rw [ended]
  exact ⟨[], place', rfl, rfl, rfl, .nil⟩

/-- A text goes on behind a token if what is left behind its first token does. -/
private theorem Resumes.read {budget remaining remaining' : Nat} {place start : Place}
    {text rest : List Char} {letter : Char} {read : Lexeme} {last : Token}
    (reads : Reads budget place text start letter rest read remaining)
    (again : ∀ tail, last.Stops tail →
      lexeme letter (rest ++ tail) = .ok { read with rest := read.rest ++ tail })
    (resumes : Resumes remaining (start.past read.text) read.rest last remaining') :
    Resumes budget place text last remaining' := by
  intro place' tail stops
  obtain ⟨start', reads', apart⟩ := reads_elsewhere reads (again tail stops) place'
  obtain ⟨first, behind, offset, tokens, ending, along⟩ :=
    resumes (start'.past read.text) tail stops
  rw [tokens_read reads, tokens_read reads']
  refine ⟨Lexeme.token { read with rest := read.rest ++ tail } start' :: first, behind, ?_,
    congrArg (_ :: ·) tokens, ending, .cons ⟨⟨rfl, rfl⟩, apart⟩ (along_past apart along)⟩
  have bytes := reads.bytes
  rw [Place.past_offset] at offset bytes
  omega

/-- **A text goes on behind its last token.** The tokens of what follows are read as they would be
from any place, as far as the brackets allow that the text leaves open. -/
theorem tokens_resume {budget : Nat} {place : Place} {text : List Char} {last : Token}
    (ended : (tokensFrom budget place text).ending = .endOfInput)
    (isLast : last ∈ (tokensFrom budget place text).tokens.getLast?)
    (ends : last.stop = place.offset + byteLength text) :
    ∃ remaining, spend budget (bracketsOf (tokensFrom budget place text).tokens) = some remaining ∧
      Resumes budget place text last remaining := by
  induction budget, place, text using stream_induction with
  | ended budget place text stop =>
    generalize tokensFrom budget place text = stream at stop isLast
    cases stop <;> cases isLast
  | step budget place text start letter rest read remaining reads ih =>
    have bytes := reads.bytes
    have spends := token_spends reads.found reads.budget start
    rw [tokens_read reads] at ended isLast ⊢
    rw [TokenStream.cons, bracketsOf_cons, spend_append, spends]
    cases later : (tokensFrom remaining (start.past read.text) read.rest).tokens with
    | nil =>
      -- Nothing is behind the only token, for the text ends with it.
      obtain rfl : read.token start = last := by simpa [TokenStream.cons, later] using isLast
      have stop : (read.token start).stop = (start.past read.text).offset := by
        simp [Token.stop, Lexeme.token, Place.past_offset]
      have none : read.rest = [] := byteLength_eq_zero.mp (by omega)
      refine ⟨remaining, rfl, .read reads (fun tail stops => ?_) (none ▸ .empty _ _ _)⟩
      rw [none]
      exact lexeme_stops reads.found none stops
    | cons next others =>
      have isLast' : last ∈ (tokensFrom remaining (start.past read.text) read.rest).tokens.getLast? := by
        simpa [TokenStream.cons, later] using isLast
      have filled : read.rest ≠ [] := by
        intro none
        have stop : tokensFrom remaining (start.past read.text) [] = _ :=
          tokens_ended (.exhausted rfl)
        rw [none, stop] at later
        cases later
      obtain ⟨remaining', spent, resumes⟩ := ih ended isLast' (ends.trans bytes.symm)
      rw [later] at spent
      exact ⟨remaining', spent, .read reads (fun tail _ => lexeme_followed reads.found filled tail)
        resumes⟩

/-- A text goes on behind a token in it, and so does any other that may follow the token. -/
theorem tokens_behind {budget : Nat} {place : Place} {before rest : List Char} {token : Token}
    (member : token ∈ (tokensFrom budget place (before ++ rest)).tokens) (final : token.Stops [])
    (stop : token.stop = place.offset + byteLength before) :
    (tokensFrom budget place before).ending = .endOfInput ∧
    token ∈ (tokensFrom budget place before).tokens.getLast? ∧
    ∃ remaining behind,
      spend budget (bracketsOf (tokensFrom budget place before).tokens) = some remaining ∧
      behind.offset = place.offset + byteLength before ∧
      (tokensFrom budget place (before ++ rest)).tokens =
        (tokensFrom budget place before).tokens ++ (tokensFrom remaining behind rest).tokens ∧
      (tokensFrom budget place (before ++ rest)).ending =
        (tokensFrom remaining behind rest).ending ∧
      Resumes budget place before token remaining := by
  obtain ⟨front, others, split⟩ := List.append_of_mem member
  rw [List.append_cons] at split
  obtain ⟨cut⟩ := tokens_cut split
  have last : token ∈ (front ++ [token]).getLast? := by simp
  obtain ⟨initial, ends, begins⟩ := cut.last token last
  have bytes : byteLength before = byteLength cut.before := by
    rw [Token.stop, begins, Nat.add_assoc, ← byteLength_append, ← ends] at stop
    exact (Nat.add_left_cancel stop).symm
  obtain ⟨same, same'⟩ := cut_of_bytes cut.whole bytes
  have stops : token.Stops rest :=
    final.imp_right fun named => ⟨named.1, same' ▸ cut.ends token last named.1⟩
  have tokens := cut.tokens
  have ended := cut.ended
  rw [← same] at tokens ended
  have last' : token ∈ (tokensFrom budget place before).tokens.getLast? := tokens.symm ▸ last
  obtain ⟨remaining, spent, resumes⟩ := tokens_resume ended last' stop
  obtain ⟨first, behind, offset, whole, ending, along⟩ := resumes place rest stops
  have length := along.length_eq
  rw [tokens] at length
  obtain ⟨rfl, -⟩ := List.append_inj (split.symm.trans whole) length
  exact ⟨ended, last', remaining, behind, spent, offset, whole.trans (by rw [tokens]), ending,
    resumes⟩

/-- Texts have the same tokens if the same is left of them behind what stands before a token. -/
theorem tokens_skipped {budget : Nat} {place place' : Place} {text text' : List Char}
    (same : skipIgnored false place text = skipIgnored false place' text') :
    tokensFrom budget place text = tokensFrom budget place' text' := by
  rcases tokens_cases budget place' text' with
    stop | ⟨start, first, rest, read, remaining, skipped, found, left⟩
  · generalize tokensFrom budget place' text' = stream at stop
    refine tokens_ended ?_
    cases stop with
    | exhausted skipped => exact .exhausted (same.trans skipped)
    | unreadable skipped failed => exact .unreadable (same.trans skipped) failed
    | tooDeep skipped found spent => exact .tooDeep (same.trans skipped) found spent
  · rw [tokens_read ⟨skipped, found, left⟩, tokens_read ⟨same.trans skipped, found, left⟩]

/-- Blanks before a text leave its tokens alone. -/
theorem tokens_behind_blanks {blanks : List Char}
    (blank : ∀ char ∈ blanks, char = ' ' ∨ char = '\n' ∨ char = '\r') (budget : Nat) (place : Place)
    (text : List Char) : ∃ place', place'.offset = place.offset + byteLength blanks ∧
      tokensFrom budget place (blanks ++ text) = tokensFrom budget place' text := by
  induction blanks generalizing place with
  | nil => exact ⟨place, rfl, rfl⟩
  | cons char blanks ih =>
    obtain ⟨here, others⟩ := List.forall_mem_cons.mp blank
    have passes : ∃ next, Passes place false char false next := by
      rcases here with rfl | rfl | rfl
      · exact ⟨_, .space (Or.inl rfl)⟩
      · exact ⟨_, .feed false⟩
      · exact ⟨_, .unseen (Or.inl rfl)⟩
    obtain ⟨next, passes⟩ := passes
    obtain ⟨place', offset, same⟩ := ih others next
    refine ⟨place', ?_, (tokens_skipped (passes.skip _)).trans same⟩
    rw [offset, passes.offset, byteLength, Nat.add_assoc]

end QueryStore
