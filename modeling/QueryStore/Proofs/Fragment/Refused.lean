import QueryStore.Proofs.Document.Joined
import QueryStore.Proofs.Fragment.Regular

/-! Lists of variables while fragments may have none. The grammar has no place for a list, so that
the parenthesis behind the name of a fragment is refused, whatever stands behind it
(`list_refused`), and the fragments of an accepted text have no variables (`accepted_bare`). -/
namespace QueryStore
open Text Grammar Reader

/-- A list is opened behind the name of a fragment, before which there are whole definitions. -/
inductive OpensList : List Token → Token → Prop
  | behind {before after : List Token} {keyword name opening : Token}
    (whole : before = [] ∨ (readAll .none before).isOk = true)
    (worded : keyword.isWord "fragment" = true) (named : name.isName = true)
    (opens : opening.isPunctuator "(" = true) :
    OpensList (before ++ keyword :: name :: opening :: after) opening

section
variable {α β : Type} {reader : Reader α} {next : α → Reader β} {tokens middle : List Token}
  {refusal : Refusal}

theorem Reader.bind_refused (refused : reader tokens = .error refusal) :
    (reader >>= next) tokens = .error refusal := by
  change (reader tokens >>= fun read => next read.1 read.2) = _
  rw [refused]
  rfl

theorem Reader.bind_reads {value : α} (read : reader tokens = .ok (value, middle)) :
    (reader >>= next) tokens = next value middle := by
  change (reader tokens >>= fun read => next read.1 read.2) = _
  rw [read]
  rfl

theorem Reader.peek_reads (tokens : List Token) : peek tokens = .ok (tokens.head?, tokens) := rfl

theorem Reader.advance_reads (tokens : List Token) : advance tokens = .ok ((), tokens.tail) := rfl

end

/-- A fragment goes on with the word `on` behind its name. -/
theorem definition_refused {locator : Locator} {fuel : Nat} {keyword name opening : Token}
    {after : List Token} (worded : keyword.isWord "fragment" = true) (named : name.isName = true)
    (other : opening.isWord "on" = false) :
    definition locator fuel (keyword :: name :: opening :: after) = .error (.token opening) := by
  have brace : keyword.isPunctuator "\x7b" = false := by
    simp only [Token.isWord, Bool.and_eq_true, decide_eq_true_eq] at worded
    simp [Token.isPunctuator, worded.1]
  have first : Reader.name (name :: opening :: after) = .ok (name, opening :: after) :=
    satisfying_ok.mpr ⟨rfl, named⟩
  have second : Reader.word "on" (opening :: after) = .error (.token opening) := by
    simp [Reader.word, Reader.satisfying, other]
  have refused : fragment locator fuel keyword (name :: opening :: after) =
      .error (.token opening) :=
    (bind_reads first).trans (bind_refused second)
  refine (bind_reads (peek_reads _)).trans ?_
  simp only [List.head?_cons, brace, worded, Bool.false_eq_true, ↓reduceIte]
  exact (bind_reads (advance_reads _)).trans (bind_refused refused)

namespace Grammar
variable {locator locator' : Locator} {size size' fuel : Nat} {tokens more : List Token}
  {found : List Definition} {refusal : Refusal}

/-- Behind whole definitions the next one is refused as it is alone. -/
theorem InTurn.refused (turns : InTurn locator size tokens found) (enough : size ≤ size')
    (refused : definition locator' size' more = .error refusal) (filled : more ≠ [])
    (deep : found.length < fuel) :
    Grammar.definitions locator' size' fuel (tokens ++ more) = .error refusal := by
  induction turns generalizing fuel with
  | none =>
    obtain ⟨fuel, rfl⟩ := Nat.exists_eq_succ_of_ne_zero (Nat.ne_zero_of_lt deep)
    exact bind_refused refused
  | @next taken rest first others read later ih =>
    obtain ⟨fuel, rfl⟩ := Nat.exists_eq_succ_of_ne_zero (Nat.ne_zero_of_lt deep)
    obtain ⟨_, split, -, again⟩ := definition_shuts locator locator' enough _ _ _ read
    obtain rfl := List.append_cancel_right split
    obtain ⟨first', read'⟩ := again taken (rest ++ more) (alike_refl taken)
    rw [List.append_assoc]
    refine (bind_reads read').trans ((bind_reads (peek_reads _)).trans ?_)
    obtain ⟨token, behind, whole⟩ :=
      List.exists_cons_of_ne_nil (List.append_ne_nil_of_right_ne_nil rest filled)
    have later := ih (Nat.lt_of_succ_lt_succ deep)
    rw [whole] at later ⊢
    exact bind_refused later

theorem InTurn.all_refused {other : Locator} (turns : InTurn other (tokens.length + 1) tokens found)
    (refused : ∀ size, definition locator size more = .error refusal) (filled : more ≠ []) :
    readAll locator (tokens ++ more) = .error refusal := by
  have few := turns.length_le
  let size := (tokens ++ more).length + 1
  have enough : tokens.length + 1 ≤ size := by simp [size]
  have early : Grammar.definitions locator size size (tokens ++ more) = .error refusal :=
    turns.refused enough (refused size) filled (by omega)
  simp only [readAll, size, early, Except.map]

end Grammar

/-- Whole definitions are read in turn. -/
theorem turns_of_whole {tokens : List Token}
    (whole : tokens = [] ∨ (readAll .none tokens).isOk = true) :
    ∃ found, InTurn .none (tokens.length + 1) tokens found := by
  rcases whole with rfl | read
  · exact ⟨[], .none⟩
  · cases all : readAll .none tokens with
    | error refusal =>
      rw [all] at read
      cases read
    | ok found =>
      obtain ⟨⟨_, _⟩, parsed, rfl⟩ := map_eq_ok.mp all
      exact ⟨_, (inTurn_of_definitions parsed).1⟩

/-- **A list behind the name of a fragment is refused at its parenthesis.** -/
theorem list_refused {source : String} {opening : Token}
    (opens : OpensList (TokenStream.ofText source.toList).tokens opening) :
    Document.parse ⟨false⟩ source = .error (.returned
      (.document ⟨opening.place.position, some (.token opening.kind opening.text)⟩)) := by
  generalize stream : (TokenStream.ofText source.toList).tokens = tokens at opens
  cases opens with
  | @behind before after keyword name _ whole worded named opens =>
    have other : opening.isWord "on" = false := by
      simp only [Token.isPunctuator, Bool.and_eq_true, decide_eq_true_eq] at opens
      simp [Token.isWord, opens.1]
    obtain ⟨found, turns⟩ := turns_of_whole whole
    have refused : readAll (.ofPositions source) (before ++ keyword :: name :: opening :: after) =
        .error (.token opening) :=
      turns.all_refused (fun _ => definition_refused worded named other) (List.cons_ne_nil _ _)
    have read : readDefinitions (.ofPositions source) source.toList = .error
        (.returned ⟨opening.place.position, some (.token opening.kind opening.text)⟩) := by
      simp only [readDefinitions, stream, refused]
      rfl
    have plain : Document.prepare ⟨false⟩ source = .ok (source.toList, []) := rfl
    rw [parse_eq, plain]
    simp only [read]
    rfl

/-- The fragments of a text have no variables if it is accepted while they may have none. -/
theorem accepted_bare {source : String} {document : Document}
    (accepted : Document.parse ⟨false⟩ source = .ok document) :
    ∀ fragment ∈ fragmentsOf document.definitions, fragment.variableDefinitions = [] := by
  obtain ⟨text, table, found, prepared, read, rfl⟩ := parse_ok accepted
  obtain ⟨rfl, rfl⟩ : source.toList = text ∧ [] = table := by
    simpa [Document.prepare] using prepared
  obtain ⟨-, runs⟩ := readDefinitions_stand (placedBy_locates _ _) read
  intro fragment member
  rw [attach_nothing] at member
  obtain ⟨run, -, stands⟩ := runs.exists_of_mem (mem_fragmentsOf.mp member)
  cases stands
  rfl

end QueryStore
