import QueryStore.Proofs.Fragment.Excised
import QueryStore.Proofs.Token.Resume

/-! Texts put into a text at byte offsets (`Inserted`). What stands behind an offset moves on by the
bytes that are put in before it (`moved`). When blanks are put in behind names, the tokens stay,
each where its offset moves to (`Inserted.tokens`), and blanks beside other texts of their length
move the same characters (`Inserted.counterparts`). -/
namespace QueryStore
open Text

/-- A text with lists put into it, given by their offsets in a text of which it is the part from an
offset on. -/
inductive Inserted : Nat → List (Nat × List Char) → List Char → List Char → Prop
  | done {offset : Nat} {text : List Char} : Inserted offset [] text text
  | next {offset : Nat} {points : List (Nat × List Char)} {before list rest rest' : List Char}
    (filled : before ≠ []) (later : Inserted (offset + byteLength before) points rest rest') :
    Inserted offset ((offset + byteLength before, list) :: points) (before ++ rest)
      (before ++ (list ++ rest'))

/-- Puts lists into a text at offsets, the least first. -/
def insertAll (offset : Nat) (text : List Char) : List (Nat × List Char) → List Char
  | [] => text
  | (point, list) :: points =>
    (takeBytes (point - offset) text).getD [] ++
      (list ++ insertAll point ((dropBytes (point - offset) text).getD []) points)

/-- The offset behind what is put in up to an offset. -/
def moved : List (Nat × List Char) → Nat → Nat
  | [], offset => offset
  | (point, list) :: points, offset =>
    if offset < point then offset else byteLength list + moved points offset

/-- Blanks in the place of lists. -/
def blankPoints (points : List (Nat × List Char)) : List (Nat × List Char) :=
  points.map fun point => (point.1, point.2.map Piece.blank)

theorem moved_before {point offset : Nat} (before : offset < point) (list : List Char)
    (points : List (Nat × List Char)) : moved ((point, list) :: points) offset = offset :=
  if_pos before

theorem moved_behind {point offset : Nat} (behind : point ≤ offset) (list : List Char)
    (points : List (Nat × List Char)) :
    moved ((point, list) :: points) offset = byteLength list + moved points offset :=
  if_neg (Nat.not_lt_of_le behind)

theorem le_moved (points : List (Nat × List Char)) (offset : Nat) : offset ≤ moved points offset := by
  induction points with
  | nil => exact Nat.le_refl _
  | cons point points ih =>
    unfold moved
    split
    · exact Nat.le_refl _
    · exact Nat.le_trans ih (Nat.le_add_left ..)

theorem moved_lt (points : List (Nat × List Char)) {left right : Nat} (before : left < right) :
    moved points left < moved points right := by
  induction points with
  | nil => exact before
  | cons point points ih =>
    have behind := le_moved points right
    unfold moved
    split <;> split <;> omega

theorem moved_inj {points : List (Nat × List Char)} {left right : Nat}
    (same : moved points left = moved points right) : left = right := by
  rcases Nat.lt_trichotomy left right with before | equal | behind
  · exact absurd same (Nat.ne_of_lt (moved_lt points before))
  · exact equal
  · exact absurd same.symm (Nat.ne_of_lt (moved_lt points behind))

section
variable {offset : Nat} {points : List (Nat × List Char)} {text text' : List Char}

theorem Inserted.eq (inserted : Inserted offset points text text') :
    insertAll offset text points = text' := by
  induction inserted with
  | done => rfl
  | @next offset points before list rest rest' filled later ih =>
    rw [insertAll, Nat.add_sub_cancel_left, takeBytes_append, dropBytes_append]
    simp only [Option.getD_some, ih]

/-- Lists put into the rest of a text are put into the text. -/
theorem Inserted.behind {front rest rest' : List Char}
    (later : Inserted (offset + byteLength front) points rest rest') :
    Inserted offset points (front ++ rest) (front ++ rest') := by
  generalize start : offset + byteLength front = place at later
  cases later with
  | done => exact .done
  | @next _ points before list rest rest' filled later =>
    subst start
    have whole : offset + byteLength front + byteLength before =
        offset + byteLength (front ++ before) := by
      rw [byteLength_append, Nat.add_assoc]
    rw [whole] at later ⊢
    rw [← List.append_assoc, ← List.append_assoc]
    exact .next (by simp [filled]) later

theorem Inserted.mem (inserted : Inserted offset points text text') {char : Char}
    (member : char ∈ text') : char ∈ text ∨ ∃ point ∈ points, char ∈ point.2 := by
  induction inserted with
  | done => exact Or.inl member
  | @next offset points before list rest rest' filled later ih =>
    rcases List.mem_append.mp member with early | behind
    · exact Or.inl (List.mem_append_left _ early)
    rcases List.mem_append.mp behind with here | late
    · exact Or.inr ⟨_, List.mem_cons_self, here⟩
    · exact (ih late).imp (List.mem_append_right _)
        fun ⟨point, listed, held⟩ => ⟨point, List.mem_cons_of_mem _ listed, held⟩

/-- A list that is put in at the first offset, and the others behind it. -/
theorem inserted_cons {point : Nat} {list : List Char} :
    Inserted offset ((point, list) :: points) text text' ↔ ∃ before rest rest', before ≠ [] ∧
      point = offset + byteLength before ∧ text = before ++ rest ∧
      text' = before ++ (list ++ rest') ∧ Inserted point points rest rest' := by
  constructor
  · intro inserted
    cases inserted with
    | next filled later => exact ⟨_, _, _, filled, rfl, rfl, rfl, later⟩
  · rintro ⟨before, rest, rest', filled, rfl, rfl, rfl, later⟩
    exact .next filled later

/-- Where lists are put in, and blanks are in a text that is shown instead, the offsets of a
character in the two are those to which its offset moves. -/
theorem Inserted.counterparts {shown : List Char} (inserted : Inserted offset points text text')
    (blanked : Inserted offset (blankPoints points) text shown) {before after : List Char}
    (whole : text = before ++ after) : ∃ place place', Counterparts text' shown place place' ∧
      offset + place = moved points (offset + byteLength before) ∧
      offset + place' = moved (blankPoints points) (offset + byteLength before) := by
  induction inserted generalizing shown before with
  | @done offset text =>
    cases blanked
    exact ⟨_, _, ⟨before, before, ⟨after, whole.symm⟩, ⟨after, whole.symm⟩, Blanked.refl _, rfl, rfl⟩,
      rfl, rfl⟩
  | @next offset points first list rest rest' filled later ih =>
    obtain ⟨first', others, others', -, bytes, split, rfl, later'⟩ := inserted_cons.mp blanked
    obtain ⟨rfl, rfl⟩ := cut_of_bytes split (Nat.add_left_cancel bytes)
    by_cases early : byteLength before < byteLength first
    · obtain ⟨more, rfl, -⟩ := split_of_bytes whole.symm (Nat.le_of_lt early)
      have stays : offset + byteLength before < offset + byteLength (before ++ more) := by omega
      refine ⟨byteLength before, byteLength before, ⟨before, before, ?_, ?_, Blanked.refl _, rfl, rfl⟩,
        (moved_before stays _ _).symm, (moved_before stays _ _).symm⟩
      · exact ⟨more ++ (list ++ rest'), (List.append_assoc ..).symm⟩
      · exact ⟨more ++ (list.map Piece.blank ++ others'), (List.append_assoc ..).symm⟩
    · obtain ⟨more, rfl, rfl⟩ := split_of_bytes whole (Nat.le_of_not_lt early)
      obtain ⟨_, _, ⟨front, front', ⟨back, rfl⟩, ⟨back', rfl⟩, same, rfl, rfl⟩, place, place'⟩ :=
        ih later' rfl
      have behind : offset + byteLength first ≤ offset + byteLength (first ++ more) := by
        rw [byteLength_append]
        omega
      have size : offset + byteLength (first ++ more) =
          offset + byteLength first + byteLength more := by
        rw [byteLength_append, Nat.add_assoc]
      refine ⟨_, _, ⟨first ++ (list ++ front), first ++ (list.map Piece.blank ++ front'), ?_, ?_,
        List.rel_append (Blanked.refl _) (List.rel_append ?_ same), rfl, rfl⟩, ?_, ?_⟩
      · exact ⟨back, by simp only [List.append_assoc]⟩
      · exact ⟨back', by simp only [List.append_assoc]⟩
      · exact List.forall₂_map_right_iff.mpr (List.forall₂_same.mpr fun _ _ => Or.inr rfl)
      · rw [moved_behind behind, size, ← place]
        simp only [byteLength_append]
        omega
      · rw [blankPoints, List.map_cons, moved_behind behind, size]
        simp only [byteLength_append]
        rw [blankPoints] at place'
        omega

/-- Lists are put in behind the beginning of a text. -/
theorem Inserted.points_lt (inserted : Inserted offset points text text') :
    ∀ point ∈ points, offset < point.1 := by
  induction inserted with
  | done => simp
  | @next offset points before list rest rest' filled later ih =>
    have size := byteLength_pos filled
    refine List.forall_mem_cons.mpr ⟨Nat.lt_add_of_pos_right size, fun point member => ?_⟩
    exact Nat.lt_trans (Nat.lt_add_of_pos_right size) (ih point member)

/-- Tokens that differ in their places only, the one where the other is moved to. -/
structure Token.Moves (points : List (Nat × List Char)) (offset offset' : Nat)
    (left right : Token) : Prop where
  alike : left.Alike right
  place : offset + right.place.offset = offset' + moved points left.place.offset

/-- Blanks behind names move the tokens of a text, and nothing more. -/
theorem Inserted.tokens {budget : Nat} {place place' : Place}
    (inserted : Inserted place.offset points text text')
    (blank : ∀ point ∈ points, point.2 ≠ [] ∧
      ∀ char ∈ point.2, char = ' ' ∨ char = '\n' ∨ char = '\r')
    (ended : (tokensFrom budget place text).ending = .endOfInput)
    (named : ∀ point ∈ points, ∃ token ∈ (tokensFrom budget place text).tokens,
      token.kind = .name ∧ token.stop = point.1) :
    (tokensFrom budget place' text').ending = .endOfInput ∧
      List.Forall₂ (Token.Moves points place.offset place'.offset)
        (tokensFrom budget place text).tokens (tokensFrom budget place' text').tokens := by
  generalize start : place.offset = offset at inserted
  induction inserted generalizing budget place place' with
  | @done offset text =>
    obtain ⟨ending, along⟩ := tokens_elsewhere budget place place' text
    exact ⟨ending.trans ended, start ▸ along.imp fun _ _ same => ⟨same.alike, same.apart⟩⟩
  | @next offset points before list rest rest' filled later ih =>
    subst start
    obtain ⟨⟨some, plain⟩, blank'⟩ := List.forall_mem_cons.mp blank
    obtain ⟨⟨token, member, kind, stop⟩, named'⟩ := List.forall_mem_cons.mp named
    dsimp only at some plain stop
    -- Behind the name either text goes on as what is left of it does alone.
    obtain ⟨-, -, remaining, behind, -, offset, tokens, ending, resumes⟩ :=
      tokens_behind member (Or.inr ⟨kind, by simp⟩) stop
    have stops : ∀ char ∈ (list ++ rest').head?, isNameChar char = false := by
      obtain ⟨char, more, rfl⟩ := List.exists_cons_of_ne_nil some
      rintro _ ⟨⟩
      rcases plain char List.mem_cons_self with rfl | rfl | rfl <;> decide
    obtain ⟨first, behind', offset', tokens', ending', along⟩ :=
      resumes place' (list ++ rest') (Or.inr ⟨kind, stops⟩)
    obtain ⟨behind'', offset'', blanks⟩ := tokens_behind_blanks plain remaining behind' rest'
    rw [blanks] at tokens' ending'
    rw [ending] at ended
    have early : ∀ token ∈ (tokensFrom budget place before).tokens,
        token.place.offset < token.stop ∧ token.stop ≤ place.offset + byteLength before :=
      fun token member => (token_bounds member).2
    have later' : ∀ token ∈ (tokensFrom remaining behind rest).tokens,
        place.offset + byteLength before ≤ token.place.offset :=
      fun token member => offset ▸ (token_bounds member).1
    have named'' : ∀ point ∈ points, ∃ token ∈ (tokensFrom remaining behind rest).tokens,
        token.kind = .name ∧ token.stop = point.1 := by
      intro point listed
      obtain ⟨other, held, kind', stop'⟩ := named' point listed
      have further := later.points_lt point listed
      rw [tokens] at held
      refine ⟨other, (List.mem_append.mp held).resolve_left fun held' => ?_, kind', stop'⟩
      have bound := (early other held').2
      omega
    obtain ⟨ended', moves⟩ := @ih remaining behind behind'' blank' ended named'' offset
    refine ⟨ending'.trans ended', ?_⟩
    rw [tokens, tokens']
    refine List.rel_append (((List.forall₂_and_left _ _).mpr ⟨early, along⟩).imp ?_)
      (((List.forall₂_and_left _ _).mpr ⟨later', moves⟩).imp ?_)
    · rintro left right ⟨⟨begins, ends⟩, alike, apart⟩
      refine ⟨alike, ?_⟩
      rw [moved_before (by omega), apart]
    · rintro left right ⟨begins, alike, apart⟩
      refine ⟨alike, ?_⟩
      rw [moved_behind (by omega)]
      omega

end

end QueryStore
