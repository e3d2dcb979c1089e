import QueryStore.Proofs.Fragment.Chunks

/-! How a text is cut into pieces, one chunk or one list of variables at a time (`Cuts`,
`piecesFrom_ok`). A list can begin only outside of all brackets and behind the keyword and the
name of a fragment; elsewhere chunks are kept (`Still`), in particular between brackets that
match (`inside_still`). -/
namespace QueryStore
open Text

/-- Where the cut of a text is: at a byte offset, how deep, and behind which names. -/
structure Spot where
  offset : Nat
  depth : Depth
  recent : RecentNames

namespace Spot

/-- Outside of all brackets, behind a chunk that is no name. -/
def fresh (offset : Nat) : Spot := ⟨offset, ⟨0, 0⟩, []⟩

/-- Outside of all brackets, and not behind the keyword and the name of a fragment. -/
structure Closed (spot : Spot) : Prop where
  outside : spot.depth = ⟨0, 0⟩
  shut : spot.recent.heading? = none

/-- The spot behind a chunk that is kept. -/
def past (spot : Spot) (chunk : Chunk) : Spot where
  offset := spot.offset + byteLength chunk.text
  depth := chunk.brackets.foldl Depth.after spot.depth
  recent :=
    match chunk with
    | .ignored _ | .comment _ => spot.recent
    | .name text => (spot.offset, text) :: spot.recent
    | .string _ | .dollar _ | .mark _ => []

/-- The spot behind chunks that are kept. -/
def after (spot : Spot) (chunks : List Chunk) : Spot := chunks.foldl past spot

/-- The keyword and the name of the fragment whose list of variables may begin at a spot. -/
def heading? (spot : Spot) : Option (Nat × List Char) :=
  if spot.depth = ⟨0, 0⟩ then spot.recent.heading? else none

/-- The keyword and the name of the fragment whose list of variables a chunk opens, if any. -/
def opens? (spot : Spot) (chunk : Chunk) : Option (Nat × List Char) :=
  if chunk = .mark '(' then spot.heading? else none

@[simp] theorem after_nil (spot : Spot) : spot.after [] = spot := rfl

@[simp] theorem after_cons (spot : Spot) (chunk : Chunk) (chunks : List Chunk) :
    spot.after (chunk :: chunks) = (spot.past chunk).after chunks := rfl

@[simp] theorem after_append (spot : Spot) (left right : List Chunk) :
    spot.after (left ++ right) = (spot.after left).after right :=
  List.foldl_append

theorem Closed.heading {spot : Spot} (closed : spot.Closed) : spot.heading? = none := by
  rw [heading?, if_pos closed.outside, closed.shut]

theorem after_offset (spot : Spot) (chunks : List Chunk) :
    (spot.after chunks).offset = spot.offset + byteLength (Chunk.textOf chunks) := by
  induction chunks generalizing spot with
  | nil => rfl
  | cons chunk chunks ih =>
    rw [after_cons, ih, Chunk.textOf_cons, byteLength_append, ← Nat.add_assoc]
    rfl

theorem after_depth (spot : Spot) (chunks : List Chunk) :
    (spot.after chunks).depth = (Chunk.bracketsOf chunks).foldl Depth.after spot.depth := by
  induction chunks generalizing spot with
  | nil => rfl
  | cons chunk chunks ih =>
    rw [after_cons, ih, Chunk.bracketsOf_cons, List.foldl_append]
    rfl

end Spot

/-- Chunks are cut into pieces from a spot on. -/
inductive Cuts : Spot → List Chunk → List Piece → Prop
  | done {spot : Spot} : Cuts spot [] []
  | keep {spot : Spot} {chunk : Chunk} {chunks : List Chunk} {found : List Piece}
    (shut : spot.opens? chunk = none) (later : Cuts (spot.past chunk) chunks found) :
    Cuts spot (chunk :: chunks) (.kept chunk.text :: found)
  | excise {spot : Spot} {keyword : Nat} {name : List Char} {chunks list rest : List Chunk}
    {found : List Piece} (opens : spot.opens? (.mark '(') = some (keyword, name))
    (closed : closingParenthesis 0 chunks = some (list, rest))
    (later : Cuts ⟨spot.offset + byteLength ('(' :: Chunk.textOf list), spot.depth, []⟩ rest found) :
    Cuts spot (.mark '(' :: chunks)
      (.excised ⟨String.ofList name, keyword, '(' :: Chunk.textOf list⟩ :: found)

theorem depth_after_plain {char : Char} (plain : isBracket char = false) (depth : Depth) :
    depth.after char = depth := by
  simp only [isBracket, Bool.or_eq_false_iff, decide_eq_false_iff_not] at plain
  obtain ⟨⟨⟨⟨⟨open', close⟩, -⟩, -⟩, brace⟩, unbrace⟩ := plain
  simp [Depth.after, open', close, brace, unbrace]

/-- The depth behind a mark is counted character by character. -/
theorem Spot.past_mark (spot : Spot) (char : Char) :
    spot.past (.mark char) = ⟨spot.offset + byteLength [char], spot.depth.after char, []⟩ := by
  unfold Spot.past Chunk.brackets
  by_cases bracket : isBracket char = true
  · simp [bracket, Chunk.text]
  · simp [bracket, Chunk.text, depth_after_plain (Bool.not_eq_true _ ▸ bracket)]

/-- A chunk that is not a parenthesis opens nothing. -/
theorem Spot.opens_other (spot : Spot) {chunk : Chunk} (other : chunk ≠ .mark '(') :
    spot.opens? chunk = none := by
  simp [Spot.opens?, other]

private theorem opens_mark (spot : Spot) (char : Char) : spot.opens? (.mark char) =
    if (char = '(' && spot.depth = ⟨0, 0⟩) = true then spot.recent.heading? else none := by
  simp only [Spot.opens?, Spot.heading?, Chunk.mark.injEq, Bool.and_eq_true, decide_eq_true_eq]
  by_cases parenthesis : char = '(' <;> simp [parenthesis]

/-- A chunk is kept when the rest is cut. -/
private theorem cuts_keep {spot : Spot} {chunk : Chunk} {chunks : List Chunk}
    {others : Except String (List Piece)} {found : List Piece} {text : List Char}
    (spelled : chunk.text = text) (shut : spot.opens? chunk = none)
    (cut : others.map (.kept text :: ·) = .ok found)
    (later : ∀ {found}, others = .ok found → Cuts (spot.past chunk) chunks found) :
    Cuts spot (chunk :: chunks) found := by
  obtain ⟨others', same, rfl⟩ := map_eq_ok.mp cut
  subst spelled
  exact .keep shut (later same)

/-- The pieces of a text are what it is cut into. -/
theorem cuts_of_pieces {offset : Nat} {depth : Depth} {recent : RecentNames} {chunks : List Chunk}
    {found : List Piece} (cut : piecesFrom offset depth recent chunks = .ok found) :
    Cuts ⟨offset, depth, recent⟩ chunks found := by
  fun_induction piecesFrom offset depth recent chunks generalizing found with
  | case1 =>
    cases cut
    exact .done
  | case2 | case3 | case4 | case5 | case6 =>
    rename_i ih
    exact cuts_keep rfl (Spot.opens_other _ (by simp)) cut ih
  | case7 =>
    rename_i char shut _ ih
    refine cuts_keep rfl ((opens_mark _ char).trans shut) cut ?_
    rw [Spot.past_mark]
    exact ih
  | case8 => cases cut
  | case9 =>
    rename_i char keyword name opens list after closed _ ih
    obtain ⟨others, same, rfl⟩ := map_eq_ok.mp cut
    have parenthesis : char = '(' := by
      by_contra other
      simp [other] at opens
    subst parenthesis
    exact .excise ((opens_mark _ '(').trans opens) closed (ih same)

/-- The pieces of chunks from a spot on. -/
def Spot.pieces (spot : Spot) (chunks : List Chunk) : Except String (List Piece) :=
  piecesFrom spot.offset spot.depth spot.recent chunks

/-- A chunk that opens nothing is kept. -/
theorem Spot.pieces_keep {spot : Spot} {chunk : Chunk} (shut : spot.opens? chunk = none)
    (chunks : List Chunk) :
    spot.pieces (chunk :: chunks) =
      ((spot.past chunk).pieces chunks).map (.kept chunk.text :: ·) := by
  cases chunk with
  | mark char =>
    rw [opens_mark] at shut
    rw [Spot.past_mark, Spot.pieces, piecesFrom]
    split
    · rfl
    · next opened => rw [opened] at shut; cases shut
  | _ =>
    rw [Spot.pieces, piecesFrom]
    rfl

/-- A parenthesis that opens a list is cut out with it, if it is closed. -/
theorem Spot.pieces_open {spot : Spot} {keyword : Nat} {name : List Char}
    (opens : spot.opens? (.mark '(') = some (keyword, name)) (chunks : List Chunk) :
    spot.pieces (.mark '(' :: chunks) = match closingParenthesis 0 chunks with
      | none => .error (String.ofList name)
      | some (list, after) =>
        let text := '(' :: Chunk.textOf list
        (Spot.pieces ⟨spot.offset + byteLength text, spot.depth, []⟩ after).map
          (.excised ⟨String.ofList name, keyword, text⟩ :: ·) := by
  rw [opens_mark] at opens
  rw [Spot.pieces, piecesFrom]
  split
  · next shut => rw [opens] at shut; cases shut
  · next opened =>
    rw [opens] at opened
    cases opened
    split
    · next open' => rw [open']
    · next closed => rw [closed]; rfl

theorem pieces_of_cuts {spot : Spot} {chunks : List Chunk} {found : List Piece}
    (cuts : Cuts spot chunks found) :
    piecesFrom spot.offset spot.depth spot.recent chunks = .ok found := by
  change spot.pieces chunks = .ok found
  induction cuts with
  | done => rw [Spot.pieces, piecesFrom]
  | keep shut later ih =>
    rw [Spot.pieces_keep shut, ih]
    rfl
  | excise opens closed later ih =>
    rw [Spot.pieces_open opens, closed]
    exact map_eq_ok.mpr ⟨_, ih, rfl⟩

/-- Chunks of which none opens a list of variables. Where one might begin, it would be a list of
the given kind. -/
def Still (heads : Nat × List Char → Prop) : Spot → List Chunk → Prop
  | _, [] => True
  | spot, chunk :: chunks =>
    (∀ heading ∈ spot.heading?, heads heading ∧ chunk ≠ .mark '(') ∧
      Still heads (spot.past chunk) chunks

section
variable {heads : Nat × List Char → Prop}

theorem still_append {spot : Spot} {left right : List Chunk} : Still heads spot (left ++ right) ↔
    Still heads spot left ∧ Still heads (spot.after left) right := by
  induction left generalizing spot with
  | nil => simp [Still]
  | cons chunk left ih => simp only [List.cons_append, Still, ih, Spot.after_cons, and_assoc]

/-- A chunk where no list may begin is kept. -/
theorem still_cons {spot : Spot} {chunk : Chunk} {chunks : List Chunk} (shut : spot.heading? = none)
    (later : Still heads (spot.past chunk) chunks) : Still heads spot (chunk :: chunks) :=
  ⟨by simp [shut], later⟩

/-- Chunks that open nothing are kept. -/
theorem Still.cuts {spot : Spot} {part rest : List Chunk} {found : List Piece}
    (still : Still heads spot part) (later : Cuts (spot.after part) rest found) :
    Cuts spot (part ++ rest) (part.map (Piece.kept ·.text) ++ found) := by
  induction part generalizing spot with
  | nil => exact later
  | cons chunk part ih =>
    refine .keep ?_ (ih still.2 later)
    unfold Spot.opens?
    split
    · next opening =>
      cases heading : spot.heading? with
      | none => rfl
      | some found => exact absurd opening (still.1 found heading).2
    · rfl

/-- Chunks that are kept are shown as they are, and no lists. -/
theorem kept_append (part : List Chunk) (found : List Piece) :
    blankedText (part.map (Piece.kept ·.text) ++ found) = Chunk.textOf part ++ blankedText found ∧
      variableLists (part.map (Piece.kept ·.text) ++ found) = variableLists found := by
  induction part with
  | nil => exact ⟨rfl, rfl⟩
  | cons chunk part ih =>
    obtain ⟨shown, lists⟩ := ih
    refine ⟨?_, lists⟩
    rw [Chunk.textOf_cons, List.append_assoc, ← shown]
    rfl

private theorem past_gap {chunk : Chunk} (blank : chunk.isGap = true) (spot : Spot) :
    chunk ≠ .mark '(' ∧
      spot.past chunk = ⟨spot.offset + byteLength chunk.text, spot.depth, spot.recent⟩ := by
  cases chunk with
  | ignored | comment => exact ⟨by simp, rfl⟩
  | string | name | dollar | mark => cases blank

/-- Gaps leave the depth and the latest names as they are. -/
theorem Spot.after_gap {gap : List Chunk} (blank : gap.all Chunk.isGap = true) (spot : Spot) :
    spot.after gap =
      ⟨spot.offset + byteLength (Chunk.textOf gap), spot.depth, spot.recent⟩ := by
  induction gap generalizing spot with
  | nil => rfl
  | cons chunk gap ih =>
    simp only [List.all_cons, Bool.and_eq_true] at blank
    rw [Spot.after_cons, ih blank.2, (past_gap blank.1 spot).2, Chunk.textOf_cons,
      byteLength_append, Nat.add_assoc]

/-- Gaps open nothing. -/
theorem gap_still {gap : List Chunk} (blank : gap.all Chunk.isGap = true) {spot : Spot}
    (known : ∀ heading ∈ spot.heading?, heads heading) : Still heads spot gap := by
  induction gap generalizing spot with
  | nil => trivial
  | cons chunk gap ih =>
    simp only [List.all_cons, Bool.and_eq_true] at blank
    obtain ⟨other, past⟩ := past_gap blank.1 spot
    refine ⟨fun heading found => ⟨known heading found, other⟩, ih blank.2 ?_⟩
    rw [past]
    exact known

end

/-- Brackets through which a depth does not come back to zero. -/
def Deep : Depth → List Char → Prop
  | depth, [] => depth ≠ ⟨0, 0⟩
  | depth, char :: rest => depth ≠ ⟨0, 0⟩ ∧ Deep (depth.after char) rest

theorem Deep.inside {depth : Depth} {brackets : List Char} (deep : Deep depth brackets) :
    depth ≠ ⟨0, 0⟩ := by
  cases brackets with
  | nil => exact deep
  | cons char brackets => exact deep.1

theorem Deep.behind {depth : Depth} {left right : List Char} (deep : Deep depth (left ++ right)) :
    Deep (left.foldl Depth.after depth) right := by
  induction left generalizing depth with
  | nil => exact deep
  | cons char left ih => exact ih deep.2

/-- Brackets that match lead back to the depth before them. -/
theorem Balanced.level {brackets : List Char} (balanced : Balanced brackets) (depth : Depth) :
    brackets.foldl Depth.after depth = depth := by
  induction balanced generalizing depth with
  | nil => rfl
  | parentheses inside behind ih ih' =>
    rw [List.foldl_cons, List.foldl_append, ih, List.foldl_cons, ih']
    simp [Depth.after]
  | squares inside behind ih ih' =>
    rw [List.foldl_cons, List.foldl_append, ih, List.foldl_cons, ih']
    simp [Depth.after]
  | braces inside behind ih ih' =>
    rw [List.foldl_cons, List.foldl_append, ih, List.foldl_cons, ih']
    simp [Depth.after]

/-- Brackets that match do not lead out of brackets around them. -/
theorem Balanced.deep {brackets rest : List Char} (balanced : Balanced brackets) {depth : Depth}
    (deep : Deep depth rest) : Deep depth (brackets ++ rest) := by
  induction balanced generalizing depth rest with
  | nil => exact deep
  | @parentheses inner others inside behind ih ih' =>
    have back : (depth.after '(').after ')' = depth := by simp [Depth.after]
    have inner' : depth.after '(' ≠ ⟨0, 0⟩ := by simp [Depth.after]
    rw [List.cons_append, List.append_assoc, List.cons_append]
    refine ⟨deep.inside, ih ⟨inner', ?_⟩⟩
    rw [back]
    exact ih' deep
  | @squares inner others inside behind ih ih' =>
    -- Square brackets do not count, so that what is inside of them is at the same depth.
    have level : ∀ char, char = '[' ∨ char = ']' → depth.after char = depth := by
      rintro char (rfl | rfl) <;> simp [Depth.after]
    have closing : Deep depth (']' :: (others ++ rest)) :=
      ⟨deep.inside, by rw [level ']' (Or.inr rfl)]; exact ih' deep⟩
    rw [List.cons_append, List.append_assoc, List.cons_append]
    exact ⟨deep.inside, by rw [level '[' (Or.inl rfl)]; exact ih closing⟩
  | @braces inner others inside behind ih ih' =>
    have back : (depth.after '\x7b').after '\x7d' = depth := by simp [Depth.after]
    have inner' : depth.after '\x7b' ≠ ⟨0, 0⟩ := by simp [Depth.after]
    rw [List.cons_append, List.append_assoc, List.cons_append]
    refine ⟨deep.inside, ih ⟨inner', ?_⟩⟩
    rw [back]
    exact ih' deep

/-- How many parentheses are open behind brackets, if no more are closed than were open. -/
def leftOpen : Nat → List Char → Option Nat
  | inner, [] => some inner
  | inner, char :: rest =>
    if char = '(' then leftOpen (inner + 1) rest
    else if char = ')' then (if inner = 0 then none else leftOpen (inner - 1) rest)
    else leftOpen inner rest

/-- Brackets that match leave open what was open before them. -/
theorem Balanced.leftOpen {brackets : List Char} (balanced : Balanced brackets) (inner : Nat)
    (rest : List Char) : leftOpen inner (brackets ++ rest) = QueryStore.leftOpen inner rest := by
  induction balanced generalizing inner rest with
  | nil => rfl
  | parentheses inside behind ih ih' =>
    rw [List.cons_append, List.append_assoc, List.cons_append, QueryStore.leftOpen, if_pos rfl, ih]
    simp [QueryStore.leftOpen, ih']
  | squares inside behind ih ih' | braces inside behind ih ih' =>
    rw [List.cons_append, List.append_assoc, List.cons_append, QueryStore.leftOpen, if_neg (by decide),
      if_neg (by decide), ih]
    simp [QueryStore.leftOpen, ih']

private theorem leftOpen_chunk (inner : Nat) (chunk : Chunk) (rest : List Char) :
    leftOpen inner (chunk.brackets ++ rest) =
      if chunk = .mark '(' then leftOpen (inner + 1) rest
      else if chunk = .mark ')' then (if inner = 0 then none else leftOpen (inner - 1) rest)
      else leftOpen inner rest := by
  cases chunk with
  | mark char =>
    rw [Chunk.brackets]
    by_cases bracket : isBracket char = true
    · rw [List.filter_cons_of_pos bracket]
      simp [leftOpen]
    · have plain : char ≠ '(' ∧ char ≠ ')' := by
        constructor <;> rintro rfl <;> exact bracket (by decide)
      rw [List.filter_cons_of_neg bracket]
      simp [plain]
  | ignored | comment | string | name | dollar => rfl

/-- The closing parenthesis is looked for behind chunks that leave parentheses open. -/
theorem closingParenthesis_append {inner more : Nat} {part : List Chunk}
    (opens : leftOpen inner (Chunk.bracketsOf part) = some more) (rest : List Chunk) :
    closingParenthesis inner (part ++ rest) =
      (closingParenthesis more rest).map fun read => (part ++ read.1, read.2) := by
  induction part generalizing inner with
  | nil =>
    cases opens
    simp
  | cons chunk part ih =>
    rw [Chunk.bracketsOf_cons, leftOpen_chunk] at opens
    rw [List.cons_append, closingParenthesis]
    split at opens
    · next opening =>
      simp [opening, ih opens, Function.comp_def]
    split at opens
    · next closing =>
      split at opens
      · cases opens
      · next open' => simp [closing, open', ih opens, Function.comp_def]
    · next notOpening notClosing =>
      simp [notOpening, notClosing, ih opens, Function.comp_def]

/-- A parenthesis closes what is open behind brackets that match. -/
theorem closingParenthesis_balanced {inside : List Chunk}
    (balanced : Balanced (Chunk.bracketsOf inside)) (rest : List Chunk) :
    closingParenthesis 0 (inside ++ .mark ')' :: rest) = some (inside ++ [.mark ')'], rest) := by
  have opens := balanced.leftOpen 0 []
  rw [List.append_nil] at opens
  rw [closingParenthesis_append opens]
  simp [closingParenthesis]

section
variable {heads : Nat × List Char → Prop}

/-- Inside of brackets nothing is opened. -/
theorem Deep.still {spot : Spot} {part : List Chunk}
    (deep : Deep spot.depth (Chunk.bracketsOf part)) : Still heads spot part := by
  induction part generalizing spot with
  | nil => trivial
  | cons chunk part ih =>
    rw [Chunk.bracketsOf_cons] at deep
    exact still_cons (by simp [Spot.heading?, deep.inside]) (ih deep.behind)

/-- The brackets of one kind. -/
inductive Pair : Char → Char → Prop
  | parentheses : Pair '(' ')'
  | braces : Pair '\x7b' '\x7d'

/-- What stands in brackets is kept, unless the bracket that opens it opens a list. -/
theorem enclosed_still {spot : Spot} {opening closing : Char} {inside : List Chunk}
    (closed : spot.Closed) (pair : Pair opening closing)
    (balanced : Balanced (Chunk.bracketsOf inside)) :
    let part := Chunk.mark opening :: (inside ++ [.mark closing])
    Still heads spot part ∧
      spot.after part = .fresh (spot.offset + byteLength (Chunk.textOf part)) := by
  intro part
  have depths : spot.depth.after opening ≠ ⟨0, 0⟩ ∧
      (spot.depth.after opening).after closing = ⟨0, 0⟩ := by
    rw [closed.outside]
    cases pair <;> decide
  have level : ((spot.past (.mark opening)).after inside).depth = spot.depth.after opening := by
    rw [Spot.after_depth, Spot.past_mark, balanced.level]
  have quiet : Still heads (spot.past (.mark opening)) inside := by
    refine Deep.still ?_
    have deep := balanced.deep (show Deep (spot.depth.after opening) [] from depths.1)
    rw [List.append_nil] at deep
    rwa [Spot.past_mark]
  refine ⟨still_cons closed.heading (still_append.mpr ⟨quiet, still_cons ?_ trivial⟩), ?_⟩
  · rw [Spot.heading?, level, if_neg depths.1]
  · have offset := spot.after_offset part
    simp only [part, Spot.after_cons, Spot.after_append, Spot.after_nil] at offset ⊢
    rw [Spot.past_mark _ closing, level, depths.2] at offset ⊢
    rw [Spot.fresh, ← offset]

end

end QueryStore
