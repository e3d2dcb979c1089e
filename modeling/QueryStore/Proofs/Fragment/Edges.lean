import QueryStore.Proofs.Fragment.Chunks

/-! A chunk depends on the text behind it only by the first character of that text, and by that
only in what it ends (`Edge`). So another text may follow a chunk (`follows_edge`), and chunks can
be put together chunk by chunk (`chunked_cons`). What ends with its text mostly ends with its line,
so that texts on lines of their own are cut one after the other (`ofText_line`). -/
namespace QueryStore
namespace Chunk

/-- Texts that end alike what is before them: both are empty, or they begin with characters that
end the same names, comments and strings. -/
inductive Edge : List Char → List Char → Prop
  | none : Edge [] []
  | some {char other : Char} {rest rest' : List Char} (name : isNameChar char = isNameChar other)
    (line : endsLine char = endsLine other) (quote : char = '\x22' ↔ other = '\x22') :
    Edge (char :: rest) (other :: rest')

theorem Edge.head {text other : List Char} (same : text.head? = other.head?) : Edge text other := by
  cases text <;> cases other <;> cases same
  · exact .none
  · exact .some rfl rfl Iff.rfl

theorem Edge.append {text other : List Char} (edge : Edge text other) (front : List Char) :
    Edge (front ++ text) (front ++ other) := by
  cases front with
  | nil => exact edge
  | cons char front => exact .some rfl rfl Iff.rfl

/-- A chunk that a text begins with, with the text behind it. -/
def Follows (chunk : Chunk) (tail : List Char) : Prop :=
  ofText (chunk.text ++ tail) = chunk :: ofText tail

section
variable {tail tail' : List Char} (edge : Edge tail tail')
include edge

private theorem run_edge {p : Char → Bool} {more : List Char}
    (taken : (more ++ tail).takeWhile p = more)
    (ends : ∀ char ∈ tail.head?, ∀ other ∈ tail'.head?, p char = p other) :
    (more ++ tail').takeWhile p = more ∧ (more ++ tail').dropWhile p = tail' := by
  obtain ⟨goes, stops⟩ := run_taken taken
  refine run_stops goes ?_
  cases edge with
  | none => simp
  | some => simpa [← ends _ rfl _ rfl] using stops

private theorem stringRest_edge {text more : List Char} (cut : stringRest text = (more, tail)) :
    stringRest (more ++ tail') = (more, tail') := by
  fun_induction stringRest text generalizing more with
  | case1 =>
    cases cut
    cases edge
    rfl
  | case2 =>
    rename_i ih
    obtain ⟨rfl, rfl⟩ := Prod.mk.inj cut
    rw [List.cons_append, List.cons_append, stringRest, ih rfl]
  | case3 =>
    cases cut
    simp [stringRest]
  | case4 char rest escaped quote line =>
    cases cut
    cases edge with
    | @some _ other _ rest' _ line' quote' =>
      have ends : endsLine other = true := by rw [← line', line]
      have noQuote : other ≠ '\x22' := fun same => quote (quote'.mpr same)
      have noEscape : other ≠ '\\' := by
        rintro rfl
        exact absurd ends (by decide)
      rw [List.nil_append, stringRest.eq_3 _ _ fun _ _ same _ => noEscape same]
      simp [noQuote, ends]
  | case5 =>
    rename_i char rest escaped quote line _ ih
    obtain ⟨rfl, rfl⟩ := Prod.mk.inj cut
    -- A backslash is not followed by anything here, for it would have taken that along.
    have escaped' : ∀ other others, char = '\\' →
        (stringRest rest).1 ++ tail' = other :: others → False := by
      intro other others escape whole
      cases rest with
      | nil =>
        simp only [stringRest, List.nil_append] at edge whole
        cases edge
        cases whole
      | cons next rest => exact escaped next rest escape rfl
    rw [List.cons_append, stringRest.eq_3 _ _ escaped', ih rfl, if_neg quote, if_neg line]

omit edge in
/-- A block string that ends before the text does ends with three quotes. -/
private theorem blockRest_long (text : List Char) : (blockRest text).2 = [] ∨
    ∃ first second third inside, (blockRest text).1 = first :: second :: third :: inside := by
  fun_induction blockRest text with
  | case1 => exact Or.inl rfl
  | case2 => exact Or.inr ⟨_, _, _, _, rfl⟩
  | case3 => exact Or.inr ⟨_, _, _, _, rfl⟩
  | case4 =>
    rename_i ih
    rcases ih with none | ⟨first, second, third, inside, long⟩
    · exact Or.inl none
    · exact Or.inr ⟨_, first, second, third :: inside, congrArg _ long⟩

private theorem blockRest_edge {text more : List Char} (cut : blockRest text = (more, tail)) :
    blockRest (more ++ tail') = (more, tail') := by
  fun_induction blockRest text generalizing more with
  | case1 =>
    cases cut
    cases edge
    rfl
  | case2 =>
    rename_i ih
    obtain ⟨rfl, rfl⟩ := Prod.mk.inj cut
    simp only [tripleQuote, List.cons_append, List.nil_append]
    rw [blockRest, ih rfl]
    rfl
  | case3 =>
    cases cut
    simp [tripleQuote, blockRest]
  | case4 =>
    rename_i char rest escaped apart _ ih
    obtain ⟨rfl, rfl⟩ := Prod.mk.inj cut
    -- The rest begins as it did before, as far as quotes in a row matter.
    have begins : ((blockRest rest).1 ++ tail').take 3 = rest.take 3 := by
      have split := blockRest_split rest
      rcases blockRest_long rest with none | ⟨first, second, third, inside, long⟩
      · rw [none] at edge split
        cases edge
        rw [split]
      · rw [long] at split ⊢
        rw [← split]
        rfl
    have escaped' : ∀ others, char = '\\' →
        (blockRest rest).1 ++ tail' = '\x22' :: '\x22' :: '\x22' :: others → False := by
      intro others escape whole
      rw [whole] at begins
      refine escaped (rest.drop 3) escape ?_
      conv => lhs; rw [← List.take_append_drop 3 rest, ← begins]
      rfl
    have apart' : ∀ others, char = '\x22' →
        (blockRest rest).1 ++ tail' = '\x22' :: '\x22' :: others → False := by
      intro others quote whole
      rw [whole] at begins
      refine apart (rest.drop 2) quote ?_
      have two := congrArg (List.take 2) begins
      rw [List.take_take, List.take_take] at two
      conv => lhs; rw [← List.take_append_drop 2 rest]
      exact congrArg (· ++ rest.drop 2) two.symm
    rw [List.cons_append, blockRest.eq_4 _ _ escaped' apart', ih rfl]

omit edge in
/-- A chunk is what its text begins with. -/
theorem follows_iff {chunk : Chunk} : chunk.Follows tail ↔ ∃ char more,
    chunk.text = char :: more ∧ first char (more ++ tail) = (chunk, tail) := by
  constructor
  · intro follows
    rw [Follows] at follows
    cases spelled : chunk.text with
    | nil =>
      rw [spelled, List.nil_append] at follows
      exact absurd follows.symm (List.cons_ne_self _ _)
    | cons char more =>
      rw [spelled, List.cons_append, ofText] at follows
      obtain ⟨head, rest⟩ := List.cons.inj follows
      have rest' := congrArg textOf rest
      rw [textOf_ofText, textOf_ofText] at rest'
      exact ⟨char, more, rfl, Prod.ext head rest'⟩
  · rintro ⟨char, more, spelled, cut⟩
    rw [Follows, spelled, List.cons_append]
    exact ofText_cons cut

/-- What is no block string does not become one. -/
private theorem single_edge {more : List Char}
    (single : ∀ inner, more ++ tail = '\x22' :: '\x22' :: inner → False)
    (cut : stringRest (more ++ tail) = (more, tail)) (inner : List Char) :
    more ++ tail' ≠ '\x22' :: '\x22' :: inner := by
  intro whole
  match more with
  | [] =>
    rw [List.nil_append] at whole cut
    subst whole
    cases edge with
    | some _ _ quote =>
      rw [quote.mpr rfl] at cut
      simp [stringRest] at cut
  | [_] =>
    cases whole
    cases edge with
    | some _ _ quote => exact single _ (by rw [quote.mpr rfl]; rfl)
  | _ :: _ :: more =>
    cases whole
    exact single _ rfl

omit edge in
/-- A chunk is the same behind another text, if its run of characters ends there as well, and what
it is if it is a string. -/
private theorem first_ends {char : Char} {more : List Char} {chunk : Chunk}
    (spelled : chunk.text = char :: more) (cut : first char (more ++ tail) = (chunk, tail))
    (run : ∀ p : Char → Bool, p = isNameChar ∨ p = (!endsLine ·) →
      (more ++ tail).takeWhile p = more →
      (more ++ tail').takeWhile p = more ∧ (more ++ tail').dropWhile p = tail')
    (string : char = '\x22' → first char (more ++ tail') = (chunk, tail')) :
    first char (more ++ tail') = (chunk, tail') := by
  by_cases quote : char = '\x22'
  · exact string quote
  unfold first at cut ⊢
  split at cut
  · next comment =>
    obtain ⟨rfl, -⟩ := Prod.mk.inj cut
    have taken := (List.cons.inj spelled).2
    obtain ⟨taken', dropped'⟩ := run _ (Or.inr rfl) taken
    rw [if_pos comment, taken, taken', dropped']
  next noComment =>
  simp only [quote, noComment, ↓reduceIte] at cut ⊢
  split at cut
  · next dollar =>
    obtain ⟨rfl, -⟩ := Prod.mk.inj cut
    have taken := (List.cons.inj spelled).2
    obtain ⟨taken', dropped'⟩ := run _ (Or.inl rfl) taken
    rw [if_pos dollar, taken, taken', dropped']
  next noDollar =>
  rw [if_neg noDollar]
  split at cut
  · next letter =>
    obtain ⟨rfl, -⟩ := Prod.mk.inj cut
    have taken := (List.cons.inj spelled).2
    obtain ⟨taken', dropped'⟩ := run _ (Or.inl rfl) taken
    rw [if_pos letter, taken, taken', dropped']
  next noLetter =>
  rw [if_neg noLetter]
  split at cut
  · next blank =>
    obtain ⟨rfl, -⟩ := Prod.mk.inj cut
    obtain rfl : [] = more := (List.cons.inj spelled).2
    rw [if_pos blank]
    rfl
  · next mark =>
    obtain ⟨rfl, -⟩ := Prod.mk.inj cut
    obtain rfl : [] = more := (List.cons.inj spelled).2
    rw [if_neg mark]
    rfl

private theorem first_edge {char : Char} {more : List Char} {chunk : Chunk}
    (spelled : chunk.text = char :: more) (cut : first char (more ++ tail) = (chunk, tail)) :
    first char (more ++ tail') = (chunk, tail') := by
  have heads : ∀ first ∈ tail.head?, ∀ other ∈ tail'.head?,
      isNameChar first = isNameChar other ∧ endsLine first = endsLine other := by
    cases edge with
    | none => simp
    | some name line quote => simpa using ⟨name, line⟩
  refine first_ends spelled cut (fun p kind taken => ?_) ?_
  · refine run_edge edge taken fun first head other head' => ?_
    obtain ⟨name, line⟩ := heads first head other head'
    rcases kind with rfl | rfl
    · exact name
    · exact congrArg (!·) line
  · rintro rfl
    unfold first at cut ⊢
    simp only [Char.reduceEq, ↓reduceIte] at cut ⊢
    split at cut
    · next inner whole =>
      obtain ⟨rfl, behind⟩ := Prod.mk.inj cut
      obtain rfl : '\x22' :: '\x22' :: (blockRest inner).1 = more := (List.cons.inj spelled).2
      have again := blockRest_edge edge (Prod.ext rfl behind)
      simp only [List.cons_append, again]
    · next single =>
      obtain ⟨rfl, behind⟩ := Prod.mk.inj cut
      have taken : (stringRest (more ++ tail)).1 = more := (List.cons.inj spelled).2
      have cut' : stringRest (more ++ tail) = (more, tail) := Prod.ext taken behind
      have again := stringRest_edge edge cut'
      split
      · next inner whole => exact absurd whole (single_edge edge single cut' inner)
      · rw [again, cut']

/-- A chunk stays the same behind another text that ends it alike. -/
theorem follows_edge {chunk : Chunk} (follows : chunk.Follows tail) : chunk.Follows tail' := by
  obtain ⟨char, more, spelled, cut⟩ := follows_iff.mp follows
  exact follows_iff.mpr ⟨char, more, spelled, first_edge edge spelled cut⟩

end

/-- Chunks that their own text is cut into. -/
def Chunked (chunks : List Chunk) : Prop := ofText (textOf chunks) = chunks

theorem chunked_ofText (text : List Char) : Chunked (ofText text) := by
  rw [Chunked, textOf_ofText]

theorem chunked_cons {chunk : Chunk} {chunks : List Chunk} :
    Chunked (chunk :: chunks) ↔ chunk.Follows (textOf chunks) ∧ Chunked chunks := by
  constructor
  · intro chunked
    have cut : ofText (chunk.text ++ textOf chunks) = chunk :: chunks := chunked
    have behind : Chunked chunks := by
      cases whole : chunk.text ++ textOf chunks with
      | nil => simp [whole] at cut
      | cons char rest =>
        rw [whole, ofText] at cut
        rw [← (List.cons.inj cut).2]
        exact chunked_ofText _
    refine ⟨?_, behind⟩
    rw [Follows, behind, cut]
  · rintro ⟨follows, chunked⟩
    rw [Chunked, textOf_cons, follows, chunked]

theorem Chunked.suffix {left right : List Chunk} (chunked : Chunked (left ++ right)) :
    Chunked right := by
  induction left with
  | nil => exact chunked
  | cons chunk left ih => exact ih (chunked_cons.mp chunked).2

/-- Other chunks may stand behind chunks, if their text ends alike what is before it. -/
theorem Chunked.swap {left right right' : List Chunk} (chunked : Chunked (left ++ right))
    (chunked' : Chunked right') (edge : Edge (textOf right) (textOf right')) :
    Chunked (left ++ right') := by
  induction left with
  | nil => exact chunked'
  | cons chunk left ih =>
    rw [List.cons_append, chunked_cons] at chunked ⊢
    refine ⟨follows_edge ?_ chunked.1, ih chunked.2⟩
    rw [textOf_append, textOf_append]
    exact edge.append _

/-- A mark is a chunk whatever follows it. -/
theorem mark_follows {char : Char} (mark : isMark char = true) (tail : List Char) :
    (Chunk.mark char).Follows tail :=
  ofText_mark mark

/-- A name is a chunk before any text that does not go on with it. -/
theorem name_follows {text tail tail' : List Char} (follows : (Chunk.name text).Follows tail)
    (ends : ∀ char ∈ tail'.head?, isNameChar char = false) : (Chunk.name text).Follows tail' := by
  obtain ⟨char, more, spelled, cut⟩ := follows_iff.mp follows
  obtain rfl : text = char :: more := spelled
  have named : isNameStart char = true ∧ (more ++ tail).takeWhile isNameChar = more := by
    unfold first at cut
    repeat' split at cut
    all_goals try cases (Prod.mk.inj cut).1
    next letter => exact ⟨letter, (List.cons.inj (Chunk.name.inj (Prod.mk.inj cut).1)).2⟩
  obtain ⟨taken, dropped⟩ := run_stops (run_taken named.2).1 ends
  have whole : (Chunk.name (char :: more)).text ++ tail' = char :: (more ++ tail') := rfl
  rw [Follows, whole, ofText_name named.1, taken, dropped]

/-- A character that is blanked out is a chunk whatever follows it. -/
theorem ignored_follows {char : Char} (blank : isIgnored char = true) (tail : List Char) :
    (Chunk.ignored char).Follows tail :=
  ofText_ignored blank

/-- A chunk that ends with the text ends with the line, unless it is a string. -/
private theorem follows_line {chunk : Chunk} (ends : chunk.Follows [])
    (other : ∀ text, chunk ≠ .string text) (tail : List Char) : chunk.Follows ('\n' :: tail) := by
  obtain ⟨char, more, spelled, cut⟩ := follows_iff.mp ends
  refine follows_iff.mpr ⟨char, more, spelled, first_ends spelled cut ?_ ?_⟩
  · rintro p kind taken
    refine run_stops (run_taken taken).1 ?_
    rintro _ ⟨⟩
    rcases kind with rfl | rfl <;> decide
  · rintro rfl
    unfold first at cut
    simp only [Char.reduceEq, ↓reduceIte] at cut
    split at cut <;> exact absurd (Prod.mk.inj cut).1.symm (other _)

/-- A text on a new line is cut as it is alone, if the text before it does not end in a string. -/
theorem ofText_line {first : List Char} (last : ∀ text, .string text ∉ (ofText first).getLast?)
    (second : List Char) :
    ofText (first ++ '\n' :: second) = ofText first ++ .ignored '\n' :: ofText second := by
  have behind : Chunked (.ignored '\n' :: ofText second) :=
    chunked_cons.mpr ⟨ignored_follows (by decide) _, chunked_ofText second⟩
  have whole : Chunked (ofText first ++ .ignored '\n' :: ofText second) := by
    have chunked := chunked_ofText first
    generalize ofText first = chunks at last chunked
    rcases List.eq_nil_or_concat chunks with rfl | ⟨front, chunk, rfl⟩
    · exact behind
    · rw [List.concat_eq_append] at last chunked ⊢
      rw [List.append_assoc]
      obtain ⟨follows, -⟩ := chunked_cons.mp chunked.suffix
      obtain ⟨char, more, spelled, -⟩ := follows_iff.mp follows
      have follows' := follows_line follows (fun text same => last text (by simp [same]))
        (textOf (ofText second))
      refine chunked.swap (chunked_cons.mpr ⟨follows', behind⟩) (Edge.head ?_)
      simp [spelled]
  rw [Chunked, textOf_append, textOf_cons, textOf_ofText, textOf_ofText] at whole
  exact whole

end Chunk
end QueryStore
