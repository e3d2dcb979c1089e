import QueryStore.Proofs.Fragment.Attached

/-! What stands between braces is kept when lists of variables are cut out of a text. Lists begin
outside of all brackets, so that what is shown deeper in the text stands as it is in the source
(`Shows.kept`). Between braces that match, tokens stand deeper (`braces_kept`), and every part of
the text between such braces stands in the source behind as many characters (`KeptIn.part`). -/
namespace QueryStore
open Text Grammar

/-- Chunks that are shown inside of brackets stand in the source as they are, behind as many
characters. -/
theorem Shows.kept {left last right : Spot} {chunks shown : List Chunk} {found : List Piece}
    (shows' : Shows left chunks found shown last) (level : right.depth = left.depth)
    {earlier inside later : List Chunk} (split : shown = earlier ++ (inside ++ later))
    (deep : Deep (right.after earlier).depth (Chunk.bracketsOf inside)) :
    ∃ front back, Chunk.textOf chunks = front ++ (Chunk.textOf inside ++ back) ∧
      front.length = (Chunk.textOf earlier).length := by
  induction shows' generalizing right earlier inside with
  | done =>
    obtain ⟨rfl, rest⟩ := List.append_eq_nil_iff.mp split.symm
    obtain ⟨rfl, rfl⟩ := List.append_eq_nil_iff.mp rest
    exact ⟨[], [], rfl, rfl⟩
  | @keep spot last chunk chunks shown found shut later' ih =>
    have level' : (right.past chunk).depth = (spot.past chunk).depth := by simp [Spot.past, level]
    cases earlier with
    | nil =>
      cases inside with
      | nil => exact ⟨[], _, rfl, rfl⟩
      | cons first inside =>
        obtain ⟨rfl, split'⟩ := List.cons.inj split
        rw [Chunk.bracketsOf_cons] at deep
        obtain ⟨front, back, whole, none⟩ :=
          ih level' (show shown = [] ++ (inside ++ later) from split') deep.behind
        obtain rfl : front = [] := List.length_eq_zero_iff.mp none
        exact ⟨[], back, by simp [Chunk.textOf_cons, whole], rfl⟩
    | cons first earlier =>
      obtain ⟨rfl, split'⟩ := List.cons.inj split
      obtain ⟨front, back, whole, same⟩ := ih level' split' deep
      exact ⟨chunk.text ++ front, back, by simp [Chunk.textOf_cons, whole],
        by simp [Chunk.textOf_cons, same]⟩
  | @excise spot last keyword name chunks list rest shown found opens closed later' ih =>
    rcases List.append_eq_append_iff.mp split with ⟨more, rfl, split'⟩ | ⟨more, whole, -⟩
    · have blank := blanks_gap ('(' :: Chunk.textOf list)
      have level' : (right.after (blanks ('(' :: Chunk.textOf list))).depth = spot.depth := by
        rw [right.after_gap blank, level]
      rw [Spot.after_append] at deep
      obtain ⟨front, back, whole, same⟩ := ih level' split' deep
      refine ⟨('(' :: Chunk.textOf list) ++ front, back, ?_, ?_⟩
      · rw [textOf_list closed, whole, List.append_assoc]
      · simp [Chunk.textOf_append, same]
    · -- A list is cut out at the top, so that nothing is shown inside of its blanks.
      have blank : earlier.all Chunk.isGap = true := by
        have all := blanks_gap ('(' :: Chunk.textOf list)
        rw [whole, List.all_append, Bool.and_eq_true] at all
        exact all.1
      have top : spot.depth = ⟨0, 0⟩ := by
        by_contra deeper
        simp [Spot.opens?, Spot.heading?, deeper] at opens
      rw [right.after_gap blank, level, top] at deep
      exact absurd rfl deep.inside

/-- Chunks inside of brackets stand as they are in the source of a prepared text. -/
theorem prepared_kept {options : ParseOptions} {source : String} {text : List Char}
    {table : VariableTable} {earlier inside later : List Chunk}
    (prepared : Document.prepare options source = .ok (text, table))
    (split : Chunk.ofText text = earlier ++ (inside ++ later))
    (deep : Deep ((Spot.fresh 0).after earlier).depth (Chunk.bracketsOf inside)) :
    ∃ front back, source.toList = front ++ (Chunk.textOf inside ++ back) ∧
      Blanked front (Chunk.textOf earlier) := by
  have whole : text = Chunk.textOf earlier ++ (Chunk.textOf inside ++ Chunk.textOf later) := by
    rw [← Chunk.textOf_append, ← Chunk.textOf_append, ← split, Chunk.textOf_ofText]
  have stands : ∃ front back, source.toList = front ++ (Chunk.textOf inside ++ back) ∧
      front.length = (Chunk.textOf earlier).length := by
    obtain ⟨_ | _⟩ := options
    · cases prepared
      exact ⟨_, _, whole, rfl⟩
    · obtain ⟨found, cut, rfl, -⟩ := prepare_pieces.mp prepared
      obtain ⟨shown, last, shows'⟩ := (cuts_of_pieces cut).shows
      have chunked := (shows'.chunked (Chunk.chunked_ofText source.toList)).1
      rw [← shows'.text, chunked] at split
      obtain ⟨front, back, kept, same⟩ := shows'.kept rfl split deep
      exact ⟨front, back, (Chunk.textOf_ofText _).symm.trans kept, same⟩
  obtain ⟨front, back, kept, same⟩ := stands
  obtain ⟨front', back', kept', blanked, -⟩ := blanked_split (whole ▸ prepare_blanked prepared)
  obtain ⟨rfl, -⟩ := List.append_inj (kept.symm.trans kept') (same.trans blanked.length_eq.symm)
  exact ⟨front, back, kept, blanked⟩

/-- What stands between two offsets of a text stands in the source as well, behind a part that
stands blanked in the text. -/
structure KeptIn (source text : List Char) (start stop : Nat) where
  before : List Char
  shown : List Char
  inside : List Char
  after : List Char
  shownAfter : List Char
  whole : source = before ++ (inside ++ after)
  shownWhole : text = shown ++ (inside ++ shownAfter)
  blanked : Blanked before shown
  begins : start = byteLength shown
  ends : stop = byteLength (shown ++ inside)

/-- A part of what is kept is kept. -/
theorem KeptIn.part {source text front part behind : List Char} {start stop : Nat}
    (kept : KeptIn source text start stop) (whole : text = front ++ (part ++ behind))
    (begins : start ≤ byteLength front) (ends : byteLength (front ++ part) ≤ stop) :
    ∃ lead later, source = lead ++ (part ++ later) ∧ Blanked lead front := by
  obtain ⟨before, shown, inside, after, shownAfter, split, shownSplit, blanked, rfl, rfl⟩ := kept
  obtain ⟨more, rfl, rest⟩ := split_of_bytes (shownSplit.symm.trans whole) begins
  have rest' : (more ++ part) ++ behind = inside ++ shownAfter := by
    rw [rest, List.append_assoc]
  have bytes : byteLength (more ++ part) ≤ byteLength inside := by
    simp only [byteLength_append] at ends ⊢
    omega
  obtain ⟨others, rfl, -⟩ := split_of_bytes rest' bytes
  exact ⟨before ++ more, others ++ after, by simp [split],
    List.rel_append blanked (Blanked.refl more)⟩

section
variable {text : List Char} {front inner back : List Token} {opening closing : Token}
  (ended : (TokenStream.ofText text).ending = .endOfInput)
  (calm : Calm (TokenStream.ofText text).tokens)
  (split : (TokenStream.ofText text).tokens = front ++ opening :: (inner ++ closing :: back))
  (opens : opening.isPunctuator "\x7b" = true) (closes : closing.isPunctuator "\x7d" = true)
include ended calm split opens closes

/-- Braces among tokens are chunks, with the same brackets between them. -/
theorem braces_chunks : ∃ before inside after,
    Chunk.ofText text = (before ++ [.mark '\x7b']) ++ (inside ++ .mark '\x7d' :: after) ∧
      Chunk.bracketsOf inside = bracketsOf inner ∧
      opening.stop = byteLength (Chunk.textOf (before ++ [.mark '\x7b'])) ∧
      closing.place.offset =
        byteLength (Chunk.textOf (before ++ [.mark '\x7b']) ++ Chunk.textOf inside) := by
  have aligned : Aligned 0 _ (Chunk.ofText text) := tokens_aligned ended calm
  have split' : (tokensFrom nestingLimit .origin text).tokens =
      front ++ opening :: (inner ++ closing :: back) := split
  obtain ⟨mark, (spelled : opening.text.toList = ['\x7b'])⟩ := Token.punctuator_spelled opens
  obtain ⟨mark', (spelled' : closing.text.toList = ['\x7d'])⟩ := Token.punctuator_spelled closes
  rw [split'] at aligned
  obtain ⟨before, rest, chunks, -, begins, aligned'⟩ := aligned.up_to mark spelled (by decide)
  obtain ⟨inside, after, rfl, brackets, ends, -⟩ := aligned'.up_to mark' spelled' (by decide)
  have text' : Chunk.textOf (before ++ [.mark '\x7b']) = Chunk.textOf before ++ ['\x7b'] := by
    simp [Chunk.textOf_append, Chunk.text]
  refine ⟨before, inside, after, by simp [chunks], brackets, ?_, ?_⟩
  · rw [Token.stop, begins, spelled, text', byteLength_append, Nat.zero_add]
  · rw [ends, text', byteLength_append _ (Chunk.textOf inside), Nat.zero_add]

/-- What stands between braces that match stands as it is in the source. -/
theorem braces_kept {options : ParseOptions} {source : String} {table : VariableTable}
    (prepared : Document.prepare options source = .ok (text, table))
    (balanced : Balanced (bracketsOf inner)) :
    Nonempty (KeptIn source.toList text opening.stop closing.place.offset) := by
  obtain ⟨before, inside, after, chunks, brackets, begins, ends⟩ :=
    braces_chunks ended calm split opens closes
  have deep : Deep ((Spot.fresh 0).after (before ++ [.mark '\x7b'])).depth
      (Chunk.bracketsOf inside) := by
    have opened : ((Spot.fresh 0).after (before ++ [.mark '\x7b'])).depth ≠ ⟨0, 0⟩ := by
      have braced : (Chunk.mark '\x7b').brackets = ['\x7b'] := rfl
      simp [Spot.after_append, Spot.past, Depth.after, braced]
    rw [brackets, ← List.append_nil (bracketsOf inner)]
    exact balanced.deep opened
  obtain ⟨lead, later, whole, blanked⟩ := prepared_kept prepared chunks deep
  have shown : text = Chunk.textOf (before ++ [.mark '\x7b']) ++
      (Chunk.textOf inside ++ Chunk.textOf (.mark '\x7d' :: after)) := by
    rw [← Chunk.textOf_append, ← Chunk.textOf_append, ← chunks, Chunk.textOf_ofText]
  exact ⟨⟨lead, _, _, later, _, whole, shown, blanked, begins, ends⟩⟩

end

end QueryStore
