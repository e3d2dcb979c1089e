import QueryStore.Proofs.Fragment.Chunks
import QueryStore.Proofs.Token.Cuts

/-! The tokens of a text beside its chunks (`tokens_aligned`). Names and punctuators of one
character are seen by both at the same offsets; of the other tokens it is only known that they
bring no brackets into the chunks. So brackets are counted alike wherever a text is read to its
end and its strings hold no carriage return. -/
namespace QueryStore
open Text

/-- Chunks beside tokens, from a byte offset on. In a blurred part the chunks do not follow the
tokens one by one. -/
inductive Aligned : Nat → List Token → List Chunk → Prop
  | done {offset : Nat} : Aligned offset [] []
  | gap {offset : Nat} {chunk : Chunk} {tokens : List Token} {chunks : List Chunk}
    (blank : chunk.isGap = true)
    (behind : Aligned (offset + byteLength chunk.text) tokens chunks) :
    Aligned offset tokens (chunk :: chunks)
  | name {offset : Nat} {text : List Char} {token : Token} {tokens : List Token}
    {chunks : List Chunk} (named : token.isName = true) (spelled : token.text.toList = text)
    (begins : token.place.offset = offset)
    (behind : Aligned (offset + byteLength text) tokens chunks) :
    Aligned offset (token :: tokens) (.name text :: chunks)
  | mark {offset : Nat} {char : Char} {token : Token} {tokens : List Token} {chunks : List Chunk}
    (mark : token.kind = .punctuator) (spelled : token.text.toList = [char])
    (begins : token.place.offset = offset)
    (behind : Aligned (offset + char.utf8Size) tokens chunks) :
    Aligned offset (token :: tokens) (.mark char :: chunks)
  | blurred {offset : Nat} {first : Token} {run tokens : List Token} {part chunks : List Chunk}
    (noName : first.isName = false) (noSign : first.isPunctuator "@" = false)
    (bare : bracketsOf (first :: run) = []) (bare' : Chunk.bracketsOf part = [])
    (behind : Aligned (offset + byteLength (Chunk.textOf part)) tokens chunks) :
    Aligned offset (first :: (run ++ tokens)) (part ++ chunks)

/-- A single token may be blurred. -/
theorem Aligned.obscure {offset : Nat} {token : Token} {tokens : List Token}
    {part chunks : List Chunk} (noName : token.isName = false)
    (noSign : token.isPunctuator "@" = false) (bare : token.brackets = [])
    (bare' : Chunk.bracketsOf part = [])
    (behind : Aligned (offset + byteLength (Chunk.textOf part)) tokens chunks) :
    Aligned offset (token :: tokens) (part ++ chunks) :=
  @Aligned.blurred offset token [] tokens part chunks noName noSign (by simp [bare]) bare' behind

/-- What a dollar sign may leave of the chunks when it takes the name behind it along. -/
def Blurs (offset : Nat) (tokens : List Token) (chunks : List Chunk) : Prop :=
  ∃ run rest part others, tokens = run ++ rest ∧ chunks = part ++ others ∧
    bracketsOf run = [] ∧ Chunk.bracketsOf part = [] ∧
    Aligned (offset + byteLength (Chunk.textOf part)) rest others

theorem Aligned.gaps {offset : Nat} {tokens : List Token} {gap chunks : List Chunk}
    (blank : gap.all Chunk.isGap = true)
    (behind : Aligned (offset + byteLength (Chunk.textOf gap)) tokens chunks) :
    Aligned offset tokens (gap ++ chunks) := by
  induction gap generalizing offset with
  | nil => exact behind
  | cons chunk gap ih =>
    simp only [List.all_cons, Bool.and_eq_true] at blank
    refine .gap blank.1 (ih blank.2 ?_)
    rwa [Chunk.textOf_cons, byteLength_append, ← Nat.add_assoc] at behind

/-- Tokens are beside the chunks of a text, whether or not a name before the text goes on in it. -/
def Beside (offset : Nat) (tokens : List Token) (text : List Char) : Prop :=
  Aligned offset tokens (Chunk.ofText text) ∧
    Blurs (offset + byteLength (text.takeWhile isNameChar)) tokens
      (Chunk.ofText (text.dropWhile isNameChar))

/-- No name goes on in a text that does not begin with a character of one. -/
theorem Aligned.beside {offset : Nat} {tokens : List Token} {text : List Char}
    (aligned : Aligned offset tokens (Chunk.ofText text))
    (ends : ∀ char ∈ text.head?, isNameChar char = false) : Beside offset tokens text := by
  have stays : text.takeWhile isNameChar = [] ∧ text.dropWhile isNameChar = text := by
    cases text with
    | nil => exact ⟨rfl, rfl⟩
    | cons char text => simp [ends char rfl]
  refine ⟨aligned, ?_⟩
  rw [stays.1, stays.2]
  exact ⟨[], tokens, [], _, rfl, rfl, rfl, rfl, aligned⟩

/-- Strings in which no carriage return stands. -/
def Calm (tokens : List Token) : Prop :=
  ∀ token ∈ tokens, token.kind = .stringValue → '\r' ∉ token.text.toList

instance (tokens : List Token) : Decidable (Calm tokens) := List.decidableBAll _ tokens

theorem Lexeme.token_text (read : Lexeme) (start : Place) :
    (read.token start).text.toList = read.text := String.toList_ofList

theorem Lexeme.token_bare {read : Lexeme} (bare : read.text.filter isBracket = [])
    (start : Place) : (read.token start).brackets = [] := by
  unfold Token.brackets
  rw [Lexeme.token_text, bare, ite_self]

/-- What ends a number ends a name as well. -/
theorem endsNumber_ends_name {char : Char} (ends : endsNumber char = true) :
    isNameChar char = false := by
  have all : " \n\r\t,#!$:=@|&()[]\x7b\x7d".toList.all (!isNameChar ·) = true := by decide
  simpa using List.all_eq_true.mp all char (List.contains_iff_mem.mp ends)

/-- A number is cut into chunks without brackets, and so is what a name before it leaves of it. -/
private theorem number_chunks {first : Char} {rest : List Char} {kind : TokenKind}
    (number : numberKind (first :: rest.takeWhile (!endsNumber ·)) = .ok kind) :
    (∃ part : List Chunk, Chunk.bracketsOf part = [] ∧
      Chunk.ofText (first :: rest) = part ++ Chunk.ofText (rest.dropWhile (!endsNumber ·)) ∧
      Chunk.textOf part = first :: rest.takeWhile (!endsNumber ·)) ∧
    ∃ part : List Chunk, Chunk.bracketsOf part = [] ∧
      Chunk.ofText ((first :: rest).dropWhile isNameChar) =
        part ++ Chunk.ofText (rest.dropWhile (!endsNumber ·)) ∧
      (first :: rest).takeWhile isNameChar ++ Chunk.textOf part =
        first :: rest.takeWhile (!endsNumber ·) := by
  have whole : first :: rest =
      (first :: rest.takeWhile (!endsNumber ·)) ++ rest.dropWhile (!endsNumber ·) := by simp
  have ends : ∀ char ∈ (rest.dropWhile (!endsNumber ·)).head?, isNameChar char = false := by
    intro char head
    have stop := List.head?_dropWhile_not (!endsNumber ·) rest
    rw [Option.mem_def.mp head] at stop
    exact endsNumber_ends_name (by simpa using stop)
  obtain ⟨⟨part, bare, cut⟩, part', bare', cut'⟩ :=
    Chunk.numeric_chunks (Chunk.numberKind_numeric number) ends
  rw [← whole] at cut cut'
  refine ⟨⟨part, bare, cut, ?_⟩, part', bare', cut', ?_⟩
  · have split := congrArg Chunk.textOf cut
    rw [Chunk.textOf_append, Chunk.textOf_ofText, Chunk.textOf_ofText, whole] at split
    exact (List.append_cancel_right split).symm
  · have split := congrArg Chunk.textOf cut'
    rw [Chunk.textOf_append, Chunk.textOf_ofText, Chunk.textOf_ofText] at split
    have joined := List.takeWhile_append_dropWhile (p := isNameChar) (l := first :: rest)
    rw [split, ← List.append_assoc] at joined
    exact List.append_cancel_right (joined.trans whole)

section
variable {first : Char} {rest : List Char} {start : Place} {tokens : List Token}

/-- A punctuator of one character is a mark, but a dollar sign takes a name behind it along. -/
private theorem mark_beside (mark : isPunctuator first = true)
    (behind : Beside (start.offset + byteLength [first]) tokens rest) :
    Beside start.offset (Lexeme.token ⟨.punctuator, [first], rest⟩ start :: tokens)
      (first :: rest) := by
  have letter : isNameChar first = false := by
    have all : "()[]\x7b\x7d!$:=@|&".toList.all (!isNameChar ·) = true := by decide
    simpa using List.all_eq_true.mp all first (List.contains_iff_mem.mp mark)
  refine Aligned.beside ?_ (by simpa using letter)
  by_cases dollar : first = '$'
  · subst dollar
    obtain ⟨run, others, part, chunks, rfl, whole, bare, bare', later⟩ := behind.2
    have size : '$'.utf8Size = 1 := rfl
    have noBracket : ['$'].filter isBracket = [] := by decide
    rw [Chunk.ofText_dollar, whole]
    refine @Aligned.blurred _ _ run _ (.dollar ('$' :: rest.takeWhile isNameChar) :: part) _
      rfl rfl ?_ bare' ?_
    · rw [bracketsOf_cons, bare, Lexeme.token_bare noBracket start]
      rfl
    · simpa [Chunk.text, byteLength, size, Nat.add_assoc] using later
  · rw [Chunk.ofText_mark (Chunk.punctuator_mark mark dollar)]
    exact .mark rfl (Lexeme.token_text _ start) rfl behind.1

/-- A number is blurred, and so is what a name before it leaves of it. -/
private theorem number_beside {kind : TokenKind}
    (number : numberKind (first :: rest.takeWhile (!endsNumber ·)) = .ok kind)
    (behind : Aligned (start.offset + byteLength (first :: rest.takeWhile (!endsNumber ·))) tokens
      (Chunk.ofText (rest.dropWhile (!endsNumber ·)))) :
    Beside start.offset (Lexeme.token ⟨kind, first :: rest.takeWhile (!endsNumber ·),
      rest.dropWhile (!endsNumber ·)⟩ start :: tokens) (first :: rest) := by
  obtain ⟨⟨part, bare, cut, text⟩, part', bare', cut', text'⟩ := number_chunks number
  have noName : (Lexeme.token ⟨kind, first :: rest.takeWhile (!endsNumber ·),
      rest.dropWhile (!endsNumber ·)⟩ start).isName = false := by
    rcases numberKind_kind number with rfl | rfl <;> exact rfl
  have noMark : kind ≠ .punctuator := by
    rcases numberKind_kind number with rfl | rfl <;> decide
  refine ⟨?_, [_], tokens, part', _, rfl, cut', ?_, bare', ?_⟩
  · rw [cut]
    refine .obscure noName ?_ (Token.brackets_of_kind noMark) bare (by rwa [text])
    simp [Token.isPunctuator, Lexeme.token, noMark]
  · rw [bracketsOf_cons, Token.brackets_of_kind noMark]
    rfl
  · rwa [Nat.add_assoc, ← byteLength_append, text']

/-- A token is beside its chunks if what follows it is. -/
private theorem lexeme_beside {read : Lexeme} (lexes : Lexes first rest read)
    (calm : read.kind = .stringValue → '\r' ∉ read.text)
    (behind : Beside (start.offset + byteLength read.text) tokens read.rest) :
    Beside start.offset (read.token start :: tokens) (first :: rest) := by
  cases lexes with
  | mark mark => exact mark_beside mark behind
  | dots dot whole =>
    subst dot whole
    refine Aligned.beside ?_ (by rintro _ ⟨⟩; decide)
    have point : Chunk.isMark '.' = true := by decide
    have noBracket : ['.', '.', '.'].filter isBracket = [] := by decide
    rw [Chunk.ofText_mark point, Chunk.ofText_mark point, Chunk.ofText_mark point]
    exact @Aligned.obscure _ _ _ [.mark '.', .mark '.', .mark '.'] _ rfl rfl
      (Lexeme.token_bare noBracket start) rfl behind.1
  | name noMark noDot letter =>
    have goes : isNameChar first = true := by simp [isNameChar, letter]
    refine ⟨?_, [_], tokens, [], _, rfl, rfl, rfl, rfl, ?_⟩
    · rw [Chunk.ofText_name letter]
      exact .name rfl (Lexeme.token_text _ start) rfl behind.1
    · simpa [goes, byteLength] using behind.1
  | number _ _ _ _ number => exact number_beside number behind.1
  | block quote opens closed =>
    subst quote opens
    refine Aligned.beside ?_ (by rintro _ ⟨⟩; decide)
    rw [Chunk.block_chunk closed]
    exact @Aligned.obscure _ _ _ [.string _] _ rfl rfl rfl rfl
      (by simpa [Chunk.text] using behind.1)
  | string quote single closed =>
    subst quote
    refine Aligned.beside ?_ (by rintro _ ⟨⟩; decide)
    have calm' := calm rfl
    rw [Chunk.string_chunk single closed fun held => calm' (List.mem_cons_of_mem _ held)]
    exact @Aligned.obscure _ _ _ [.string _] _ rfl rfl rfl rfl
      (by simpa [Chunk.text] using behind.1)

/-- Tokens are beside the chunks of a text if they are behind what stands before the first. -/
private theorem gap_beside {place : Place} {text : List Char}
    (skipped : skipIgnored false place text = (start, rest))
    (here : Beside start.offset tokens rest) : Beside place.offset tokens text := by
  obtain ⟨gap, blank, cut⟩ := Chunk.gap_chunks skipped
  have whole := congrArg Chunk.textOf cut
  rw [Chunk.textOf_append, Chunk.textOf_ofText, Chunk.textOf_ofText] at whole
  have offset := skip_bytes skipped
  rw [whole, byteLength_append] at offset
  have offset' : start.offset = place.offset + byteLength (Chunk.textOf gap) := by omega
  cases gap with
  | nil =>
    obtain rfl : text = rest := whole
    rw [Chunk.textOf_nil, byteLength, Nat.add_zero] at offset'
    rwa [offset'] at here
  | cons chunk gap =>
    have aligned : Aligned place.offset tokens (Chunk.ofText text) := by
      rw [cut]
      exact .gaps blank (offset' ▸ here.1)
    refine aligned.beside ?_
    rintro char head
    obtain ⟨others, rfl⟩ := List.head?_eq_some_iff.mp (Option.mem_def.mp head)
    simp only [List.all_cons, Bool.and_eq_true] at blank
    exact Chunk.gap_head cut blank.1

end

/-- The tokens of a text are beside its chunks. -/
private theorem stream_beside {budget : Nat} {place : Place} {text : List Char}
    (ended : (tokensFrom budget place text).ending = .endOfInput)
    (calm : Calm (tokensFrom budget place text).tokens) :
    Beside place.offset (tokensFrom budget place text).tokens text := by
  induction budget, place, text using stream_induction with
  | ended budget place text stop =>
    generalize tokensFrom budget place text = stream at stop ended
    cases stop with
    | exhausted skipped =>
      refine gap_beside skipped (Aligned.beside ?_ (by simp))
      rw [Chunk.ofText_nil]
      exact .done
    | unreadable skipped failed => cases ended
    | tooDeep skipped found spent => cases ended
  | step budget place text start first rest read remaining reads ih =>
    rw [tokens_read reads] at ended calm ⊢
    obtain ⟨here, later⟩ := List.forall_mem_cons.mp calm
    have behind := ih ended later
    rw [Place.past_offset] at behind
    refine gap_beside reads.skipped (lexeme_beside (lexeme_iff.mp reads.found) ?_ behind)
    simpa [Lexeme.token] using here

/-- The tokens of a text that can be read to its end are beside its chunks, if no carriage
return stands in a string. -/
theorem tokens_aligned {budget : Nat} {place : Place} {text : List Char}
    (ended : (tokensFrom budget place text).ending = .endOfInput)
    (calm : Calm (tokensFrom budget place text).tokens) :
    Aligned place.offset (tokensFrom budget place text).tokens (Chunk.ofText text) :=
  (stream_beside ended calm).1

section
variable {offset : Nat} {token : Token} {tokens : List Token} {chunks : List Chunk} {char : Char}

theorem Token.punctuator_spelled {text : String} (marked : token.isPunctuator text = true) :
    token.kind = .punctuator ∧ token.text.toList = text.toList := by
  simp only [Token.isPunctuator, Bool.and_eq_true, decide_eq_true_eq] at marked
  exact ⟨marked.1, by rw [marked.2]⟩

theorem Token.bracket_spelled (mark : token.kind = .punctuator) (spelled : token.text.toList = [char])
    (bracket : isBracket char = true) : token.brackets = [char] := by
  rw [Token.brackets, if_pos mark, spelled, List.filter_cons_of_pos bracket, List.filter_nil]

/-- Behind the last token there are only gaps. -/
theorem Aligned.behind_last (aligned : Aligned offset [] chunks) : chunks.all Chunk.isGap = true := by
  generalize none : ([] : List Token) = tokens at aligned
  induction aligned with
  | done => rfl
  | gap blank _ ih => rw [List.all_cons, blank, ih none]; rfl
  | name | mark | blurred => cases none

/-- A name is a chunk, perhaps with a gap before it. -/
theorem Aligned.at_name (aligned : Aligned offset (token :: tokens) chunks)
    (named : token.isName = true) :
    ∃ gap rest, chunks = gap ++ .name token.text.toList :: rest ∧
      gap.all Chunk.isGap = true ∧ token.place.offset = offset + byteLength (Chunk.textOf gap) ∧
      Aligned (token.place.offset + byteLength token.text.toList) tokens rest := by
  generalize whole : token :: tokens = all at aligned
  induction aligned with
  | done => cases whole
  | gap blank _ ih =>
    obtain ⟨gap, rest, rfl, blank', place, later⟩ := ih whole
    refine ⟨_ :: gap, rest, rfl, by rw [List.all_cons, blank, blank']; rfl, ?_, later⟩
    rw [place, Chunk.textOf_cons, byteLength_append, Nat.add_assoc]
  | name _ spelled begins behind =>
    cases whole
    subst spelled begins
    exact ⟨[], _, rfl, rfl, rfl, behind⟩
  | mark mark =>
    cases whole
    simp [Token.isName, mark] at named
  | blurred noName =>
    cases whole
    rw [named] at noName
    cases noName

/-- A bracket or an at sign is a chunk, perhaps with a gap before it. -/
theorem Aligned.at_mark (aligned : Aligned offset (token :: tokens) chunks)
    (mark : token.kind = .punctuator) (spelled : token.text.toList = [char])
    (seen : char = '@' ∨ isBracket char = true) :
    ∃ gap rest, chunks = gap ++ .mark char :: rest ∧ gap.all Chunk.isGap = true ∧
      Aligned (offset + byteLength (Chunk.textOf gap ++ [char])) tokens rest := by
  generalize whole : token :: tokens = all at aligned
  induction aligned with
  | done => cases whole
  | gap blank _ ih =>
    obtain ⟨gap, rest, rfl, blank', later⟩ := ih whole
    refine ⟨_ :: gap, rest, rfl, by rw [List.all_cons, blank, blank']; rfl, ?_⟩
    rwa [Chunk.textOf_cons, List.append_assoc, byteLength_append, ← Nat.add_assoc]
  | name named =>
    cases whole
    simp [Token.isName, mark] at named
  | mark _ spelled' _ behind =>
    cases whole
    rw [spelled] at spelled'
    cases spelled'
    exact ⟨[], _, rfl, rfl, behind⟩
  | blurred noName noSign bare =>
    cases whole
    rcases seen with rfl | bracket
    · have text : token.text = "@" := String.toList_inj.mp spelled
      simp [Token.isPunctuator, mark, text] at noSign
    · rw [bracketsOf_cons, Token.bracket_spelled mark spelled bracket] at bare
      cases bare

/-- Chunks and tokens bring the same brackets up to a bracket, which both have at one offset. -/
def UpTo (char : Char) (token : Token) (tokens : List Token) (offset : Nat) (inner : List Token)
    (chunks : List Chunk) : Prop :=
  ∃ inside rest, chunks = inside ++ .mark char :: rest ∧
    Chunk.bracketsOf inside = bracketsOf inner ∧
    token.place.offset = offset + byteLength (Chunk.textOf inside) ∧
    Aligned (offset + byteLength (Chunk.textOf inside ++ [char])) tokens rest

/-- Before them may be chunks and tokens that bring the same brackets. -/
private theorem UpTo.behind {inner : List Token} (run : List Token) {part : List Chunk}
    (same : Chunk.bracketsOf part = bracketsOf run)
    (later : UpTo char token tokens (offset + byteLength (Chunk.textOf part)) inner chunks) :
    UpTo char token tokens offset (run ++ inner) (part ++ chunks) := by
  obtain ⟨inside, rest, rfl, same', place, aligned⟩ := later
  refine ⟨part ++ inside, rest, (List.append_assoc ..).symm, ?_, ?_, ?_⟩
  · rw [Chunk.bracketsOf_append, bracketsOf_append, same, same']
  · rw [place, Chunk.textOf_append, byteLength_append, Nat.add_assoc]
  · rwa [Chunk.textOf_append, List.append_assoc, byteLength_append, ← Nat.add_assoc]

private theorem UpTo.behind_chunk {inner : List Token} (run : List Token) {chunk : Chunk}
    (same : chunk.brackets = bracketsOf run)
    (later : UpTo char token tokens (offset + byteLength chunk.text) inner chunks) :
    UpTo char token tokens offset (run ++ inner) (chunk :: chunks) := by
  refine @UpTo.behind _ _ _ chunks _ inner run [chunk] ?_ ?_
  · rw [Chunk.bracketsOf_cons, same, Chunk.bracketsOf_nil, List.append_nil]
  · rwa [Chunk.textOf_cons, Chunk.textOf_nil, List.append_nil]

theorem Aligned.up_to {inner : List Token} (aligned : Aligned offset (inner ++ token :: tokens) chunks)
    (mark : token.kind = .punctuator) (spelled : token.text.toList = [char])
    (bracket : isBracket char = true) : UpTo char token tokens offset inner chunks := by
  generalize whole : inner ++ token :: tokens = all at aligned
  induction aligned generalizing inner with
  | done => simp at whole
  | @gap _ chunk _ _ blank _ ih =>
    have none : chunk.brackets = [] := by
      cases chunk with
      | mark => cases blank
      | _ => rfl
    exact UpTo.behind_chunk [] none (ih whole)
  | @name _ _ first _ _ named _ _ _ ih =>
    cases inner with
    | nil =>
      cases whole
      simp [Token.isName, mark] at named
    | cons _ inner =>
      cases whole
      refine UpTo.behind_chunk [first] ?_ (ih rfl)
      rw [bracketsOf_cons, Token.brackets_of_name named]
      rfl
  | @mark _ _ first _ _ mark' spelled' begins behind ih =>
    cases inner with
    | nil =>
      cases whole
      rw [spelled] at spelled'
      cases spelled'
      exact ⟨[], _, rfl, rfl, begins, behind⟩
    | cons _ inner =>
      cases whole
      refine UpTo.behind_chunk [first] ?_ (ih rfl)
      rw [bracketsOf_cons, Token.brackets, if_pos mark', spelled', bracketsOf_nil, List.append_nil]
      rfl
  | @blurred _ first run behind part _ _ _ bare bare' _ ih =>
    -- The bracket is not in the blurred part, so that this part is before it.
    have split : ∃ others, inner = (first :: run) ++ others ∧ behind = others ++ token :: tokens := by
      have whole' : inner ++ token :: tokens = (first :: run) ++ behind := whole
      rcases List.append_eq_append_iff.mp whole' with ⟨more, taken, left⟩ | found
      · cases more with
        | nil => exact ⟨[], by simpa using taken.symm, left.symm⟩
        | cons other more =>
          cases left
          rw [taken, bracketsOf_append, bracketsOf_cons,
            Token.bracket_spelled mark spelled bracket] at bare
          simp at bare
      · exact found
    obtain ⟨others, rfl, rfl⟩ := split
    exact UpTo.behind (first :: run) (bare'.trans bare.symm) (ih rfl)

end

end QueryStore
