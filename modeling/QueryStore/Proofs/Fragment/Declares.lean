import QueryStore.Proofs.Fragment.Cutting
import QueryStore.Proofs.Fragment.Edges
import QueryStore.Proofs.Fragment.Aligned
import QueryStore.Proofs.Fragment.Regular
import QueryStore.Proofs.Token.Resume

/-! Texts that declare variables (`Declares`): behind the name of a query they are its list of
variables. Such a text is cut into one list as a whole (`Declares.chunks`), and behind the name of
another query it declares the same (`Declares.parse`). -/
namespace QueryStore
open Text Grammar Reader

/-- A text without tabs, carriage returns and byte-order marks. -/
def Unmarked (text : List Char) : Prop :=
  ∀ char ∈ text, char ≠ '\t' ∧ char ≠ '\r' ∧ char ≠ '\uFEFF'

instance (text : List Char) : Decidable (Unmarked text) := List.decidableBAll _ text

/-- A query with a text between its name and its selections. -/
def queryOf (list : List Char) : List Char := "query V".toList ++ list ++ " \x7b x \x7d".toList

/-- The operation that the query with a text is, if it is nothing else. -/
def queryOperation? (list : List Char) : Option Operation :=
  match Document.parse ⟨false⟩ (String.ofList (queryOf list)) with
  | .ok ⟨[.operation operation], _⟩ => some operation
  | _ => none

/-- The variables of the query with a text. -/
def declarations (list : List Char) : List VariableDefinition :=
  match queryOperation? list with
  | some operation => operation.variableDefinitions
  | none => []

/-- A text in parentheses with which a query is one operation without directives. The last
parenthesis is a token of the query, not a character in a comment. -/
structure Declares (list : List Char) : Prop where
  unmarked : Unmarked list
  opens : list.head? = some '('
  closes : list.getLast? = some ')'
  accepted : ∃ operation ∈ queryOperation? list, operation.directives = []
  spoken : ∃ token ∈ (TokenStream.ofText (queryOf list)).tokens,
    token.isPunctuator ")" = true ∧ token.stop = byteLength ("query V".toList ++ list)

instance (list : List Char) : Decidable (Declares list) :=
  decidable_of_iff (Unmarked list ∧ list.head? = some '(' ∧ list.getLast? = some ')' ∧
      (∃ operation ∈ queryOperation? list, operation.directives = []) ∧
      ∃ token ∈ (TokenStream.ofText (queryOf list)).tokens,
        token.isPunctuator ")" = true ∧ token.stop = byteLength ("query V".toList ++ list))
    ⟨fun ⟨unmarked, opens, closes, accepted, spoken⟩ => ⟨unmarked, opens, closes, accepted, spoken⟩,
      fun ⟨unmarked, opens, closes, accepted, spoken⟩ => ⟨unmarked, opens, closes, accepted, spoken⟩⟩

/-- A text that is a name. -/
private def Named (text : List Char) : Prop :=
  (text.head?.any isNameStart && text.all isNameChar) = true

private instance (text : List Char) : Decidable (Named text) := inferInstanceAs (Decidable (_ = true))

section
variable {budget : Nat} {place : Place} {char : Char} {text tail : List Char}

private theorem stops_at (other : isNameStart char = true ∨ isPunctuator char = true) :
    skipIgnored false place (char :: tail) = (place, char :: tail) := by
  rcases passes_or_stops place false char with ⟨inside, next, passes⟩ | ⟨-, -, stops⟩
  · have blank : isNameStart char = false ∧ isPunctuator char = false := by
      cases passes with
      | feed | tab | comment => decide
      | space blank => rcases blank with rfl | rfl <;> decide
      | unseen silent => rcases silent with rfl | rfl <;> decide
    simp [blank] at other
  · exact stops tail

/-- A text that begins with a name. -/
private theorem tokens_name (named : Named text)
    (ends : ∀ other ∈ tail.head?, isNameChar other = false) :
    tokensFrom budget place (text ++ tail) =
      (tokensFrom budget (place.past text) tail).cons ⟨.name, String.ofList text, place⟩ := by
  cases text with
  | nil => cases named
  | cons char more =>
    simp only [Named, List.head?_cons, Option.any_some, List.all_cons, Bool.and_eq_true,
      List.all_eq_true] at named
    obtain ⟨letter, -, goes⟩ := named
    have other : isPunctuator char = false ∧ char ≠ '.' := by
      have all : "()[]\x7b\x7d!$:=@|&".toList.all (!isNameStart ·) = true := by decide
      refine ⟨Bool.eq_false_iff.mpr fun mark => ?_, ?_⟩
      · have other := List.all_eq_true.mp all char (List.contains_iff_mem.mp mark)
        simp [letter] at other
      · rintro rfl
        cases letter
    have lexes : Lexes char (more ++ tail) _ := .name other.1 other.2 letter
    rw [(run_stops goes ends).1, (run_stops goes ends).2] at lexes
    have spent : budgetAfter budget (char :: more) = some budget := by
      unfold budgetAfter
      split <;> first | rfl | (next same => cases same; cases letter)
    exact tokens_read ⟨stops_at (Or.inl letter), lexeme_iff.mpr lexes, spent⟩

/-- A text that begins with a punctuator. -/
private theorem tokens_mark (mark : isPunctuator char = true) {remaining : Nat}
    (left : budgetAfter budget [char] = some remaining) :
    tokensFrom budget place (char :: tail) =
      (tokensFrom remaining (place.past [char]) tail).cons
        ⟨.punctuator, String.ofList [char], place⟩ :=
  tokens_read ⟨stops_at (Or.inr mark), lexeme_iff.mpr (.mark mark), left⟩

private theorem tokens_space : tokensFrom budget place (' ' :: tail) =
    tokensFrom budget (place.right 1 ' ') tail :=
  tokens_skipped (by simp [skipIgnored])

/-- The keyword and the name of a query. -/
private theorem query_tokens (named : Named text)
    (ends : ∀ other ∈ tail.head?, isNameChar other = false) :
    ∃ keyword name behind, keyword.isWord "query" = true ∧ name.isName = true ∧
      behind.offset = byteLength ("query ".toList ++ text) ∧
      TokenStream.ofText ("query ".toList ++ text ++ tail) =
        ((tokensFrom nestingLimit behind tail).cons name).cons keyword := by
  have word : Named "query".toList := by decide
  have whole : "query ".toList ++ text ++ tail = "query".toList ++ (' ' :: (text ++ tail)) := by
    simp
  rw [whole, TokenStream.ofText, tokens_name word (by simp [isNameChar, isNameStart]), tokens_space,
    tokens_name named ends]
  refine ⟨_, _, _, by decide, rfl, ?_, rfl⟩
  rw [Place.past_offset, byteLength_append]
  rfl

/-- A set of selections that is one name. -/
private theorem set_tokens (named : Named text) :
    (tokensFrom 0 place (" \x7b ".toList ++ text ++ " \x7d".toList)).ending ≠ .endOfInput ∧
    ∃ opening name closing, opening.isPunctuator "\x7b" = true ∧ name.isName = true ∧
      closing.isPunctuator "\x7d" = true ∧
      (tokensFrom (budget + 1) place (" \x7b ".toList ++ text ++ " \x7d".toList)).tokens =
        [opening, name, closing] ∧
      (tokensFrom (budget + 1) place (" \x7b ".toList ++ text ++ " \x7d".toList)).ending =
        .endOfInput := by
  have whole : " \x7b ".toList ++ text ++ " \x7d".toList =
      ' ' :: '\x7b' :: ' ' :: (text ++ ' ' :: '\x7d' :: []) := by
    simp
  have ended : ∀ place : Place, tokensFrom (budget + 1) place [] = ⟨[], .endOfInput, place.position⟩ :=
    fun place => tokens_ended (.exhausted rfl)
  rw [whole, tokens_space, tokens_space]
  refine ⟨?_, ?_⟩
  · rw [tokens_ended (.tooDeep (stops_at (Or.inr (by decide))) (lexeme_iff.mpr (.mark (by decide))) rfl)]
    simp
  · have left : budgetAfter (budget + 1) ['\x7b'] = some budget := rfl
    have left' : budgetAfter budget ['\x7d'] = some (budget + 1) := rfl
    rw [tokens_mark (by decide) left, tokens_space, tokens_name named (by rintro _ ⟨⟩; decide),
      tokens_space,
      tokens_mark (by decide) left', ended]
    exact ⟨_, _, _, rfl, rfl, rfl, rfl, rfl⟩

end

/-- A text that is a single definition. -/
private theorem definition_of_read {locator : Locator} {text : List Char} {found : Definition}
    (read : readDefinitions locator text = .ok [found]) :
    (TokenStream.ofText text).ending = .endOfInput ∧
      definition locator ((TokenStream.ofText text).tokens.length + 1)
        (TokenStream.ofText text).tokens = .ok (found, []) := by
  simp only [readDefinitions, readAll] at read
  split at read
  · cases read
  · next definitions all =>
    obtain ⟨⟨_, rest⟩, parsed, rfl⟩ := map_eq_ok.mp all
    split at read
    · next ended =>
      cases read
      refine ⟨ended, ?_⟩
      obtain ⟨first, middle, one, peeked⟩ := bind_ok.mp parsed
      obtain ⟨_, _, ⟨⟩, others⟩ := bind_ok.mp peeked
      cases middle with
      | nil =>
        cases others
        exact one
      | cons token middle =>
        -- Behind the definition there would be another one.
        obtain ⟨more, _, later, ⟨⟩⟩ := bind_ok.mp others
        have runs := definitions_stand (placedBy_locates locator _) (List.suffix_refl _) later
        generalize whole : token :: middle = tokens at runs
        cases runs
        cases whole
    · cases read

private theorem read_of_definition {locator : Locator} {text : List Char} {found : Definition}
    (ended : (TokenStream.ofText text).ending = .endOfInput)
    (read : definition locator ((TokenStream.ofText text).tokens.length + 1)
      (TokenStream.ofText text).tokens = .ok (found, [])) :
    readDefinitions locator text = .ok [found] := by
  have all : definitions locator ((TokenStream.ofText text).tokens.length + 1)
      ((TokenStream.ofText text).tokens.length + 1) (TokenStream.ofText text).tokens =
        .ok ([found], []) :=
    bind_ok.mpr ⟨found, [], read, bind_ok.mpr ⟨none, [], rfl, rfl⟩⟩
  simp only [readDefinitions, readAll, all, Except.map, ended]

section
variable {locator : Locator} {fuel : Nat} {keyword name : Token} {tokens rest : List Token}

/-- What is read of a query behind its keyword and its name. -/
private theorem query_reads {found : Definition} (worded : keyword.isWord "query" = true)
    (named : name.isName = true) :
    definition locator fuel (keyword :: name :: tokens) = .ok (found, rest) ↔
      ∃ declared middle annotations middle' set closing,
        variableDefinitions fuel tokens = .ok (declared, middle) ∧
        directives fuel middle = .ok (annotations, middle') ∧
        selectionSet locator fuel middle' = .ok ((set, closing), rest) ∧
        found = .operation ⟨.query, some name.text, declared, annotations, set,
          locator.node keyword closing⟩ := by
  simp only [Token.isWord, Bool.and_eq_true, decide_eq_true_eq] at worded
  have other : keyword.isPunctuator "\x7b" = false ∧ keyword.isWord "fragment" = false ∧
      keyword.isName = true := by
    simp [Token.isPunctuator, Token.isWord, Token.isName, worded]
  have label : Reader.when Token.isName Reader.name (name :: tokens) = .ok (some name, tokens) := by
    refine bind_ok.mpr ⟨true, name :: tokens, by simp [nextIs, named], ?_⟩
    exact bind_ok.mpr ⟨name, tokens, satisfying_ok.mpr ⟨rfl, named⟩, rfl⟩
  have means : operationKind? keyword.text = some .query := by rw [worded.2]; rfl
  constructor
  · intro read
    obtain ⟨_, _, ⟨⟩, peeked⟩ := bind_ok.mp read
    simp only [List.head?_cons, other, Bool.false_eq_true, ↓reduceIte, means] at peeked
    obtain ⟨_, _, ⟨⟩, behind⟩ := bind_ok.mp peeked
    obtain ⟨operation, _, begun, ⟨⟩⟩ := bind_ok.mp behind
    obtain ⟨_, _, labelled, declaring⟩ := bind_ok.mp begun
    rw [List.tail_cons, label] at labelled
    cases labelled
    obtain ⟨declared, middle, listed, annotating⟩ := bind_ok.mp declaring
    obtain ⟨annotations, middle', directed, selecting⟩ := bind_ok.mp annotating
    obtain ⟨⟨set, closing⟩, _, selected, ⟨⟩⟩ := bind_ok.mp selecting
    exact ⟨_, _, _, _, _, _, listed, directed, selected, rfl⟩
  · rintro ⟨declared, middle, annotations, middle', set, closing, listed, directed, selected, rfl⟩
    refine bind_ok.mpr ⟨_, _, rfl, ?_⟩
    simp only [List.head?_cons, other, Bool.false_eq_true, ↓reduceIte, means]
    refine bind_ok.mpr ⟨_, _, rfl, bind_ok.mpr ⟨_, _, bind_ok.mpr ⟨_, _, label, ?_⟩, rfl⟩⟩
    exact bind_ok.mpr ⟨_, _, listed, bind_ok.mpr ⟨_, _, directed, bind_ok.mpr ⟨_, _, selected, rfl⟩⟩⟩

private theorem directives_none (none : tokens.head?.any (Token.isPunctuator "@") = false) :
    directives (fuel + 1) tokens = .ok ([], tokens) :=
  bind_ok.mpr ⟨false, tokens, by rw [← none]; rfl, rfl⟩

/-- Without directives no token is taken. -/
private theorem directives_nil (read : directives fuel tokens = .ok ([], rest)) : tokens = rest := by
  cases fuel with
  | zero => cases tokens <;> cases read
  | succ fuel =>
    obtain ⟨_, _, ⟨⟩, asked⟩ := bind_ok.mp read
    split at asked
    · obtain ⟨first, _, one, others⟩ := bind_ok.mp asked
      obtain ⟨more, _, later, ⟨⟩⟩ := bind_ok.mp others
    · cases asked
      rfl

/-- One name in braces is a set of selections. -/
private theorem selectionSet_name {opening closing : Token}
    (opens : opening.isPunctuator "\x7b" = true) (named : name.isName = true)
    (closes : closing.isPunctuator "\x7d" = true) :
    ∃ set, selectionSet locator (fuel + 2) [opening, name, closing] = .ok (set, []) := by
  have closed : closing.kind = .punctuator ∧ closing.text = "\x7d" := by
    simpa [Token.isPunctuator] using closes
  have other : ∀ text : String, text ≠ "\x7d" → closing.isPunctuator text = false := by
    rintro text differ
    simp [Token.isPunctuator, closed.2, Ne.symm differ]
  have skipped : ∀ text : String, text ≠ "\x7d" → skip? text [closing] = .ok (false, [closing]) :=
    fun text differ => bind_ok.mpr ⟨false, [closing], by simp [nextIs, other text differ], rfl⟩
  have dots : name.isPunctuator "..." = false := by
    simp only [Token.isName, decide_eq_true_eq] at named
    simp [Token.isPunctuator, named]
  have one : selection locator (fuel + 1) (selectionSet locator (fuel + 1)) [name, closing] =
      .ok (.field ⟨none, name.text, [], [], none, none⟩, [closing]) := by
    refine bind_ok.mpr ⟨false, [name, closing], by simp [nextIs, dots], ?_⟩
    refine bind_ok.mpr ⟨name, [closing], satisfying_ok.mpr ⟨rfl, named⟩, ?_⟩
    refine bind_ok.mpr ⟨false, [closing], skipped _ (by decide), ?_⟩
    refine bind_ok.mpr ⟨none, [closing], rfl, ?_⟩
    refine bind_ok.mpr ⟨[], [closing], bind_ok.mpr ⟨false, _, skipped _ (by decide), rfl⟩, ?_⟩
    refine bind_ok.mpr ⟨[], [closing], directives_none (other _ (by decide)), ?_⟩
    refine bind_ok.mpr ⟨none, [closing], bind_ok.mpr ⟨false, _, ?_, rfl⟩, rfl⟩
    simp [nextIs, other]
  have closing' : untilClosing "\x7d" (selection locator (fuel + 1) (selectionSet locator (fuel + 1)))
      (fuel + 1) [closing] = .ok (([], closing), []) := by
    refine bind_ok.mpr ⟨true, [closing], by simp [nextIs, closes], ?_⟩
    exact bind_ok.mpr ⟨closing, [], satisfying_ok.mpr ⟨rfl, closes⟩, rfl⟩
  have listed : someUntilClosing "\x7d" (selection locator (fuel + 1)
      (selectionSet locator (fuel + 1))) (fuel + 1) [name, closing] = .ok (([_], closing), []) :=
    bind_ok.mpr ⟨_, _, one, bind_ok.mpr ⟨_, _, closing', rfl⟩⟩
  exact ⟨_, bind_ok.mpr ⟨opening, _, satisfying_ok.mpr ⟨rfl, opens⟩, bind_ok.mpr ⟨_, _, listed, rfl⟩⟩⟩

end

/-- Brackets that match do not end with one that opens. -/
private theorem Balanced.no_opening {brackets front : List Char} (balanced : Balanced brackets) :
    brackets ≠ front ++ ['\x7b'] := by
  rintro rfl
  have level := congrArg Depth.braces (balanced.level ⟨0, 0⟩)
  rw [List.foldl_append] at level
  simp [Depth.after] at level

/-- Parentheses and the braces behind them are told apart by one name in braces at the end. -/
private theorem parentheses_end {run below first inner inner' : List Token}
    {opening name closing : Token} (split : run ++ below = first ++ [opening, name, closing])
    (enclosed : Enclosed "(" ")" run inner) (braces : Enclosed "\x7b" "\x7d" below inner')
    (opens : opening.isPunctuator "\x7b" = true) (named : name.isName = true)
    (closes : closing.isPunctuator "\x7d" = true) :
    run = first ∧ below = [opening, name, closing] := by
  obtain ⟨⟨left, right, rfl, -, closes'⟩, -⟩ := enclosed
  obtain ⟨⟨left', right', rfl, opens', -⟩, inside⟩ := braces
  rcases List.append_eq_append_iff.mp split with ⟨more, rfl, taken⟩ | ⟨more, whole, taken⟩
  · cases more with
    | nil => exact ⟨by simp, taken⟩
    | cons token more =>
      have inner'' : inner' = more ++ [opening, name] := by
        have tails : inner' ++ [right'] = (more ++ [opening, name]) ++ [closing] := by
          simpa using (List.cons.inj taken).2
        exact (List.append_inj' tails rfl).1
      have brace : bracketsOf [opening, name] = ['\x7b'] := by
        rw [bracketsOf_cons, bracketsOf_cons, Token.brackets_of_punctuator opens,
          Token.brackets_of_name named]
        rfl
      rw [inner'', bracketsOf_append, brace] at inside
      exact absurd rfl inside.no_opening
  · rcases List.eq_nil_or_concat more with rfl | ⟨others, last, rfl⟩
    · exact ⟨by simpa using whole, by simpa using taken.symm⟩
    · -- The parenthesis that ends the run would be among the last three tokens.
      have same : last = right := by
        have ends := congrArg List.getLast? whole
        simpa [List.getLast?_append, List.getLast?_cons] using ends.symm
      have member : last ∈ [opening, name, closing] := by simp [taken]
      have other : ∀ token ∈ [opening, name, closing], token.isPunctuator ")" = false := by
        simp only [Token.isPunctuator, Token.isName, Bool.and_eq_true, decide_eq_true_eq] at *
        simp [opens, named, closes]
      rw [← same, other last member] at closes'
      cases closes'

/-- The query with a text that declares variables is an operation with the variables and without
directives. -/
private theorem Declares.reads {list : List Char} (declares : Declares list) :
    ∃ operation, declarations list = operation.variableDefinitions ∧ operation.directives = [] ∧
      (TokenStream.ofText (queryOf list)).ending = .endOfInput ∧
      definition (.ofPositions (String.ofList (queryOf list)))
        ((TokenStream.ofText (queryOf list)).tokens.length + 1)
        (TokenStream.ofText (queryOf list)).tokens = .ok (.operation operation, []) := by
  obtain ⟨operation, found, bare⟩ := declares.accepted
  have parsed : ∃ location, Document.parse ⟨false⟩ (String.ofList (queryOf list)) =
      .ok ⟨[.operation operation], location⟩ := by
    unfold queryOperation? at found
    split at found
    · next parsed =>
      cases found
      exact ⟨_, parsed⟩
    · cases found
  obtain ⟨location, parsed⟩ := parsed
  have read := read_of_parse parsed
  rw [String.toList_ofList] at read
  exact ⟨operation, by simp [declarations, Option.mem_def.mp found], bare, definition_of_read read⟩

/-- Where a text that declares variables stands in its query: behind the keyword and the name, and
before one name in braces. The parenthesis that ends the text is its last token. -/
private structure Spoken (list : List Char) where
  place : Place
  remaining : Nat
  keyword : Token
  name : Token
  closing : Token
  opening : Token
  single : Token
  final : Token
  worded : keyword.isWord "query" = true
  named : name.isName = true
  shuts : closing.isPunctuator ")" = true
  opens : opening.isPunctuator "\x7b" = true
  single_named : single.isName = true
  closes : final.isPunctuator "\x7d" = true
  tokens : (TokenStream.ofText (queryOf list)).tokens =
    keyword :: name :: ((tokensFrom nestingLimit place list).tokens ++ [opening, single, final])
  ended : (tokensFrom nestingLimit place list).ending = .endOfInput
  last : closing ∈ (tokensFrom nestingLimit place list).tokens.getLast?
  stop : closing.stop = place.offset + byteLength list
  resumes : Resumes nestingLimit place list closing (remaining + 1)

/-- Anything may follow a parenthesis. -/
private theorem Token.stops_parenthesis {closing : Token} (shuts : closing.isPunctuator ")" = true)
    (tail : List Char) : closing.Stops tail :=
  Or.inl ⟨')', by decide, (Token.punctuator_spelled shuts).1, (Token.punctuator_spelled shuts).2⟩

private theorem Declares.spoken_tokens {list : List Char} (declares : Declares list)
    (ended : (TokenStream.ofText (queryOf list)).ending = .endOfInput) : Nonempty (Spoken list) := by
  obtain ⟨closing, member, shuts, stop⟩ := declares.spoken
  have label : Named "V".toList := by decide
  have front : "query V".toList = "query ".toList ++ "V".toList := by decide
  have whole : queryOf list = "query ".toList ++ "V".toList ++ (list ++ " \x7b x \x7d".toList) :=
    (congrArg (· ++ list ++ " \x7b x \x7d".toList) front).trans (List.append_assoc ..)
  have free : ∀ char ∈ (list ++ " \x7b x \x7d".toList).head?, isNameChar char = false := by
    obtain ⟨others, rfl⟩ := List.head?_eq_some_iff.mp declares.opens
    rintro _ ⟨⟩
    decide
  obtain ⟨keyword, name, place, worded, named, start, stream⟩ := query_tokens label free
  rw [whole, stream] at ended member
  have marked := (Token.punctuator_spelled shuts).1
  have member' : closing ∈ (tokensFrom nestingLimit place (list ++ " \x7b x \x7d".toList)).tokens := by
    simp only [TokenStream.cons, List.mem_cons] at member
    rcases member with rfl | rfl | member
    · simp [Token.isWord, marked] at worded
    · simp [Token.isName, marked] at named
    · exact member
  have stop' : closing.stop = place.offset + byteLength list := by
    rw [stop, start, byteLength_append]
    rfl
  obtain ⟨ended', last, remaining, behind, -, -, tokens, ending, resumes⟩ :=
    tokens_behind member' (Token.stops_parenthesis shuts []) stop'
  have word : Named "x".toList := by decide
  have braces : " \x7b ".toList ++ "x".toList ++ " \x7d".toList = " \x7b x \x7d".toList := by
    decide
  have few := fun budget => @set_tokens budget behind _ word
  rw [braces] at few
  cases remaining with
  | zero => exact absurd (ending.symm.trans ended) (few 0).1
  | succ remaining =>
    obtain ⟨-, opening, single, final, opens, single', closes, three, -⟩ := few remaining
    refine ⟨⟨place, remaining, keyword, name, closing, opening, single, final, worded, named, shuts,
      opens, single', closes, ?_, ended', last, stop', resumes⟩⟩
    rw [whole, stream, TokenStream.cons, TokenStream.cons, tokens, three]

/-- The tokens of a text that declares variables are in parentheses, and its variables are read of
them. -/
private structure Listing (list : List Char) extends Spoken list where
  inner : List Token
  enclosed : Enclosed "(" ")" (tokensFrom nestingLimit place list).tokens inner
  declared : variableDefinitions ((tokensFrom nestingLimit place list).tokens.length + 6)
    ((tokensFrom nestingLimit place list).tokens ++ [opening, single, final]) =
      .ok (declarations list, [opening, single, final])

private theorem Declares.listing {list : List Char} (declares : Declares list) :
    Nonempty (Listing list) := by
  obtain ⟨operation, declared, bare, ended, defined⟩ := declares.reads
  obtain ⟨spoken⟩ := declares.spoken_tokens ended
  rw [spoken.tokens] at defined
  obtain ⟨definitions, middle, annotations, _, set, _, listed, directed, selected, same⟩ :=
    (query_reads spoken.worded spoken.named).mp defined
  cases same
  obtain rfl : annotations = [] := bare
  obtain rfl := directives_nil directed
  obtain ⟨run, split, either⟩ := variableDefinitions_enclosed listed
  obtain ⟨below, whole, stands, -⟩ := selectionSet_stands (placedBy_locates (.ofPositions _) _)
    _ _ _ (List.suffix_refl _) selected
  obtain ⟨inner', below'⟩ := stands.enclosed
  rw [List.append_nil] at whole
  subst whole
  rcases either with rfl | ⟨inner, enclosed⟩
  · -- The text begins with a parenthesis, and the selections with a brace.
    obtain ⟨⟨first, _, whole, opens, -⟩, -⟩ := below'
    have left : budgetAfter nestingLimit ['('] = some 49 := rfl
    obtain ⟨others, rfl⟩ := List.head?_eq_some_iff.mp declares.opens
    rw [List.nil_append, whole, tokens_mark (by decide) left] at split
    rw [← (List.cons.inj split).1] at opens
    simp [Token.isPunctuator] at opens
  · obtain ⟨rfl, rfl⟩ := parentheses_end split.symm enclosed below' spoken.opens
      spoken.single_named spoken.closes
    refine ⟨⟨spoken, inner, enclosed, ?_⟩⟩
    rw [declared]
    simpa using listed

/-- A text that declares variables is cut into one list: a parenthesis closes what its first
chunk opens, and nothing is behind it. -/
theorem Declares.chunks {list : List Char} (declares : Declares list) :
    ∃ inside, Chunk.ofText list = .mark '(' :: (inside ++ [.mark ')']) ∧
      Balanced (Chunk.bracketsOf inside) := by
  obtain ⟨listing⟩ := declares.listing
  have calm : Calm (tokensFrom nestingLimit listing.place list).tokens := by
    intro token member _ held
    obtain ⟨gap, behind, whole, -⟩ := token_within _ _ _ token member
    exact (declares.unmarked '\r' (by rw [whole]; simp [held])).2.1 rfl
  have aligned := tokens_aligned listing.ended calm
  obtain ⟨others, whole⟩ := List.head?_eq_some_iff.mp declares.opens
  have cut : Chunk.ofText list = .mark '(' :: Chunk.ofText others := by
    rw [whole, Chunk.ofText_mark (by decide)]
  have last := listing.last
  obtain ⟨⟨opening, closing, run, opens, closes⟩, balanced⟩ := listing.enclosed
  rw [run] at aligned last
  obtain rfl : closing = listing.closing := by simpa [List.getLast?_cons] using last
  have spelled : opening.text.toList = ['('] := (Token.punctuator_spelled opens).2
  obtain ⟨gap, rest, split, blank, later⟩ :=
    aligned.at_mark (Token.punctuator_spelled opens).1 spelled (Or.inr (by decide))
  obtain rfl : gap = [] := by
    cases gap with
    | nil => rfl
    | cons chunk gap =>
      rw [← (List.cons.inj (cut.symm.trans split)).1] at blank
      cases blank
  have spelled' : listing.closing.text.toList = [')'] := (Token.punctuator_spelled closes).2
  obtain ⟨inside, rest', rfl, same, place, -⟩ :=
    later.up_to (Token.punctuator_spelled closes).1 spelled' (by decide)
  refine ⟨inside, ?_, same ▸ balanced⟩
  -- The parenthesis ends where the text does.
  have stop := listing.stop
  have bytes := congrArg (fun chunks => byteLength (Chunk.textOf chunks)) split
  simp only [Chunk.textOf_ofText, Chunk.textOf_append, Chunk.textOf_cons, Chunk.textOf_nil,
    Chunk.text, byteLength_append, byteLength, List.nil_append] at bytes place
  rw [Token.stop, place, spelled'] at stop
  simp only [byteLength] at stop
  have none : Chunk.textOf rest' = [] := byteLength_eq_zero.mp (by omega)
  have chunked : Chunk.Chunked (Chunk.ofText list) := Chunk.chunked_ofText list
  rw [split] at chunked
  have behind : Chunk.Chunked rest' := by
    have whole' : [] ++ .mark '(' :: (inside ++ .mark ')' :: rest') =
        (.mark '(' :: inside ++ [.mark ')']) ++ rest' := by simp
    exact (whole' ▸ chunked).suffix
  rw [Chunk.Chunked, none, Chunk.ofText_nil] at behind
  rw [split, ← behind]
  rfl

/-- The same tokens declare the same variables in front of any brace. -/
private theorem Listing.again {list : List Char} (listing : Listing list) {run : List Token}
    (alike : List.Forall₂ Token.Alike (tokensFrom nestingLimit listing.place list).tokens run)
    {opening : Token} (opens : opening.isPunctuator "\x7b" = true) (single final : Token) :
    variableDefinitions (run.length + 6) (run ++ [opening, single, final]) =
      .ok (declarations list, [opening, single, final]) := by
  obtain ⟨taken, split, -, again⟩ := variableDefinitions_follows (Nat.le_refl _) _ _ _
    listing.declared
  obtain rfl := List.append_cancel_right split
  have goes : Continues [listing.opening, listing.single, listing.final] [opening, single, final] := by
    rintro _ ⟨⟩
    have mark := listing.opens
    simp only [Token.isPunctuator, Bool.and_eq_true, decide_eq_true_eq] at mark opens
    exact ⟨_, rfl, by rw [mark.1, opens.1], by rw [mark.2, opens.2]⟩
  obtain ⟨_, read, rfl⟩ := again run _ alike goes
  rwa [alike.length_eq] at read

/-- A text that declares variables is parsed into them as the list of any fragment. -/
theorem Declares.parse {list : List Char} (declares : Declares list) (name : String) (offset : Nat) :
    VariableList.parse ⟨name, offset, list⟩ = .ok (offset, declarations list) := by
  obtain ⟨listing⟩ := declares.listing
  obtain ⟨others, opens⟩ := List.head?_eq_some_iff.mp declares.opens
  have front : "query FragmentVariables".toList = "query ".toList ++ "FragmentVariables".toList := by
    decide
  have label : Named "FragmentVariables".toList := by decide
  have word : Named "__typename".toList := by decide
  have braces : " \x7b ".toList ++ "__typename".toList ++ " \x7d".toList =
      " \x7b __typename \x7d".toList := by decide
  have whole : VariableList.asQuery ⟨name, offset, list⟩ = "query ".toList ++
      "FragmentVariables".toList ++ (list ++ " \x7b __typename \x7d".toList) :=
    (congrArg (· ++ list ++ " \x7b __typename \x7d".toList) front).trans (List.append_assoc ..)
  have free : ∀ char ∈ (list ++ " \x7b __typename \x7d".toList).head?, isNameChar char = false := by
    rw [opens]
    rintro _ ⟨⟩
    decide
  obtain ⟨keyword, label', place, worded, named, -, stream⟩ := query_tokens label free
  obtain ⟨first, behind, -, tokens, ending, along⟩ :=
    listing.resumes place " \x7b __typename \x7d".toList (Token.stops_parenthesis listing.shuts _)
  have few := fun budget => @set_tokens budget behind _ word
  rw [braces] at few
  obtain ⟨-, opening, single, closing, opens', named', closes, three, ended⟩ := few listing.remaining
  rw [three] at tokens
  have declared :=
    listing.again (along.imp fun _ _ same => same.alike) opens' single closing
  obtain ⟨⟨set, closing'⟩, selected⟩ := @selectionSet_name .none (first.length + 4) single opening
    closing opens' named' closes
  have bare : [opening, single, closing].head?.any (Token.isPunctuator "@") = false := by
    simp only [Token.isPunctuator, Bool.and_eq_true, decide_eq_true_eq] at opens'
    simp [Token.isPunctuator, opens']
  have defined := (query_reads worded named).mpr ⟨_, _, _, _, _, _, declared,
    directives_none bare, selected, rfl⟩
  have tokens' : (TokenStream.ofText (VariableList.asQuery ⟨name, offset, list⟩)).tokens =
      keyword :: label' :: (first ++ [opening, single, closing]) := by
    rw [whole, stream]
    exact congrArg (keyword :: label' :: ·) tokens
  have ended' : (TokenStream.ofText (VariableList.asQuery ⟨name, offset, list⟩)).ending =
      .endOfInput := by
    rw [whole, stream]
    exact ending.trans ended
  have count : (keyword :: label' :: (first ++ [opening, single, closing])).length + 1 =
      first.length + 6 := by
    simp
  rw [← count, ← tokens'] at defined
  simp only [VariableList.parse, read_of_definition ended' defined]
  rfl

end QueryStore
