import QueryStore.Proofs.Fragment.Combined
import QueryStore.Proofs.Session.Accepted

/-! Texts with the texts of earlier documents put behind them. Each text is parsed as it is alone,
so that the document consists of the definitions of all of them in turn, less the fragments that
repeat an earlier one (`interpolation_composes`). That they are put together as text, comments and
all, does not show. -/
namespace QueryStore
open Text Grammar

/-- A text and then those of earlier documents. -/
def submittedTexts (source : String) (documents : List ParsedDocument) : List String :=
  source :: documents.map ParsedDocument.source

/-- Texts are put together on lines of their own. -/
theorem joinSources_lines (source : String) (documents : List ParsedDocument) :
    joinSources source documents = "\n".intercalate (submittedTexts source documents) := by
  unfold submittedTexts
  induction documents generalizing source with
  | nil => simp [joinSources, String.join]
  | cons document documents ih =>
    rw [List.map_cons, String.intercalate_cons_cons, ← ih]
    apply String.toList_inj.mp
    simp [joinSources]

/-- A fragment that has the normalized text of a fragment among the definitions before it. -/
def Definition.repeats (before : List Definition) : Definition → Bool
  | .operation _ => false
  | .fragment node => node.key? ∈ (fragmentsOf before).map Fragment.key?

/-- Definitions without the fragments that repeat an earlier one, given the definitions before. -/
def firstOccurrences (before : List Definition) : List Definition → List Definition
  | [] => []
  | definition :: rest =>
    let others := firstOccurrences (before ++ [definition]) rest
    if definition.repeats before then others else definition :: others

theorem firstOccurrences_sublist (before found : List Definition) :
    (firstOccurrences before found).Sublist found := by
  induction found generalizing before with
  | nil => exact .slnil
  | cons definition found ih =>
    simp only [firstOccurrences]
    split
    · exact (ih _).cons _
    · exact (ih _).cons_cons _

/-- The definitions that stay in a document are the first occurrences. -/
theorem retain_firstOccurrences {before found : List Definition} {keyed : List KeyedDefinition}
    {seen : List String} (keys : keyDefinitions found = .ok keyed)
    (known : ∀ key, key ∈ seen ↔ some key ∈ (fragmentsOf before).map Fragment.key?)
    (registry : Registry) :
    (retain seen registry keyed).definitions = firstOccurrences before found := by
  induction found generalizing before keyed seen registry with
  | nil =>
    cases keys
    rfl
  | cons definition found ih =>
    cases definition with
    | operation operation =>
      obtain ⟨others, later, rfl⟩ := keyed_operation.mp keys
      have same : fragmentsOf (before ++ [.operation operation]) = fragmentsOf before :=
        (fragmentsOf_append before _).trans (List.append_nil _)
      have known' : ∀ key, key ∈ seen ↔
          some key ∈ (fragmentsOf (before ++ [.operation operation])).map Fragment.key? :=
        same ▸ known
      have rest := ih later known' registry
      exact congrArg (Definition.operation operation :: ·) rest
    | fragment fragment =>
      obtain ⟨key, others, own, later, rfl⟩ := keyed_fragment.mp keys
      have more : fragmentsOf (before ++ [.fragment fragment]) = fragmentsOf before ++ [fragment] :=
        fragmentsOf_append before _
      have known' : ∀ other, other ∈ key :: seen ↔
          some other ∈ (fragmentsOf (before ++ [.fragment fragment])).map Fragment.key? := by
        intro other
        rw [more, List.map_append, List.mem_append, List.mem_cons, known, List.map_singleton, own,
          List.mem_singleton, Option.some_inj, or_comm]
      have repeats : key ∈ seen ↔ (Definition.fragment fragment).repeats before = true := by
        simp only [Definition.repeats, own, decide_eq_true_eq, known]
      simp only [retain, firstOccurrences]
      by_cases repeated : key ∈ seen
      · rw [if_pos repeated, if_pos (repeats.mp repeated)]
        exact ih later known' _
      · rw [if_neg repeated, if_neg (repeats.not.mp repeated)]
        exact congrArg (Definition.fragment fragment :: ·) (ih later known' _)

/-- A document is stored with the first occurrences of its definitions, locations removed. -/
theorem assembled_definitions {source : String} {document : Document}
    {keyed : List KeyedDefinition} (keys : keyDefinitions document.definitions = .ok keyed) :
    (assemble source document keyed).document.definitions =
      (firstOccurrences [] document.definitions).map (Definition.strip false) := by
  have first : (retain [] .empty keyed).definitions = firstOccurrences [] document.definitions :=
    retain_firstOccurrences keys (by simp [fragmentsOf]) .empty
  simp only [assemble, Document.strip, first]

/-- Definitions that recur have fragments with the same keys. -/
theorem recurs_keys {left right : List Definition} (recurs : List.Forall₂ Recurs left right) :
    (fragmentsOf left).map Fragment.key? = (fragmentsOf right).map Fragment.key? := by
  induction recurs with
  | nil => rfl
  | @cons one other _ _ here _ ih =>
    obtain ⟨same, own⟩ := here
    cases one <;> cases other
    · exact ih
    · cases same
    · cases same
    · exact List.cons_eq_cons.mpr ⟨congrArg (Option.map Text.normalize) own.symm, ih⟩

/-- First occurrences recur where all definitions do. -/
theorem firstOccurrences_recurs {left right before before' : List Definition}
    (recurs : List.Forall₂ Recurs left right) (earlier : List.Forall₂ Recurs before before') :
    List.Forall₂ Recurs (firstOccurrences before left) (firstOccurrences before' right) := by
  induction recurs generalizing before before' with
  | nil => exact .nil
  | @cons one other _ _ here _ ih =>
    have others := ih (List.rel_append earlier (.cons here .nil))
    have repeats : one.repeats before = other.repeats before' := by
      have keys := recurs_keys earlier
      obtain ⟨same, own⟩ := here
      cases one <;> cases other
      · rfl
      · cases same
      · cases same
      · have key : Fragment.key? _ = Fragment.key? _ := congrArg (Option.map Text.normalize) own.symm
        simp only [Definition.repeats, keys, key]
    simp only [firstOccurrences, repeats]
    split
    · exact others
    · exact .cons here others

/-- A text that is accepted has words. -/
theorem accepted_filled {options : ParseOptions} {source : String} {document : Document}
    (accepted : Document.parse options source = .ok document) : canonical source.toList ≠ [] := by
  obtain ⟨text, table, found, prepared, read, -⟩ := parse_ok accepted
  obtain ⟨closing, last, closes⟩ := (whole_of_read read).closes
  obtain ⟨gap, behind, whole, -⟩ := token_within _ _ _ closing (List.mem_of_getLast? last)
  obtain ⟨-, spelled⟩ := Token.punctuator_spelled closes
  have brace : '\x7d' ∈ text := by
    rw [whole, spelled]
    simp
  exact canonical_filled (blanked_mem (prepare_blanked prepared) brace (by decide)) (by decide)

/-- The whole text is kept with an accepted document. -/
theorem accepted_retained {options : ParseOptions} {source : String} {document : Document}
    (accepted : Document.parse options source = .ok document) :
    retainedSource source document.location = source := by
  obtain ⟨-, -, -, -, -, rfl⟩ := parse_ok accepted
  have whole := slice_append [] source.toList []
  simp only [List.nil_append, List.append_nil, byteLength, Nat.zero_add] at whole
  simp only [retainedSource, whole, String.ofList_toList]

/-- **Interpolation composes documents.** A text is submitted with earlier documents, and it and the
texts of these documents are each accepted on their own, without tabs, carriage returns and
byte-order marks. If the texts put together are not in the cache, they are accepted. The document
is kept with the texts on lines of their own, under their canonical forms with spaces in between,
and has the definitions of the text and then those of each document's text, less the fragments
that repeat an earlier one. -/
theorem interpolation_composes (session : Session) (source : String)
    (documents : List ParsedDocument) {parsed : List Document}
    (accepted : List.Forall₂ (fun text document =>
        Document.parse ⟨session.options.fragmentVariables⟩ text = .ok document)
      (submittedTexts source documents) parsed)
    (unmarked : ∀ text ∈ submittedTexts source documents, Unmarked text.toList)
    (uncached : session.cache.get?
      (Text.normalize ("\n".intercalate (submittedTexts source documents))) = none) :
    ∃ stored, (session.parse .standard source documents).result = .ok stored ∧
      stored.parsed.source = "\n".intercalate (submittedTexts source documents) ∧
      stored.parsed.key =
        " ".intercalate ((submittedTexts source documents).map Text.normalize) ∧
      stored.parsed.document.definitions =
        (firstOccurrences [] (parsed.flatMap Document.definitions)).map (Definition.strip false) := by
  have some : submittedTexts source documents ≠ [] := List.cons_ne_nil _ _
  obtain ⟨unmarked', document, whole, recurs⟩ := parse_lines some unmarked accepted
  have filled : ∀ text ∈ submittedTexts source documents, canonical text.toList ≠ [] := by
    intro text member
    obtain ⟨_, -, alone⟩ := forall₂_mem_left accepted member
    exact accepted_filled alone
  obtain ⟨-, key⟩ := normalize_lines some filled
  rw [Session.parse, joinSources_lines]
  generalize "\n".intercalate (submittedTexts source documents) = text at *
  obtain ⟨keyed, keys⟩ := keyed_of_all (accepted_straight whole unmarked'.straight)
  have read : Parser.standard.read session.options text = .ok (document, keyed) :=
    standard_read_iff.mpr ⟨whole, keys⟩
  rcases session.parse_document_cases .standard text with
    ⟨stored, cached, -⟩ | ⟨error, -, failed, -⟩ | ⟨document', keyed', -, read', replied⟩
  · rw [uncached] at cached
    cases cached
  · rw [read] at failed
    cases failed
  · rw [read] at read'
    cases read'
    refine ⟨_, congrArg Reply.result replied, accepted_retained whole, key, ?_⟩
    have first : (retain [] .empty keyed).definitions = firstOccurrences [] document.definitions :=
      retain_firstOccurrences keys (by simp [fragmentsOf]) .empty
    simp only [assemble, Document.strip, first]
    exact (forall₂_map_eq ((firstOccurrences_recurs recurs .nil).imp fun _ _ here => here.same)).symm

private theorem toOption_eq_some {ε α : Type} {result : Except ε α} {value : α} :
    result.toOption = some value ↔ result = .ok value := by
  cases result <;> simp [Except.toOption]

/-- A fragment with variables is interpolated along with a document that has it already. Characters
of several bytes and comments behind the last brace do no harm. -/
theorem nested_interpolation :
    let session := Session.start ⟨true, true⟩
    let inner := "fragment F($n: Int = 1) on T \x7b a(n: $n) \x7d # é"
    let outer := "# é\nfragment G on T \x7b ...F \x7d #"
    let query := "query \x7b ...G ...F \x7d # \x7b"
    let first := session.parse .standard inner []
    ∃ one, first.result = .ok one ∧
      let second := first.session.parse .standard outer [one.parsed]
      ∃ other, second.result = .ok other ∧
        ∃ stored, (second.session.parse .standard query [other.parsed, one.parsed]).result =
            .ok stored ∧
          stored.parsed.source = "\n".intercalate [query, outer ++ "\n" ++ inner, inner] ∧
          stored.parsed.key = " ".intercalate
            ([query, outer ++ "\n" ++ inner, inner].map Text.normalize) ∧
          stored.parsed.document.fragments.map (fun fragment =>
            (fragment.name, fragment.variableDefinitions.map (·.name))) =
            [("G", []), ("F", ["n"])] := by
  intro session inner outer query first
  have met : (first.result.toOption.bind fun one =>
      let second := first.session.parse .standard outer [one.parsed]
      second.result.toOption.map fun other => (one.parsed.source, other.parsed.source,
        second.session.options, second.session.cache.contains (Text.normalize
          ("\n".intercalate [query, outer ++ "\n" ++ inner, inner])))) =
      some (inner, outer ++ "\n" ++ inner, ⟨true, true⟩, false) := by
    decide +kernel
  obtain ⟨one, result, met⟩ := Option.bind_eq_some_iff.mp met
  obtain ⟨other, result', met⟩ := Option.map_eq_some_iff.mp met
  simp only [Prod.mk.injEq] at met
  obtain ⟨source, source', options, missing⟩ := met
  have shown : ((Document.parse ⟨true⟩ query).toOption.bind fun left =>
      (Document.parse ⟨true⟩ (outer ++ "\n" ++ inner)).toOption.bind fun middle =>
        (Document.parse ⟨true⟩ inner).toOption.map fun right =>
          (fragmentsOf ((firstOccurrences [] ([left, middle, right].flatMap
            Document.definitions)).map (Definition.strip false))).map fun fragment =>
              (fragment.name, fragment.variableDefinitions.map (·.name))) =
      some [("G", []), ("F", ["n"])] := by
    decide +kernel
  obtain ⟨left, alone, shown⟩ := Option.bind_eq_some_iff.mp shown
  obtain ⟨middle, alone', shown⟩ := Option.bind_eq_some_iff.mp shown
  obtain ⟨right, alone'', shown⟩ := Option.map_eq_some_iff.mp shown
  rw [toOption_eq_some] at result result' alone alone' alone''
  refine ⟨one, result, other, result', ?_⟩
  have texts : submittedTexts query [other.parsed, one.parsed] =
      [query, outer ++ "\n" ++ inner, inner] := by
    simp only [submittedTexts, List.map_cons, List.map_nil, source, source']
  have accepted : List.Forall₂ (fun text document => Document.parse ⟨true⟩ text = .ok document)
      (submittedTexts query [other.parsed, one.parsed]) [left, middle, right] := by
    rw [texts]
    exact .cons alone (.cons alone' (.cons alone'' .nil))
  obtain ⟨stored, replied, whole, key, definitions⟩ :=
    interpolation_composes (first.session.parse .standard outer [one.parsed]).session query
      [other.parsed, one.parsed] (by rw [options]; exact accepted)
      (by rw [texts]; decide +kernel)
      (by rw [texts]; exact Option.not_isSome_iff_eq_none.mp (Bool.not_eq_true _ ▸ missing))
  rw [texts] at whole key
  refine ⟨stored, replied, whole, key, ?_⟩
  rw [Document.fragments, definitions]
  exact shown

end QueryStore
