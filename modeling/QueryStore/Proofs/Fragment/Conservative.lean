import QueryStore.Proofs.Fragment.Keeping
import QueryStore.Proofs.Fragment.Regular

/-! With variables of fragments enabled, texts without any are read as before
(`enabling_variables_conservative`): no list is found in them, whatever their comments, strings
and names look like. The exception are strings in which a carriage return stands; looking for
lists ends them there (`return_cuts_string`). -/
namespace QueryStore
open Text Grammar

/-- No list of variables is found in the text of definitions that have none. -/
theorem definitions_uncut {placement : Placement} {text : List Char} {found : List Definition}
    (ended : (TokenStream.ofText text).ending = .endOfInput)
    (calm : Calm (TokenStream.ofText text).tokens)
    (runs : Runs (DefinitionStands placement) (TokenStream.ofText text).tokens found) :
    separateVariables text = .ok (text, []) := by
  have whole : Still (fun _ => True) (.fresh 0) (Chunk.ofText text) :=
    (text_still ended calm runs fun _ _ _ _ _ _ _ => trivial).1
  have cuts : Cuts (.fresh 0) (Chunk.ofText text ++ []) _ := whole.cuts .done
  obtain ⟨blanked, lists⟩ := kept_append (Chunk.ofText text) []
  rw [List.append_nil] at cuts
  have found : pieces text = .ok ((Chunk.ofText text).map (Piece.kept ·.text) ++ []) :=
    pieces_of_cuts cuts
  have shown : Chunk.textOf (Chunk.ofText text) ++ blankedText [] = text := by
    rw [Chunk.textOf_ofText]
    exact List.append_nil text
  simp only [separateVariables, found, lists, blanked, shown]
  rfl

/-- **Enabling variables of fragments is conservative.** A text that is accepted without them is
accepted with them as the same document, locations included, in which no fragment has variables,
unless a carriage return stands in one of its strings. -/
theorem enabling_variables_conservative {source : String} {document : Document}
    (parsed : Document.parse ⟨false⟩ source = .ok document)
    (calm : Calm (TokenStream.ofText source.toList).tokens) :
    Document.parse ⟨true⟩ source = .ok document ∧
      ∀ fragment ∈ fragmentsOf document.definitions, fragment.variableDefinitions = [] := by
  obtain ⟨text, table, found, prepared, read, rfl⟩ := parse_ok parsed
  obtain ⟨rfl, rfl⟩ : source.toList = text ∧ [] = table := by
    simpa [Document.prepare] using prepared
  obtain ⟨ended, runs⟩ := readDefinitions_stand (placedBy_locates _ _) read
  refine ⟨?_, ?_⟩
  · have prepared' : Document.prepare ⟨true⟩ source = .ok (source.toList, []) :=
      definitions_uncut ended calm runs
    exact parse_of_read prepared' read
  · intro fragment member
    rw [attach_nothing] at member
    obtain ⟨run, -, stands⟩ := runs.exists_of_mem (mem_fragmentsOf.mp member)
    cases stands
    rfl

/-- Lookalikes of lists in comments, strings and names, and a fragment named like the keyword. -/
theorem lookalikes_conserved :
    let source := "# fragment F ($x: Int)\r\nquery fragment ($a: [T!] = [\"fragment F (\"]) " ++
      "@d(s: \"\"\"\\\"\"\" ) \"\"\") \x7b f(x: $a, n: -1.5e3) \x7d fragment fragment on T \x7b a \x7d"
    (Document.parse ⟨false⟩ source).isOk = true ∧
      Document.parse ⟨true⟩ source = Document.parse ⟨false⟩ source := by
  intro source
  have accepted : (Document.parse ⟨false⟩ source).isOk = true := by decide +kernel
  have calm : Calm (TokenStream.ofText source.toList).tokens := by decide +kernel
  refine ⟨accepted, ?_⟩
  cases parsed : Document.parse ⟨false⟩ source with
  | error failure =>
    rw [parsed] at accepted
    cases accepted
  | ok document => exact (enabling_variables_conservative parsed calm).1

/-- A carriage return in a string ends it where lists of variables are looked for. So the
parenthesis and the brace behind it close what is open, and the quote behind the supposed list
begins a string that hides the end of the list. -/
theorem return_cuts_string :
    let source := "\x7b a(s: \"\r)\x7d fragment F (\") \x7d"
    (Document.parse ⟨false⟩ source).isOk = true ∧
      Document.parse ⟨true⟩ source = .error (.returned (.unterminatedVariables "F")) := by
  intro source
  have open' : pieces source.toList = .error "F" := by decide +kernel
  exact ⟨by decide +kernel, by simp [parse_eq, Document.prepare, separateVariables, open']⟩

end QueryStore
