import QueryStore.Proofs.Document.Derivation
import QueryStore.Proofs.Fragment.Regular

/-! Locations of nodes in texts whose lines and columns lead to their tokens. There every located
node is located at its own text, from its first token through the brace that closes its selections
(`locations_exact`). -/
namespace QueryStore
open Text Grammar

/-- A location covers a run of tokens: it goes from where the first begins to the end of the
last, a closing brace, and the text there, read from the first token on, has just these tokens. -/
def Covers (source : String) (run : List Token) (location : Option Location) : Prop :=
  ∃ first ∈ run.head?, ∃ last ∈ run.getLast?, ∃ own budget,
    last.isPunctuator "\x7d" = true ∧
    location = some ⟨first.place.offset, last.place.offset + 1, some source⟩ ∧
    location.bind Location.text? = some own ∧
    (tokensFrom budget first.place own.toList).tokens = run ∧
    (tokensFrom budget first.place own.toList).ending = .endOfInput

/-- All nodes but inline fragments at their own texts. -/
def Placement.exact (source : String) : Placement := ⟨Covers source, fun _ _ => True⟩

/-- A run of tokens that ends with a brace takes up a part of the text, from the offset of the
first token to one past that of the brace. -/
theorem run_text {text : List Char} {run : List Token} {first closing : Token}
    (within : run <:+: (TokenStream.ofText text).tokens) (head : run.head? = some first)
    (last : run.getLast? = some closing) (closes : closing.isPunctuator "\x7d" = true) :
    ∃ before own after budget, text = before ++ own ++ after ∧
      first.place.offset = byteLength before ∧
      closing.place.offset + 1 = byteLength before + byteLength own ∧
      (tokensFrom budget first.place own).tokens = run ∧
      (tokensFrom budget first.place own).ending = .endOfInput := by
  obtain ⟨front, back, split⟩ := within
  have filled : run ≠ [] := by
    rintro rfl
    cases head
  obtain ⟨span⟩ := tokens_span filled (split.symm.trans (List.append_assoc ..))
  have begins : first.place = span.start := span.head first head
  have start : first.place.offset = byteLength (span.lead ++ span.gap) := by
    rw [begins, span.start_offset]
  obtain ⟨initial, own, offset⟩ := span.last closing last
  have brace : byteLength closing.text.toList = 1 := by
    simp only [Token.isPunctuator, Bool.and_eq_true, decide_eq_true_eq] at closes
    rw [closes.2]
    decide
  obtain ⟨budget, tokens, ended⟩ := span.inside
  refine ⟨span.lead ++ span.gap, span.own, span.after, budget, ?_, start, ?_, ?_, ?_⟩
  · simpa only [List.append_assoc] using span.whole
  · rw [offset, ← begins, start, own, byteLength_append initial, brace, Nat.add_assoc]
  · rw [begins, tokens]
  · rw [begins, ended]

/-- In a straight text the runs that end with a brace are covered by what their positions
lead to. -/
theorem straight_locates {source : String} (straight : Straight source.toList) :
    Locates (.ofPositions source) (.exact source) (TokenStream.ofText source.toList).tokens where
  node run first closing within head last closes := by
    obtain ⟨before, own, after, budget, whole, start, stop, tokens, ended⟩ :=
      run_text within head last closes
    have bound : closing.place.offset + 1 ≤ byteLength source.toList := by
      rw [stop, whole, byteLength_append _ after, byteLength_append before]
      exact Nat.le_add_right ..
    have located : (Locator.ofPositions source).node first closing =
        some ⟨first.place.offset, closing.place.offset + 1, some source⟩ := by
      simp only [Locator.ofPositions, Token.offsetByPosition, Location.through,
        position_offset straight (within.subset (List.mem_of_head? head)),
        position_offset straight (within.subset (List.mem_of_getLast? last)),
        Nat.min_eq_left bound]
    refine ⟨first, head, closing, last, String.ofList own, budget, closes, located, ?_, ?_, ?_⟩
    · simp only [located, Option.bind_some, Location.text?, start, stop, whole, slice_append,
        Option.map_some]
    · rw [String.toList_ofList, tokens]
    · rw [String.toList_ofList, ended]
  inlineFragment := by
    intros
    trivial

/-- **Locations are exact where columns are plain.** A document that is parsed from a text
without tabs, carriage returns and byte-order marks is located from the beginning of the text to
its end. Its definitions stand in the tokens of the text, one after the other, and every
operation, fragment and set of selections in it, and every field with selections of its own, is
located at the text from its first token through the brace that closes its selections. -/
theorem locations_exact {source : String} {document : Document}
    (plain : ∀ char ∈ source.toList, char ≠ '\t' ∧ char ≠ '\r' ∧ char ≠ '\uFEFF')
    (parsed : Document.parse ⟨false⟩ source = .ok document) :
    document.location = some ⟨0, source.utf8ByteSize, some source⟩ ∧
      (TokenStream.ofText source.toList).ending = .endOfInput ∧
      Runs (DefinitionStands (.exact source)) (TokenStream.ofText source.toList).tokens
        document.definitions := by
  obtain ⟨text, table, found, prepared, read, rfl⟩ := parse_ok parsed
  cases prepared
  have size := byteLength_eq_utf8ByteSize source.toList
  rw [String.ofList_toList] at size
  refine ⟨by rw [size], ?_⟩
  rw [attach_nothing]
  exact readDefinitions_stand (straight_locates (straight_of_unmarked plain)) read

/-- A comment and a block string of several lines, with characters of several bytes in both and
in a string, before and inside the nodes. -/
theorem exact_behind_wide_text :
    let source := "# café\nquery Q($v: S = \"\"\"é\nü\"\"\") @d \x7b l: a(s: \"é\") \x7b b ...F \x7d \x7d" ++
      "\nfragment F on T \x7b c \x7d # é"
    ∃ document, Document.parse ⟨false⟩ source = .ok document ∧
      document.location = some ⟨0, 95, some source⟩ ∧
      Runs (DefinitionStands (.exact source)) (TokenStream.ofText source.toList).tokens
        document.definitions ∧
      document.definitions.map Definition.location =
        [some ⟨8, 68, some source⟩, some ⟨69, 90, some source⟩] := by
  intro source
  have found : ((Document.parse ⟨false⟩ source).toOption.map fun document =>
      document.definitions.map Definition.location) =
        some [some ⟨8, 68, some source⟩, some ⟨69, 90, some source⟩] := by decide +kernel
  cases parsed : Document.parse ⟨false⟩ source with
  | error failure =>
    rw [parsed] at found
    cases found
  | ok document =>
    obtain ⟨whole, -, stands⟩ := locations_exact (by simp [source]) parsed
    rw [parsed] at found
    refine ⟨document, rfl, ?_, stands, Option.some.inj found⟩
    rw [whole]
    decide +kernel

end QueryStore
