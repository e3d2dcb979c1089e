import QueryStore.Proofs.Document.Derivation
import QueryStore.Proofs.Fragment.Faithful
import QueryStore.Proofs.Session.Failures
import QueryStore.Proofs.Token.Order

/-! Whether a session stores what the standard parser accepts. The offsets at which a node begins
and at which its brace is looked for are boundaries of the text, in order (`positions_locate`),
whatever the columns of the parser count. But a node is taken to end one byte after its brace, and
where another character was found in the place of the brace, that may be inside of it. So a fragment
has a key exactly when it ends between two characters (`located_keyed_iff`). -/
namespace QueryStore
open Text Grammar

/-- A location of a node whose beginning and brace were looked for at two boundaries of the
text. -/
def Spanned (source : String) (location : Option Location) : Prop :=
  ∃ start brace, start ≤ brace ∧ Boundary source.toList start ∧ Boundary source.toList brace ∧
    location = some (.through source (byteLength source.toList) start brace)

/-- Every located node but inline fragments between two boundaries. -/
def Placement.spanned (source : String) : Placement :=
  ⟨fun _ => Spanned source, fun _ _ => True⟩

/-- Positions lead to boundaries, whatever text they were counted in. -/
theorem positions_locate (source : String) (text : List Char) :
    Locates (.ofPositions source) (.spanned source) (TokenStream.ofText text).tokens where
  node run first closing within head last _ := by
    obtain ⟨ordered, counted⟩ := tokens_ordered nestingLimit .origin text
    -- The brace is the first token of its run itself, or stands behind it.
    have ahead : first.place.position ≤ closing.place.position := by
      obtain ⟨others, rfl⟩ := List.head?_eq_some_iff.mp head
      rcases List.mem_cons.mp (List.mem_of_getLast? last) with same | later
      · rw [same]
        exact Position.le_refl _
      · exact List.rel_of_pairwise_cons (ordered.sublist within.sublist) later
    have line : 1 ≤ first.place.position.line := by
      rcases counted first (within.subset (List.mem_of_head? head)) with below | ⟨same, -⟩
      · exact Nat.le_of_lt below
      · exact Nat.le_of_eq same
    exact ⟨_, _, offset_mono line ahead source.toList, offset_boundary .., offset_boundary .., rfl⟩
  inlineFragment := by
    intros
    trivial

/-- A fragment that ends between two characters of the text. -/
def Fragment.EndsWhole (source : String) (fragment : Fragment) : Prop :=
  ∃ location, fragment.location = some location ∧ Boundary source.toList location.stop

/-- A fragment located between two boundaries has a key exactly when it ends at one. -/
theorem located_keyed_iff {source : String} {fragment : Fragment}
    (spanned : Spanned source fragment.location) :
    fragment.key?.isSome = true ↔ fragment.EndsWhole source := by
  obtain ⟨start, brace, ordered, begins, closes, location⟩ := spanned
  have within := closes.le_length
  have forward : start ≤ min (brace + 1) (byteLength source.toList) := by omega
  simp only [Fragment.key?, Fragment.EndsWhole, location, Option.bind_some, Location.text?,
    Location.through, Option.isSome_map, slice_isSome_iff, begins, forward, true_and,
    Option.some.injEq, exists_eq_left']

/-- A node ends at a boundary exactly when its brace was looked for in front of a character of
one byte, or at the end of the text. -/
theorem through_ends_whole {source : String} {before after : List Char}
    (whole : source.toList = before ++ after) (start : Nat) :
    Boundary source.toList
        (Location.through source (byteLength source.toList) start (byteLength before)).stop ↔
      ∀ char ∈ after.head?, char.utf8Size = 1 := by
  rw [whole]
  cases after with
  | nil =>
    have stop : min (byteLength before + 1) (byteLength (before ++ [])) =
        byteLength (before ++ []) := by
      simp
    simp only [Location.through, stop]
    exact iff_of_true (boundary_length _) (by simp)
  | cons char after =>
    have size := char.utf8Size_pos
    have stop : min (byteLength before + 1) (byteLength (before ++ char :: after)) =
        byteLength before + 1 := by
      simp only [byteLength_append, byteLength]
      omega
    simp only [Location.through, stop, boundary_append, boundary_cons, List.head?_cons,
      Option.mem_some_iff, forall_eq']
    constructor
    · rintro (none | ⟨less, one, -⟩) <;> omega
    · intro one
      exact Or.inr ⟨0, by rw [one], boundary_zero _⟩

/-- The fragments of an accepted document are located between boundaries. -/
theorem accepted_spanned {options : ParseOptions} {source : String} {document : Document}
    (accepted : Document.parse options source = .ok document) :
    ∀ fragment ∈ document.fragments, Spanned source fragment.location := by
  obtain ⟨text, table, found, -, read, rfl⟩ := parse_ok accepted
  obtain ⟨-, runs⟩ := readDefinitions_stand (positions_locate source text) read
  refine attached_forall Fragment.location (Spanned source) (fun fragment member => ?_)
    (fun _ _ => rfl) table
  obtain ⟨_, -, stands⟩ := runs.exists_of_mem (mem_fragmentsOf.mp member)
  exact stands.placed

/-- The fragments of an accepted straight text have keys. -/
theorem accepted_straight {options : ParseOptions} {source : String} {document : Document}
    (accepted : Document.parse options source = .ok document) (straight : Straight source.toList) :
    ∀ fragment ∈ document.fragments, fragment.key?.isSome = true := by
  obtain ⟨text, table, found, prepared, read, rfl⟩ := parse_ok accepted
  exact attached_forall Fragment.key? (·.isSome = true) (straight_keyed straight prepared read)
    (fun _ _ => rfl) table

/-- The keys of an accepted document are missing exactly when a fragment ends inside a character;
the first such is named. -/
theorem accepted_unkeyed_iff {options : ParseOptions} {source : String} {document : Document}
    (accepted : Document.parse options source = .ok document) {name : String} :
    keyDefinitions document.definitions = .error name ↔
      ∃ before fragment after, document.fragments = before ++ fragment :: after ∧
        (∀ earlier ∈ before, earlier.EndsWhole source) ∧ ¬ fragment.EndsWhole source ∧
        fragment.name = name := by
  have keyed : ∀ fragment ∈ document.fragments,
      (fragment.key?.isSome = true ↔ fragment.EndsWhole source) :=
    fun fragment member => located_keyed_iff (accepted_spanned accepted fragment member)
  rw [keyDefinitions_error_iff]
  constructor
  · rintro ⟨before, fragment, after, split, whole, unkeyed, named⟩
    have members : document.fragments = before ++ fragment :: after := split
    refine ⟨before, fragment, after, split, fun earlier member => ?_, ?_, named⟩
    · exact (keyed earlier (by simp [members, member])).mp (whole earlier member)
    · rw [← keyed fragment (by simp [members]), unkeyed]
      exact Bool.false_ne_true
  · rintro ⟨before, fragment, after, split, whole, cut, named⟩
    refine ⟨before, fragment, after, split, fun earlier member => ?_, ?_, named⟩
    · exact (keyed earlier (by simp [split, member])).mpr (whole earlier member)
    · rw [← keyed fragment (by simp [split])] at cut
      simpa using cut

/-- What the standard parser makes of a text that it accepts: the keys of the fragments, unless
one of them has none. -/
theorem accepted_read {options : SessionOptions} {source : String} {document : Document}
    (accepted : Document.parse ⟨options.fragmentVariables⟩ source = .ok document)
    {failure : Failure SessionError} :
    Parser.standard.read options source = .error failure ↔
      ∃ name, keyDefinitions document.definitions = .error name ∧
        failure = .returned (.missingLocation name) := by
  simp only [Parser.read, Parser.standard, accepted, Except.map]
  cases keyDefinitions document.definitions with
  | error name => simp [eq_comm]
  | ok keyed => simp

/-- What the standard parser reads is a document that it accepts, all of whose fragments have
keys. -/
theorem standard_read_iff {options : SessionOptions} {source : String} {document : Document}
    {keyed : List KeyedDefinition} :
    Parser.standard.read options source = .ok (document, keyed) ↔
      Document.parse ⟨options.fragmentVariables⟩ source = .ok document ∧
        keyDefinitions document.definitions = .ok keyed := by
  simp only [Parser.read, Parser.standard]
  cases Document.parse ⟨options.fragmentVariables⟩ source with
  | error failure => simp [Except.map]
  | ok found =>
    simp only [Except.map, Except.ok.injEq]
    cases keys : keyDefinitions found.definitions with
    | error name =>
      simp only [reduceCtorEq, false_iff]
      rintro ⟨rfl, keys'⟩
      rw [keys] at keys'
      cases keys'
    | ok others =>
      simp only [Except.ok.injEq, Prod.mk.injEq]
      refine and_congr_right ?_
      rintro rfl
      rw [keys, Except.ok.injEq]

/-- **Accepted documents and their keys.** A session fails on a text that the standard parser
accepts exactly when the text is not in the cache and some fragment of its document ends inside a
character; the first such fragment is named. So it succeeds on every straight text, and on every
text of one-byte characters. -/
theorem accepted_stored_iff (session : Session) {source : String} {document : Document}
    (accepted : Document.parse ⟨session.options.fragmentVariables⟩ source = .ok document) :
    let result := (session.parseDocument .standard source).result
    (∀ failure, result = .error failure ↔
      session.cache.get? (Text.normalize source) = none ∧
        ∃ before fragment after, document.fragments = before ++ fragment :: after ∧
          (∀ earlier ∈ before, earlier.EndsWhole source) ∧ ¬ fragment.EndsWhole source ∧
          failure = .returned (.missingLocation fragment.name)) ∧
    (Straight source.toList ∨ (∀ char ∈ source.toList, char.utf8Size = 1) →
      ∃ stored, result = .ok stored) := by
  intro result
  have failing : ∀ failure, result = .error failure ↔
      session.cache.get? (Text.normalize source) = none ∧
        ∃ before fragment after, document.fragments = before ++ fragment :: after ∧
          (∀ earlier ∈ before, earlier.EndsWhole source) ∧ ¬ fragment.EndsWhole source ∧
          failure = .returned (.missingLocation fragment.name) := by
    intro failure
    rw [session.refused_iff .standard source failure, accepted_read accepted]
    refine and_congr_right fun _ => ?_
    constructor
    · rintro ⟨name, missing, rfl⟩
      obtain ⟨before, fragment, after, split, whole, cut, rfl⟩ :=
        (accepted_unkeyed_iff accepted).mp missing
      exact ⟨before, fragment, after, split, whole, cut, rfl⟩
    · rintro ⟨before, fragment, after, split, whole, cut, rfl⟩
      exact ⟨fragment.name, (accepted_unkeyed_iff accepted).mpr
        ⟨before, fragment, after, split, whole, cut, rfl⟩, rfl⟩
  refine ⟨failing, fun plain => ?_⟩
  cases answered : result with
  | ok stored => exact ⟨stored, rfl⟩
  | error failure =>
    obtain ⟨-, before, fragment, after, split, -, cut, -⟩ := (failing failure).mp answered
    have member : fragment ∈ document.fragments := by simp [split]
    have spanned := accepted_spanned accepted fragment member
    refine absurd ?_ cut
    rcases plain with straight | narrow
    · exact (located_keyed_iff spanned).mp (accepted_straight accepted straight fragment member)
    · obtain ⟨start, _, -, -, ⟨left, right, whole, rfl⟩, location⟩ := spanned
      refine ⟨_, location, (through_ends_whole whole start).mpr fun char first => narrow char ?_⟩
      rw [whole]
      exact List.mem_append_right _ (List.mem_of_head? first)

/-- Characters of several bytes before a fragment and behind it do no harm. -/
theorem wide_text_stored :
    let session := Session.start Session.defaultOptions
    let source := "# café\nfragment F on T \x7b a \x7d # café"
    ∃ document stored, Document.parse ⟨session.options.fragmentVariables⟩ source = .ok document ∧
      (session.parseDocument .standard source).result = .ok stored := by
  intro session source
  have accepted : (Document.parse ⟨session.options.fragmentVariables⟩ source).isOk = true := by
    decide +kernel
  cases parsed : Document.parse ⟨session.options.fragmentVariables⟩ source with
  | error failure =>
    rw [parsed] at accepted
    cases accepted
  | ok document =>
    obtain ⟨-, succeeds⟩ := accepted_stored_iff session parsed
    obtain ⟨stored, answered⟩ := succeeds (Or.inl (straight_of_unmarked (by simp [source])))
    exact ⟨document, stored, rfl, answered⟩

/-- A tab counts as eight columns. So the brace behind it is looked for seven characters too far
on, and found in front of a character of two bytes. -/
theorem tab_cuts_character :
    let session := Session.start Session.defaultOptions
    let source := "fragment F on T \x7b a\t\x7d # café"
    (Document.parse ⟨session.options.fragmentVariables⟩ source).isOk = true ∧
      (session.parseDocument .standard source).result =
        .error (.returned (.missingLocation "F")) :=
  ⟨by decide +kernel, failure_eq_some.mp (by decide +kernel)⟩

end QueryStore
