import QueryStore.Proofs.Fragment.Refused
import QueryStore.Proofs.Session.Replay
import QueryStore.Proofs.Session.Interpolation

/-! Variables of fragments while they are not allowed. Whether they are is asked only when a text
is read, and the cache does not know it. So a session returns variables of fragments all the same
if the first text that succeeded with the key was read while they were allowed, and otherwise
refuses the list (`variables_while_disallowed`). -/
namespace QueryStore

/-- Some fragment of the document has variables of its own. -/
def Document.HasVariables (document : Document) : Prop :=
  ∃ fragment ∈ document.fragments, fragment.variableDefinitions ≠ []

/-- What is read while variables of fragments are not allowed is stored without any. -/
theorem read_bare {options : SessionOptions} {source : String} {document : Document}
    {keyed : List KeyedDefinition}
    (read : Parser.standard.read options source = .ok (document, keyed))
    (off : options.fragmentVariables = false) :
    ¬ (assemble source document keyed).document.HasVariables := by
  obtain ⟨accepted, keys⟩ := standard_read_iff.mp read
  rw [off] at accepted
  rintro ⟨fragment, member, declared⟩
  have stored : Definition.fragment fragment ∈
      (firstOccurrences [] document.definitions).map (Definition.strip false) :=
    assembled_definitions keys ▸ mem_fragmentsOf.mp member
  obtain ⟨definition, held, same⟩ := List.mem_map.mp stored
  cases definition with
  | operation operation => cases same
  | fragment original =>
    cases same
    have bare := accepted_bare accepted original
      (mem_fragmentsOf.mpr ((firstOccurrences_sublist _ _).subset held))
    simp [Fragment.strip, bare] at declared

section
variable {history : History} {session : Session} {stored : StoredDocument}

/-- Variables of fragments that are returned while they are not allowed come from the first success
with the key, which read them while they were. -/
theorem first_enabled (met : Met .standard history) (known : Remembers .standard history session)
    (off : session.options.fragmentVariables = false) {text : String}
    (returned : (session.parseDocument .standard text).result = .ok stored)
    (declared : stored.parsed.document.HasVariables) :
    ∃ first ∈ history.exchanges, history.first? (Text.normalize text) = some first ∧
      first.before.options.fragmentVariables = true ∧ first.Returns stored := by
  cases cached : session.cache.get? (Text.normalize text) with
  | none =>
    obtain ⟨document, keyed, read, rfl⟩ := (session.answered_iff .standard text cached).mp returned
    exact absurd declared (read_bare read off)
  | some held =>
    rw [session.cached_reply .standard text cached, Except.ok.injEq] at returned
    subst held
    obtain ⟨exchange, member, same, earlier⟩ := (known.cached _ _).mp cached
    obtain ⟨first, member', found, -, first'⟩ := first_of_returned known member earlier
    rw [same] at found
    refine ⟨first, member', found, ?_, first'⟩
    obtain ⟨document, keyed, read, rfl⟩ := first_made met known found first'
    by_contra disabled
    exact read_bare read (Bool.not_eq_true _ ▸ disabled) declared

end

/-- **Variables of fragments while they are not allowed.** After any requests, a document in which
a fragment has variables is returned for a text exactly if it is the one that the first success
with the key of the text returned, while they were allowed. There is none if they were not allowed
for any text since the caches were last cleared. A text in which a list is opened behind the name of
a fragment, after whole definitions, is refused at the parenthesis, unless the cache answers it. -/
theorem variables_while_disallowed (options : SessionOptions) (requests : List Request)
    (source : String) (fragments : List ParsedDocument)
    (off : ((Session.start options).after .standard requests).options.fragmentVariables = false) :
    let session := (Session.start options).after .standard requests
    let history := History.ofRun .standard options requests
    let text := joinSources source fragments
    let result := (session.parse .standard source fragments).result
    (∀ stored : StoredDocument, stored.parsed.document.HasVariables →
      (result = .ok stored ↔ ∃ first, history.first? (Text.normalize text) = some first ∧
        first.before.options.fragmentVariables = true ∧ first.Returns stored)) ∧
    ((∀ exchange ∈ history.exchanges, exchange.before.options.fragmentVariables = false) →
      ∀ stored, result = .ok stored → ¬ stored.parsed.document.HasVariables) ∧
    ∀ opening, OpensList (TokenStream.ofText text.toList).tokens opening →
      (history.Recalls text → ∃ stored, result = .ok stored) ∧
      (¬ history.Recalls text → result = .error (.returned (.malformed
        (.document ⟨opening.place.position, some (.token opening.kind opening.text)⟩)))) := by
  intro session history text result
  have known : Remembers .standard history session := remembers_run .standard options requests
  have met : Met .standard history := met_run .standard options requests
  have hit : ∀ stored, session.cache.get? (Text.normalize text) = some stored →
      result = .ok stored := by
    intro stored cached
    exact congrArg Reply.result (session.cached_reply .standard text cached)
  refine ⟨fun stored declared => ⟨fun returned => ?_, ?_⟩, fun never stored returned declared => ?_,
    fun opening opens => ⟨fun recalled => ?_, fun unknown => ?_⟩⟩
  · obtain ⟨first, -, from'⟩ := first_enabled met known off returned declared
    exact ⟨first, from'⟩
  · rintro ⟨first, found, -, returned⟩
    have same : first.succeeded = true ∧ first.key = Text.normalize text := by
      simpa using List.find?_some found
    exact hit stored ((known.cached _ _).mpr
      ⟨first, List.mem_of_find?_eq_some found, same.2, returned⟩)
  · obtain ⟨first, member, -, enabled, -⟩ := first_enabled met known off returned declared
    rw [never first member] at enabled
    cases enabled
  · obtain ⟨stored, cached⟩ := (cached_iff_recalls known text).mpr recalled
    exact ⟨stored, hit stored cached⟩
  · refine (session.refused_iff .standard text _).mpr ⟨?_, ?_⟩
    · by_contra cached
      exact unknown ((cached_iff_recalls known text).mp (Option.ne_none_iff_exists'.mp cached))
    · have disabled : session.options.fragmentVariables = false := off
      simp only [Parser.read, Parser.standard, disabled, list_refused opens]
      rfl

/-- A list that is never closed is refused where it opens, behind another definition and a comment.
A text with variables was accepted before they were not allowed any more. -/
theorem unclosed_list_refused :
    let text := "\x7b a \x7d fragment F # (\n ($n: Int"
    let requests : List Request := [.setFragmentVariables true,
      .parse "fragment F($n: Int) on T \x7b a \x7d" [], .setFragmentVariables false]
    let session := (Session.start Session.defaultOptions).after .standard requests
    (session.parse .standard text []).result =
      .error (.returned (.malformed
        (.document ⟨⟨2, 2⟩, some (.token .punctuator "(")⟩))) := by
  intro text requests session
  let opening : Token := ⟨.punctuator, "(", ⟨⟨2, 2⟩, 22⟩⟩
  let tokens := (TokenStream.ofText (joinSources text []).toList).tokens
  have split : tokens = tokens.take 3 ++ ⟨.name, "fragment", ⟨⟨1, 7⟩, 6⟩⟩ ::
      ⟨.name, "F", ⟨⟨1, 16⟩, 15⟩⟩ :: opening :: tokens.drop 6 := by
    decide +kernel
  have opens : OpensList tokens opening := by
    rw [split]
    exact .behind (Or.inr (by decide +kernel)) (by decide) (by decide) (by decide)
  have others : ∀ exchange ∈ (History.ofRun .standard Session.defaultOptions requests).exchanges,
      exchange.key ≠ Text.normalize (joinSources text []) := by
    decide +kernel
  obtain ⟨-, -, refused⟩ := variables_while_disallowed Session.defaultOptions requests text []
    (by decide +kernel)
  refine (refused opening opens).2 ?_
  rintro ⟨exchange, member, same, -⟩
  exact others exchange member same

/-- The session goes on returning the variables of a fragment that it read while they were
allowed. -/
theorem variables_outlive_option :
    let text := "fragment F($a: Int) on T \x7b b(a: $a) \x7d"
    let session := (Session.start Session.defaultOptions).after .standard
      [.setFragmentVariables true, .parse text [], .setFragmentVariables false]
    session.options.fragmentVariables = false ∧
      ∃ stored, (session.parse .standard text []).result = .ok stored ∧
        stored.parsed.document.HasVariables := by
  intro text session
  have shown : (session.parse .standard text []).result.toOption.map (fun stored =>
      stored.parsed.document.fragments.map fun fragment =>
        fragment.variableDefinitions.map (·.name)) = some [["a"]] := by
    decide +kernel
  refine ⟨by decide +kernel, ?_⟩
  cases returned : (session.parse .standard text []).result with
  | error error =>
    rw [returned] at shown
    cases shown
  | ok stored =>
    rw [returned] at shown
    have names : stored.parsed.document.fragments.map (fun fragment =>
        fragment.variableDefinitions.map (·.name)) = [["a"]] := Option.some.inj shown
    obtain ⟨fragment, member, named⟩ : ∃ fragment ∈ stored.parsed.document.fragments,
        fragment.variableDefinitions.map (·.name) = ["a"] :=
      List.mem_map.mp (by rw [names]; simp)
    refine ⟨stored, rfl, fragment, member, fun none => ?_⟩
    rw [none] at named
    cases named

end QueryStore
