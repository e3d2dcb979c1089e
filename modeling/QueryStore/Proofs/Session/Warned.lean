import QueryStore.Proofs.Session.FragmentPass
import QueryStore.Proofs.Session.Orders

/-! The warnings of a session. What a document contradicts is warned of in the order of its
fragments, once each, if warnings are on (`retain_contradictions`), and nothing else is. So while
they are on every name is warned of as often as it gains a key behind its first one, in a turn
(`excess_turn`) and hence in turns (`excess_turns`), and the warnings since the last reset count the
variants of every name (`one_warning_per_variant`). -/
namespace QueryStore

namespace Registry

/-- A name and key that contradict a registry and the names and keys that came before: the name is
among them, but not with that key. -/
def Contradicts (registry : Registry) (before : List (String × String))
    (entry : String × String) : Prop :=
  ((registry.variants? entry.1).isSome = true ∨ entry.1 ∈ before.map Prod.fst) ∧
    entry.2 ∉ registry.keysOf entry.1 ∧ entry ∉ before

instance (registry : Registry) (before : List (String × String)) (entry : String × String) :
    Decidable (registry.Contradicts before entry) :=
  inferInstanceAs (Decidable (_ ∧ _ ∧ _))

/-- The names among names and keys that contradict a registry and what came before, in order. -/
def contradictions (registry : Registry) (before : List (String × String)) :
    List (String × String) → List String
  | [] => []
  | entry :: rest =>
    let others := registry.contradictions (before ++ [entry]) rest
    if registry.Contradicts before entry then entry.1 :: others else others

theorem observeAll_snoc (registry : Registry) (before : List (String × String))
    (entry : String × String) :
    registry.observeAll (before ++ [entry]) =
      ((registry.observeAll before).observe entry.1 entry.2).2 := List.foldl_concat ..

/-- A key is registered behind observations if it was before, or if it was observed. -/
theorem mem_keysOf_observeAll (registry : Registry) (entries : List (String × String))
    (name key : String) :
    key ∈ (registry.observeAll entries).keysOf name ↔
      key ∈ registry.keysOf name ∨ (name, key) ∈ entries := by
  induction entries using List.reverseRecOn with
  | nil => simp [observeAll]
  | append_singleton entries last ih =>
    rw [observeAll_snoc, mem_keysOf_observe, ih, or_assoc, List.mem_append, List.mem_singleton,
      Prod.ext_iff]

variable {registry : Registry} (sound : registry.Consistent)
include sound

theorem Consistent.observeAll (entries : List (String × String)) :
    (registry.observeAll entries).Consistent := by
  induction entries using List.reverseRecOn with
  | nil => exact sound
  | append_singleton entries last ih =>
    rw [observeAll_snoc]
    exact observe_consistent ih last.1 last.2

/-- An observation is a conflict when it contradicts the registry and the observations before. -/
theorem Consistent.contradicts_iff (before : List (String × String)) (entry : String × String) :
    ((registry.observeAll before).observe entry.1 entry.2).1 = .conflict ↔
      registry.Contradicts before entry := by
  have known : (registry.observeAll before).keysOf entry.1 ≠ [] ↔
      (registry.variants? entry.1).isSome = true ∨ entry.1 ∈ before.map Prod.fst := by
    rw [sound.known_iff]
    simp only [ne_eq, List.eq_nil_iff_forall_not_mem, not_forall, not_not, mem_keysOf_observeAll,
      exists_or, List.mem_map, Prod.exists, exists_and_right, exists_eq_right]
  rw [(sound.observeAll before).conflict_iff, known, mem_keysOf_observeAll, not_or]
  rfl

end Registry

/-- A document is in conflict with the registry by what it contradicts, in the order of its
fragments. -/
theorem retain_contradictions {registry : Registry} (sound : registry.Consistent)
    (seen : List String) (before : List (String × String)) (keyed : List KeyedDefinition) :
    (retain seen (registry.observeAll before) keyed).conflicts =
      registry.contradictions before (observations keyed) := by
  induction keyed generalizing seen before with
  | nil => rfl
  | cons definition rest ih =>
    cases definition with
    | operation operation => exact ih seen before
    | fragment fragment key =>
      have later := ih (key :: seen) (before ++ [(fragment.name, key)])
      rw [Registry.observeAll_snoc] at later
      have conflict := sound.contradicts_iff before (fragment.name, key)
      simp only [retain, observations, Registry.contradictions, conflict, later]
      split <;> rfl

/-- The warnings among events, in order. -/
def warned (events : List Event) : List Event := events.filter fun event => event.level = "WARN"

theorem warned_count (events : List Event) (name : String) :
    (warned events).count (.conflict name) = events.count (.conflict name) :=
  List.count_filter rfl

/-- What is said while a text is read is a warning if it tells of a conflict. -/
theorem warned_reading (key : String) (names : List String) (definitions : Nat) :
    warned (.parsing key :: (names.map .conflict ++ [.caching key definitions])) =
      names.map .conflict := by
  simp [warned, Event.level, List.filter_append]

namespace Session

/-- Warnings are on whenever one of the turns submits a text. -/
def Warns (session : Session) (turns : List Turn) : Prop :=
  ∀ before turn after, turns = before ++ turn :: after →
    ∀ source fragments, turn.request = .parse source fragments →
      (session.afterTurns before).options.warnOnConflict = true

/-- The warnings of turns, one after the other. -/
def warnedDuring (session : Session) (turns : List Turn) : List Event :=
  warned ((session.runTurns turns).flatMap Response.events)

section
variable {session : Session}

/-- While a text is submitted, warnings are given only if it is read, of what it contradicts. -/
theorem warned_submission (sound : session.registry.Consistent) (parser : Parser)
    (source : String) :
    let reply := session.parseDocument parser source
    (((session.cache.get? (Text.normalize source)).isSome = true ∨
        ∃ error, reply.result = .error error) → warned reply.events = []) ∧
    (session.cache.get? (Text.normalize source) = none → ∀ stored, reply.result = .ok stored →
      ∃ document, parser ⟨session.options.fragmentVariables⟩ source = .ok (.document document) ∧
        warned reply.events =
          if session.options.warnOnConflict then
            (session.registry.contradictions [] (document.fragments.map Fragment.entry)).map
              .conflict
          else []) := by
  intro reply
  rcases session.parse_document_cases parser source with
    ⟨stored, found, replied⟩ | ⟨error, missing, read, replied⟩ |
    ⟨document, keyed, missing, read, replied⟩
  · have quiet : warned reply.events = [] := by
      rw [show reply = _ from replied]
      rfl
    exact ⟨fun _ => quiet, fun missing => by simp [found] at missing⟩
  · have quiet : warned reply.events = [] := by
      rw [show reply = _ from replied]
      rfl
    refine ⟨fun _ => quiet, fun _ stored answered => ?_⟩
    rw [show reply = _ from replied] at answered
    cases answered
  · obtain ⟨parsed, keys⟩ := Parser.read_ok read
    refine ⟨?_, fun _ stored _ => ⟨document, parsed, ?_⟩⟩
    · rintro (held | ⟨error, failed⟩)
      · simp [missing] at held
      · rw [show reply = _ from replied] at failed
        cases failed
    · rw [show reply = _ from replied, warned_reading, warnings, Document.fragments]
      have conflicts := retain_contradictions sound [] [] keyed
      rw [keyed_entries keys] at conflicts
      split
      · exact congrArg (List.map Event.conflict) conflicts
      · rfl

/-- A turn that clears nothing is warned of, if warnings are on, as often as a name gains a key
behind its first one. -/
theorem excess_turn (sound : session.registry.Consistent) {turn : Turn}
    (keeps : turn.request ≠ .reset)
    (on : ∀ source fragments, turn.request = .parse source fragments →
      session.options.warnOnConflict = true) (name : String) :
    (session.turn turn).registry.excess name = session.registry.excess name +
      (session.perform turn.parser turn.request).events.count (.conflict name) := by
  rw [Session.turn]
  cases request : turn.request with
  | parse source fragments =>
    have counted := session.behind_warnings turn.parser (joinSources source fragments) sound name
    rw [if_pos (on source fragments request)] at counted
    exact counted
  | reset => exact absurd request keeps
  | setFragmentVariables enabled => rfl
  | setWarnOnConflict enabled => rfl

theorem turn_consistent (sound : session.registry.Consistent) (turn : Turn) :
    (session.turn turn).registry.Consistent := by
  rw [Session.turn]
  cases turn.request with
  | parse source fragments =>
    exact behind_consistent turn.parser session (joinSources source fragments) sound
  | reset => exact Registry.empty_consistent
  | setFragmentVariables enabled => exact sound
  | setWarnOnConflict enabled => exact sound

/-- Turns that clear nothing are warned of as often as a name gains a key behind its first one. -/
theorem excess_turns (sound : session.registry.Consistent) {turns : List Turn}
    (keeps : ∀ turn ∈ turns, turn.request ≠ .reset) (on : session.Warns turns) (name : String) :
    (session.afterTurns turns).registry.excess name =
      session.registry.excess name + (session.warnedDuring turns).count (.conflict name) := by
  rw [warnedDuring, warned_count]
  induction turns generalizing session with
  | nil => rfl
  | cons turn turns ih =>
    obtain ⟨first, others⟩ := List.forall_mem_cons.mp keeps
    have here := excess_turn sound first (on [] turn turns rfl) name
    have later : (session.turn turn).Warns turns := fun before next after split =>
      on (turn :: before) next after (congrArg (turn :: ·) split)
    have rest := ih (turn_consistent sound turn) others later
    rw [here] at rest
    rw [runTurns, List.flatMap_cons, List.count_append, ← Nat.add_assoc]
    exact rest

/-- Warnings that are on stay on unless they are switched off. -/
theorem warns_of_untouched {turns : List Turn} (on : session.options.warnOnConflict = true)
    (untouched : ∀ turn ∈ turns, turn.request ≠ .setWarnOnConflict false) :
    session.Warns turns := by
  intro before turn after split _ _ _
  have earlier : ∀ turn ∈ before, turn.request ≠ .setWarnOnConflict false :=
    fun turn member => untouched turn (split ▸ List.mem_append_left _ member)
  clear split
  induction before generalizing session with
  | nil => exact on
  | cons first before ih =>
    obtain ⟨own, others⟩ := List.forall_mem_cons.mp earlier
    refine ih ?_ others
    rw [Session.turn]
    cases request : first.request with
    | parse source fragments =>
      have same := session.behind_options first.parser (joinSources source fragments)
      exact (congrArg SessionOptions.warnOnConflict same).trans on
    | reset => exact on
    | setFragmentVariables enabled => exact on
    | setWarnOnConflict enabled =>
      cases enabled with
      | true => rfl
      | false => exact absurd request own

end
end Session

/-- **One warning per new variant.** Whatever parsers a session meets and whatever is asked of it:
when a text is read that was not cached, the warnings name, in order, the fragments of its document
whose key is not registered although their name is, where the fragments before them in the document
count as registered; there are none if warnings are off, and none for texts that are answered from
the cache or fail. So if warnings were on since the session was last reset, every registered name
was warned of once for each of its variants but one. -/
theorem one_warning_per_variant (options : SessionOptions) (turns : List Turn) :
    let session := (Session.start options).afterTurns turns
    (∀ (parser : Parser) (source : String) (fragments : List ParsedDocument),
      let text := joinSources source fragments
      let response := session.perform parser (.parse source fragments)
      (((session.cache.get? (Text.normalize text)).isSome = true ∨
        ∃ error, response.result = some (.error error)) → warned response.events = []) ∧
      (session.cache.get? (Text.normalize text) = none →
        ∀ stored, response.result = some (.ok stored) →
          ∃ document, parser ⟨session.options.fragmentVariables⟩ text = .ok (.document document) ∧
            warned response.events =
              if session.options.warnOnConflict then
                (session.registry.contradictions [] (document.fragments.map Fragment.entry)).map
                  .conflict
              else [])) ∧
    ∀ earlier later, turns = earlier ++ later →
      (earlier = [] ∨ ∃ before last, earlier = before ++ [last] ∧ last.request = .reset) →
      (∀ turn ∈ later, turn.request ≠ .reset) →
      ((Session.start options).afterTurns earlier).Warns later →
      ∀ name keys, session.registry.variants? name = some keys →
        (((Session.start options).afterTurns earlier).warnedDuring later).count (.conflict name) + 1
          = keys.length := by
  intro session
  have sound : session.registry.Consistent :=
    (coherent_turns (coherent_cleared [] rfl rfl) turns).consistent
  constructor
  · intro parser source fragments text response
    obtain ⟨quiet, named⟩ := Session.warned_submission sound parser text
    exact ⟨fun silent => quiet (silent.imp_right fun ⟨error, failed⟩ =>
      ⟨error, Option.some.inj failed⟩), fun missing stored answered =>
      named missing stored (Option.some.inj answered)⟩
  · intro earlier later split cleared keeps on name keys held
    have empty : ((Session.start options).afterTurns earlier).registry = .empty := by
      rcases cleared with rfl | ⟨before, last, rfl, reset⟩
      · rfl
      · rw [Session.afterTurns, List.foldl_concat, Session.turn, reset]
        rfl
    have counted := Session.excess_turns (empty ▸ Registry.empty_consistent) keeps on name
    have whole : ((Session.start options).afterTurns earlier).afterTurns later = session := by
      simp only [session, split, Session.afterTurns, List.foldl_append]
    have none : Registry.empty.excess name = 0 := rfl
    have filled : keys ≠ [] := (sound.keys _ (mem_of_lookup held)).2
    rw [whole, empty, none, Nat.zero_add, Registry.excess, Registry.keysOf, held,
      Option.getD_some] at counted
    rw [← counted]
    exact Nat.sub_one_add_one (List.length_pos_iff.mpr filled).ne.symm

/-- A name gets two more variants in one document, which also repeats one of them, and none in a
text that fails and in one that is known. What came before the reset does not count. -/
theorem repeated_variants_warned_once :
    let parse (source : String) : Turn := ⟨.standard, .parse source []⟩
    let before := [parse "fragment F on T \x7b z \x7d", ⟨.standard, .reset⟩]
    let text := "fragment F on T \x7b b \x7d fragment F on T \x7b a \x7d fragment F on T \x7b c \x7d"
    let later := [parse "fragment F on T \x7b a \x7d", parse text, parse "\x7b", parse text]
    let session := (Session.start Session.defaultOptions).afterTurns before
    (∃ keys, (session.afterTurns later).registry.variants? "F" = some keys ∧ keys.length = 3) ∧
      (session.warnedDuring later).count (.conflict "F") = 2 ∧
      session.registry.contradictions [("F", "a")] [("F", "b"), ("F", "a"), ("F", "c")] =
        ["F", "F"] := by
  intro parse before text later session
  have whole : session.afterTurns later =
      (Session.start Session.defaultOptions).afterTurns (before ++ later) := by
    simp only [session, Session.afterTurns, List.foldl_append]
  have variants : ((session.afterTurns later).registry.variants? "F").map List.length = some 3 := by
    decide +kernel
  obtain ⟨keys, held, three⟩ := Option.map_eq_some_iff.mp variants
  have keeps : ∀ turn ∈ later, turn.request ≠ .reset := by simp [later, parse]
  have on : session.Warns later :=
    Session.warns_of_untouched (by decide +kernel) (by simp [later, parse])
  obtain ⟨-, counted⟩ := one_warning_per_variant Session.defaultOptions (before ++ later)
  have own := counted before later rfl (.inr ⟨[parse _], ⟨.standard, .reset⟩, rfl, rfl⟩) keeps on
    "F" keys (whole ▸ held)
  rw [three] at own
  exact ⟨⟨keys, held, three⟩, Nat.succ.inj own, by decide +kernel⟩

end QueryStore
