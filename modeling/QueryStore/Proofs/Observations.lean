import Mathlib.Data.Finset.Card
import Mathlib.Data.List.Dedup
import Mathlib.Data.List.DropRight
import QueryStore.Proofs.Variants

/-! A registry is the history of its observations. Whatever it was asked, it holds exactly what
was observed since it was last cleared: under each name the keys in the order in which they first
came (`Records`). One action keeps this (`records_step`), hence all do (`records_run`); sizes,
conflicts and the answer to the next observation are read off the history
(`registry_is_history`). -/
namespace QueryStore.Registry

/-- What a registry can be asked to do. -/
inductive Action
  | observe (name key : String)
  | clear
deriving DecidableEq, Repr

namespace Action

/-- Any action but one that clears the registry. -/
def keeps : Action → Bool
  | observe .. => true
  | clear => false

/-- The name and key that are observed. -/
def observed? : Action → Option (String × String)
  | observe name key => some (name, key)
  | clear => none

end Action

/-- The registry after an action. -/
def act (registry : Registry) : Action → Registry
  | .observe name key => (registry.observe name key).2
  | .clear => empty

/-- The registry after a list of actions. -/
def afterAll (registry : Registry) (actions : List Action) : Registry := actions.foldl act registry

/-- The names and keys that were observed since the registry was last cleared. -/
def sinceCleared (actions : List Action) : List (String × String) :=
  (actions.rtakeWhile Action.keeps).filterMap Action.observed?

/-- The distinct keys under a name in a history, in the order in which they first came. -/
def keysWithin (history : List (String × String)) (name : String) : List String :=
  ((history.filter fun entry => entry.1 = name).map Prod.snd).eraseDups

/-- What is known of a name in a history; nothing if it did not come. -/
def variantsWithin (history : List (String × String)) (name : String) : Option (List String) :=
  if name ∈ history.map Prod.fst then some (keysWithin history name) else none

theorem mem_keysWithin {history : List (String × String)} {name key : String} :
    key ∈ keysWithin history name ↔ (name, key) ∈ history := by
  simp [keysWithin]

theorem keysWithin_snoc_self (history : List (String × String)) (name key : String) :
    keysWithin (history ++ [(name, key)]) name =
      if key ∈ keysWithin history name then keysWithin history name
      else keysWithin history name ++ [key] := by
  have known : key ∈ keysWithin history name ↔
      key ∈ (history.filter fun entry => entry.1 = name).map Prod.snd := List.mem_eraseDups
  simp only [known]
  simp only [keysWithin, List.filter_append, List.map_append, List.eraseDups_append]
  by_cases earlier : key ∈ (history.filter fun entry => entry.1 = name).map Prod.snd
  · simp [List.cons_removeAll, earlier]
  · simp [List.cons_removeAll, earlier, List.eraseDups_cons]

theorem keysWithin_snoc_other {name other : String} (differ : other ≠ name)
    (history : List (String × String)) (key : String) :
    keysWithin (history ++ [(name, key)]) other = keysWithin history other := by
  simp [keysWithin, Ne.symm differ]

/-- A registry holds what a history says of every name. -/
structure Records (history : List (String × String)) (registry : Registry) : Prop where
  consistent : registry.Consistent
  variants : ∀ name, registry.variants? name = variantsWithin history name

section
variable {history : List (String × String)} {registry : Registry}

theorem records_empty : Records [] empty := ⟨empty_consistent, fun _ => rfl⟩

namespace Records
variable (records : Records history registry)
include records

theorem keysOf_eq (name : String) : registry.keysOf name = keysWithin history name := by
  rw [keysOf, records.variants, variantsWithin]
  split
  · rfl
  · next absent =>
    refine (List.eq_nil_iff_forall_not_mem.mpr fun key member => absent ?_).symm
    exact List.mem_map_of_mem (f := Prod.fst) (mem_keysWithin.mp member)

/-- What is observed comes to the end of the history. -/
theorem observe (name key : String) :
    Records (history ++ [(name, key)]) (registry.observe name key).2 where
  consistent := observe_consistent records.consistent name key
  variants := by
    intro other
    by_cases same : other = name
    · subst other
      simp [variants_observe_self, records.keysOf_eq, variantsWithin, keysWithin_snoc_self]
    · have named : other ∈ (history ++ [(name, key)]).map Prod.fst ↔
          other ∈ history.map Prod.fst := by
        simp only [List.map_append, List.mem_append, List.map_singleton, List.mem_singleton,
          same, or_false]
      simp only [variants_observe_other same, records.variants, variantsWithin,
        keysWithin_snoc_other same, named]

/-- The names that a registry has entries for are those of the history. -/
theorem mem_names (name : String) :
    name ∈ registry.entries.map Prod.fst ↔ name ∈ history.map Prod.fst := by
  have found : name ∈ registry.entries.map Prod.fst ↔ (registry.variants? name).isSome = true := by
    simp only [variants?, List.lookup_isSome_iff, List.mem_map, beq_iff_eq]
    exact exists_congr fun entry => and_congr_right fun _ => eq_comm
  rw [found, records.variants, variantsWithin]
  split
  · next named => exact iff_of_true rfl named
  · next unnamed => exact iff_of_false Bool.false_ne_true unnamed

theorem size_eq : registry.size = (history.map Prod.fst).toFinset.card := by
  have same : (history.map Prod.fst).toFinset = (registry.entries.map Prod.fst).toFinset := by
    ext name
    simp only [List.mem_toFinset, records.mem_names]
  rw [same, List.toFinset_card_of_nodup records.consistent.names, List.length_map, size]

/-- The conflicts are the names with two keys, each with all of its keys. -/
theorem mem_conflicts (name : String) (keys : List String) :
    (name, keys) ∈ registry.conflicts ↔
      variantsWithin history name = some keys ∧ 2 ≤ keys.length := by
  rw [← records.variants]
  simp only [conflicts, List.mem_mergeSort, List.mem_filter, decide_eq_true_eq]
  refine and_congr_left fun _ => ⟨fun member => ?_, mem_of_lookup⟩
  exact records.consistent.lookup_eq member

/-- What the next observation is depends on whether the history has its name, and its key
under that name. -/
theorem judged (name key : String) :
    (registry.observe name key).1 =
      if (name, key) ∈ history then .known
      else if name ∈ history.map Prod.fst then .conflict
      else .new := by
  simp only [Registry.observe, judge, records.variants, variantsWithin]
  by_cases named : name ∈ history.map Prod.fst
  · simp only [if_pos named, mem_keysWithin]
  · have unseen : (name, key) ∉ history := fun member =>
      named (List.mem_map_of_mem (f := Prod.fst) member)
    simp only [if_neg named, if_neg unseen]

end Records

/-- One action keeps a registry and its history in step. -/
theorem records_step {actions : List Action} (records : Records (sinceCleared actions) registry)
    (action : Action) : Records (sinceCleared (actions ++ [action])) (registry.act action) := by
  cases action with
  | observe name key =>
    have later : sinceCleared (actions ++ [.observe name key]) =
        sinceCleared actions ++ [(name, key)] := by
      simp [sinceCleared, List.rtakeWhile_concat, Action.keeps, Action.observed?]
    rw [later]
    exact records.observe name key
  | clear =>
    have forgotten : sinceCleared (actions ++ [.clear]) = [] := by
      simp [sinceCleared, Action.keeps]
    rw [forgotten]
    exact records_empty

end

/-- After any actions a registry holds what was observed since it was last cleared. -/
theorem records_run (actions : List Action) :
    Records (sinceCleared actions) (empty.afterAll actions) := by
  induction actions using List.reverseRecOn with
  | nil => exact records_empty
  | append_singleton actions action ih =>
    rw [afterAll, List.foldl_concat]
    exact records_step ih action

/-- **The registry is the exact history of observations.** After any actions, and counting only
what was observed since the registry was last cleared: a name has the keys observed under it in
the order in which they first came, and none if it was not observed; the size is the number of
names; the conflicts ascend by name and are the names with at least two keys, each with all of
them. The next observation is known if its name and key were observed together, a conflict if
only its name was, and new otherwise; a known one changes nothing, and none touches another name. -/
theorem registry_is_history (actions : List Action) :
    let registry := empty.afterAll actions
    let history := sinceCleared actions
    (∀ name, registry.variants? name = variantsWithin history name) ∧
    registry.size = (history.map Prod.fst).toFinset.card ∧
    (registry.isEmpty = true ↔ registry.size = 0) ∧
    (registry.conflicts.map Prod.fst).Pairwise (· < ·) ∧
    (∀ name keys, (name, keys) ∈ registry.conflicts ↔
      variantsWithin history name = some keys ∧ 2 ≤ keys.length) ∧
    ∀ name key,
      (registry.observe name key).1 =
        (if (name, key) ∈ history then .known
        else if name ∈ history.map Prod.fst then .conflict
        else .new) ∧
      ((name, key) ∈ history → (registry.observe name key).2 = registry) ∧
      ∀ other ≠ name,
        (registry.observe name key).2.variants? other = registry.variants? other := by
  intro registry history
  have records : Records history registry := records_run actions
  refine ⟨records.variants, records.size_eq, ?_, records.consistent.conflicts_ascend,
    records.mem_conflicts, fun name key => ⟨records.judged name key, fun repeated => ?_,
      fun other differ => variants_observe_other differ registry key⟩⟩
  · simp [isEmpty, size]
  · apply observe_known
    rw [records.keysOf_eq]
    exact mem_keysWithin.mpr repeated

/-- What came before the registry was cleared does not count, and keys of two names may alternate.
A key that came again does not move, and observing it once more changes nothing. -/
theorem alternating_names_recorded :
    let actions : List Action := [.observe "E" "q", .clear, .observe "F" "p", .observe "E" "r",
      .observe "F" "q", .observe "F" "p"]
    let registry := empty.afterAll actions
    registry.variants? "E" = some ["r"] ∧ ("F", ["p", "q"]) ∈ registry.conflicts ∧
      registry.size = 2 ∧ ("F", "p") ∈ sinceCleared actions ∧
      (registry.observe "F" "p").2 = registry ∧ (registry.observe "E" "q").1 = .conflict := by
  intro actions registry
  obtain ⟨variants, size, -, -, conflicts, next⟩ := registry_is_history actions
  have repeated : ("F", "p") ∈ sinceCleared actions := by decide +kernel
  obtain ⟨-, unchanged, -⟩ := next "F" "p"
  obtain ⟨judged, -⟩ := next "E" "q"
  refine ⟨(variants "E").trans (by decide +kernel), (conflicts _ _).mpr (by decide +kernel),
    size.trans (by decide +kernel), repeated, unchanged repeated, judged.trans (by decide +kernel)⟩

end QueryStore.Registry
