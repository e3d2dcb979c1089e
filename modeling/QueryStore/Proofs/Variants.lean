import Mathlib.Data.List.Nodup
import Mathlib.Data.List.Forall2
import Mathlib.Data.String.Basic
import QueryStore.Session

/-! What the registry holds after observations. Under every name stand exactly the
keys observed under it, each once, so that a name is a conflict exactly when two different
keys were observed. `retain` observes every fragment of a document, the repeated ones
included, and reports a conflict under a name whenever it gains a key behind its first
(`retain_excess`). -/
namespace QueryStore

/-- What an association list yields is one of its entries. -/
theorem mem_of_lookup {α : Type} {entries : List (String × α)} {key : String} {value : α}
    (found : entries.lookup key = some value) : (key, value) ∈ entries := by
  obtain ⟨before, after, rfl, -⟩ := List.lookup_eq_some_iff.mp found
  simp

/-- An association list with each key once yields each of its entries. -/
theorem lookup_of_mem {α : Type} {entries : List (String × α)}
    (distinct : (entries.map Prod.fst).Nodup) {entry : String × α}
    (member : entry ∈ entries) : entries.lookup entry.1 = some entry.2 := by
  obtain ⟨before, after, rfl⟩ := List.append_of_mem member
  refine List.lookup_eq_some_iff.mpr ⟨before, after, rfl, ?_⟩
  intro other earlier
  rw [List.map_append, List.nodup_append] at distinct
  have differ := distinct.2.2 other.1 (List.mem_map_of_mem earlier) entry.1 (by simp)
  simpa using Ne.symm differ

namespace Registry

/-- The keys observed under a name; none if the name is not known. -/
def keysOf (registry : Registry) (name : String) : List String :=
  (registry.variants? name).getD []

/-- Each name has one entry, with at least one key and no key twice. -/
structure Consistent (registry : Registry) : Prop where
  names : (registry.entries.map Prod.fst).Nodup
  keys : ∀ entry ∈ registry.entries, entry.2.Nodup ∧ entry.2 ≠ []

/-- A name is listed when it is among the conflicts. -/
def Lists (registry : Registry) (name : String) : Prop :=
  name ∈ registry.conflicts.map Prod.fst

theorem empty_consistent : empty.Consistent := ⟨List.nodup_nil, by simp [empty]⟩

private theorem lookup_insert_self (name key : String) (entries : List (String × List String)) :
    (insert name key entries).lookup name =
      some (if key ∈ (entries.lookup name).getD [] then (entries.lookup name).getD []
        else (entries.lookup name).getD [] ++ [key]) := by
  induction entries with
  | nil => simp [insert]
  | cons entry rest ih =>
    obtain ⟨other, keys⟩ := entry
    by_cases same : other = name
    · subst other
      simp [insert]
    · have differ : (name == other) = false := beq_false_of_ne (Ne.symm same)
      simp only [insert, if_neg same, List.lookup_cons, differ, ih]

private theorem lookup_insert_other {name other : String} (differ : other ≠ name) (key : String)
    (entries : List (String × List String)) :
    (insert name key entries).lookup other = entries.lookup other := by
  induction entries with
  | nil => simp [insert, List.lookup_cons, beq_false_of_ne differ]
  | cons entry rest ih =>
    obtain ⟨first, keys⟩ := entry
    by_cases same : first = name
    · subst first
      simp [insert, List.lookup_cons, beq_false_of_ne differ]
    · simp only [insert, if_neg same, List.lookup_cons, ih]

/-- An observation adds its key under its name and changes nothing else. -/
theorem mem_keysOf_observe (registry : Registry) (name key other variant : String) :
    variant ∈ (registry.observe name key).2.keysOf other ↔
      variant ∈ registry.keysOf other ∨ (other = name ∧ variant = key) := by
  simp only [keysOf, variants?, observe]
  by_cases same : other = name
  · subst other
    rw [lookup_insert_self]
    simp only [Option.getD_some, true_and]
    split
    · next known =>
      exact ⟨Or.inl, fun held => held.elim id fun equal => equal ▸ known⟩
    · simp
  · rw [lookup_insert_other same]
    simp [same]

/-- An observation may add a key behind those of a name, and moves none. -/
theorem variants_observe {registry : Registry} {other : String} {keys : List String}
    (held : registry.variants? other = some keys) (name key : String) :
    ∃ more, (registry.observe name key).2.variants? other = some (keys ++ more) := by
  simp only [variants?, observe] at held ⊢
  by_cases same : other = name
  · subst other
    rw [lookup_insert_self, held, Option.getD_some]
    split
    · exact ⟨[], by rw [List.append_nil]⟩
    · exact ⟨[key], rfl⟩
  · exact ⟨[], by rw [lookup_insert_other same, held, List.append_nil]⟩

private theorem insert_names (name key : String) (entries : List (String × List String)) :
    (insert name key entries).map Prod.fst =
      if name ∈ entries.map Prod.fst then entries.map Prod.fst
      else entries.map Prod.fst ++ [name] := by
  induction entries with
  | nil => simp [insert]
  | cons entry rest ih =>
    obtain ⟨first, keys⟩ := entry
    by_cases same : first = name
    · simp [insert, same]
    · simp only [insert, if_neg same, List.map_cons, ih, List.mem_cons, Ne.symm same, false_or]
      split <;> simp

private theorem insert_keys {name key : String} {entries : List (String × List String)}
    (sound : ∀ entry ∈ entries, entry.2.Nodup ∧ entry.2 ≠ []) :
    ∀ entry ∈ insert name key entries, entry.2.Nodup ∧ entry.2 ≠ [] := by
  induction entries with
  | nil => simp [insert]
  | cons entry rest ih =>
    obtain ⟨first, keys⟩ := entry
    obtain ⟨⟨distinct, filled⟩, others⟩ := List.forall_mem_cons.mp sound
    by_cases same : first = name
    · simp only [insert, if_pos same]
      refine List.forall_mem_cons.mpr ⟨?_, others⟩
      by_cases known : key ∈ keys
      · simpa [known] using ⟨distinct, filled⟩
      · simp only [if_neg known]
        exact ⟨List.nodup_append.mpr ⟨distinct, List.nodup_singleton key, by
          rintro held member _ (_ | ⟨_, ⟨⟩⟩) rfl; exact known member⟩, by simp⟩
    · simp only [insert, if_neg same]
      exact List.forall_mem_cons.mpr ⟨⟨distinct, filled⟩, ih others⟩

theorem observe_consistent {registry : Registry} (sound : registry.Consistent)
    (name key : String) : (registry.observe name key).2.Consistent := by
  refine ⟨?_, insert_keys sound.keys⟩
  simp only [observe, insert_names]
  split
  · exact sound.names
  · next unknown =>
    refine List.nodup_append.mpr ⟨sound.names, List.nodup_singleton name, ?_⟩
    rintro held member _ (_ | ⟨_, ⟨⟩⟩) rfl
    exact unknown member

theorem Consistent.lookup_eq {registry : Registry} (sound : registry.Consistent)
    {entry : String × List String} (member : entry ∈ registry.entries) :
    registry.variants? entry.1 = some entry.2 := lookup_of_mem sound.names member

private theorem two_distinct_of_length {keys : List String} (distinct : keys.Nodup)
    (long : 2 ≤ keys.length) : ∃ first ∈ keys, ∃ second ∈ keys, first ≠ second := by
  match keys, distinct, long with
  | first :: second :: rest, distinct, _ =>
    refine ⟨first, by simp, second, by simp, ?_⟩
    rintro rfl
    exact (List.nodup_cons.mp distinct).1 (by simp)

private theorem length_of_two_distinct {keys : List String} {first second : String}
    (left : first ∈ keys) (right : second ∈ keys) (differ : first ≠ second) :
    2 ≤ keys.length := by
  match keys, left, right with
  | [only], left, right =>
    exact absurd ((List.mem_singleton.mp left).trans (List.mem_singleton.mp right).symm) differ
  | _ :: _ :: _, _, _ => simp

/-- A name is listed exactly when two different keys were observed under it. -/
theorem lists_iff {registry : Registry} (sound : registry.Consistent) (name : String) :
    registry.Lists name ↔
      ∃ first ∈ registry.keysOf name, ∃ second ∈ registry.keysOf name, first ≠ second := by
  simp only [Lists, conflicts, List.mem_map, List.mem_mergeSort, List.mem_filter,
    decide_eq_true_eq]
  constructor
  · rintro ⟨entry, ⟨member, long⟩, rfl⟩
    have found : registry.keysOf entry.1 = entry.2 := by
      simp [keysOf, variants?, lookup_of_mem sound.names member]
    rw [found]
    exact two_distinct_of_length (sound.keys entry member).1 long
  · rintro ⟨first, left, second, right, differ⟩
    cases found : registry.variants? name with
    | none => simp [keysOf, found] at left
    | some keys =>
      simp only [keysOf, found, Option.getD_some] at left right
      exact ⟨(name, keys), ⟨mem_of_lookup found, length_of_two_distinct left right differ⟩, rfl⟩

/-- A name is known exactly when some key was observed under it. -/
theorem Consistent.known_iff {registry : Registry} (sound : registry.Consistent) (name : String) :
    (registry.variants? name).isSome = true ↔ registry.keysOf name ≠ [] := by
  cases found : registry.variants? name with
  | none => simp [keysOf, found]
  | some keys => simp [keysOf, found, (sound.keys _ (mem_of_lookup found)).2]

theorem Consistent.keysOf_nodup {registry : Registry} (sound : registry.Consistent)
    (name : String) : (registry.keysOf name).Nodup := by
  cases found : registry.variants? name with
  | none => simp [keysOf, found]
  | some keys => simpa [keysOf, found] using (sound.keys _ (mem_of_lookup found)).1

/-- The conflicts are the names that are listed, each with the keys observed under it. -/
theorem Consistent.conflicts_eq {registry : Registry} (sound : registry.Consistent) :
    registry.conflicts =
      (registry.conflicts.map Prod.fst).map fun name => (name, registry.keysOf name) := by
  have own : ∀ entry ∈ registry.conflicts, (entry.1, registry.keysOf entry.1) = entry := by
    intro entry member
    simp only [conflicts, List.mem_mergeSort, List.mem_filter] at member
    simp [keysOf, variants?, lookup_of_mem sound.names member.1]
  rw [List.map_map]
  exact ((List.map_congr_left own).trans (List.map_id _)).symm

/-- The names of the conflicts ascend. -/
theorem Consistent.conflicts_ascend {registry : Registry} (sound : registry.Consistent) :
    (registry.conflicts.map Prod.fst).Pairwise (· < ·) := by
  have sorted : (registry.conflicts.map Prod.fst).Pairwise (· ≤ ·) := by
    refine List.pairwise_map.mpr ?_
    simpa [conflicts] using @List.pairwise_mergeSort _
      (fun left right : String × List String => decide (left.1 ≤ right.1))
      (by simpa using fun _ _ _ => String.le_trans) (by simpa using fun _ _ => String.le_total _ _)
      (registry.entries.filter fun entry => 2 ≤ entry.2.length)
  have distinct : (registry.conflicts.map Prod.fst).Nodup := by
    refine ((List.mergeSort_perm _ _).map Prod.fst).nodup_iff.mpr ?_
    exact (List.filter_sublist.map Prod.fst).nodup sound.names
  exact sorted.imp₂ (fun _ _ below differ => lt_of_le_of_ne below differ) distinct

/-- Registries that hold the same keys list the same names with the same keys. -/
theorem Consistent.conflicts_alike {registry other : Registry} (sound : registry.Consistent)
    (sound' : other.Consistent)
    (same : ∀ name key, key ∈ registry.keysOf name ↔ key ∈ other.keysOf name) :
    List.Forall₂ (fun left right => left.1 = right.1 ∧ left.2.Perm right.2)
      registry.conflicts other.conflicts := by
  have names : registry.conflicts.map Prod.fst = other.conflicts.map Prod.fst := by
    have ascend := sound.conflicts_ascend
    have ascend' := sound'.conflicts_ascend
    refine List.Perm.eq_of_pairwise (fun _ _ _ _ below above => (lt_asymm below above).elim)
      ascend ascend' ?_
    refine (List.perm_ext_iff_of_nodup (ascend.imp ne_of_lt) (ascend'.imp ne_of_lt)).mpr ?_
    intro name
    have listed := lists_iff sound name
    have listed' := lists_iff sound' name
    simp only [same] at listed
    exact listed.trans listed'.symm
  rw [sound.conflicts_eq, sound'.conflicts_eq, names, List.forall₂_map_left_iff,
    List.forall₂_map_right_iff, List.forall₂_same]
  intro name _
  exact ⟨rfl, (List.perm_ext_iff_of_nodup (sound.keysOf_nodup name)
    (sound'.keysOf_nodup name)).mpr (same name)⟩

/-- The number of keys under a name behind the first one. -/
def excess (registry : Registry) (name : String) : Nat := (registry.keysOf name).length - 1

theorem variants_observe_self (registry : Registry) (name key : String) :
    (registry.observe name key).2.variants? name =
      some (if key ∈ registry.keysOf name then registry.keysOf name
        else registry.keysOf name ++ [key]) := by
  simp only [variants?, observe, lookup_insert_self]
  rfl

theorem variants_observe_other {name other : String} (differ : other ≠ name)
    (registry : Registry) (key : String) :
    (registry.observe name key).2.variants? other = registry.variants? other := by
  simp only [variants?, observe, lookup_insert_other differ]

private theorem insert_known {name key : String} {entries : List (String × List String)}
    (known : key ∈ (entries.lookup name).getD []) : insert name key entries = entries := by
  induction entries with
  | nil => simp at known
  | cons entry rest ih =>
    obtain ⟨other, keys⟩ := entry
    by_cases same : other = name
    · subst other
      simp only [List.lookup_cons, beq_self_eq_true, Option.getD_some] at known
      simp [insert, known]
    · have differ : (name == other) = false := beq_false_of_ne (Ne.symm same)
      simp only [List.lookup_cons, differ] at known
      simp only [insert, if_neg same, ih known]

/-- A repeated observation changes nothing. -/
theorem observe_known {registry : Registry} {name key : String}
    (known : key ∈ registry.keysOf name) : (registry.observe name key).2 = registry := by
  simp only [observe, insert_known known]

theorem keysOf_observe_self (registry : Registry) (name key : String) :
    (registry.observe name key).2.keysOf name =
      if key ∈ registry.keysOf name then registry.keysOf name
      else registry.keysOf name ++ [key] := by
  simp only [keysOf, variants_observe_self, Option.getD_some]

theorem keysOf_observe_other {name other : String} (differ : other ≠ name) (registry : Registry)
    (key : String) : (registry.observe name key).2.keysOf other = registry.keysOf other := by
  simp only [keysOf, variants_observe_other differ]

/-- An observation is a conflict when there are keys under the name, and it is none of them. -/
theorem Consistent.conflict_iff {registry : Registry} (sound : registry.Consistent)
    (name key : String) : (registry.observe name key).1 = .conflict ↔
      registry.keysOf name ≠ [] ∧ key ∉ registry.keysOf name := by
  simp only [observe, judge, keysOf]
  cases found : registry.variants? name with
  | none => simp
  | some keys =>
    have filled : keys ≠ [] := (sound.keys _ (mem_of_lookup found)).2
    by_cases known : key ∈ keys <;> simp [known, filled]

/-- An observation adds a key behind the first one exactly if it is a conflict. -/
theorem Consistent.observe_excess {registry : Registry} (sound : registry.Consistent)
    (name key other : String) :
    (registry.observe name key).2.excess other = registry.excess other +
      if (registry.observe name key).1 = .conflict ∧ name = other then 1 else 0 := by
  by_cases same : name = other
  · subst other
    simp only [excess, keysOf_observe_self, sound.conflict_iff]
    by_cases known : key ∈ registry.keysOf name
    · simp [known]
    · cases held : registry.keysOf name with
      | nil => simp
      | cons first rest =>
        rw [held] at known
        simp [known]
  · simp [excess, keysOf_observe_other (Ne.symm same), same]

/-- An observation that contradicts an earlier one leaves two keys under its name. -/
theorem conflict_leaves_two {registry : Registry} (sound : registry.Consistent)
    {name key : String} (conflict : (registry.observe name key).1 = .conflict) :
    ∃ held ∈ registry.keysOf name, held ≠ key := by
  simp only [observe, judge] at conflict
  cases found : registry.variants? name with
  | none => simp [found] at conflict
  | some keys =>
    simp only [found] at conflict
    split at conflict
    · simp at conflict
    · next unknown =>
      obtain ⟨held, rest, rfl⟩ := List.exists_cons_of_ne_nil
        (sound.keys _ (mem_of_lookup found)).2
      refine ⟨held, by simp [keysOf, found], ?_⟩
      rintro rfl
      simp at unknown

end Registry

/-- The name and key of every fragment among keyed definitions, in order. -/
def observations : List KeyedDefinition → List (String × String)
  | [] => []
  | .operation _ :: rest => observations rest
  | .fragment fragment key :: rest => (fragment.name, key) :: observations rest

/-- Every fragment is observed, whether it stays in the document or not. -/
theorem mem_keysOf_retain (seen : List String) (registry : Registry)
    (keyed : List KeyedDefinition) (name variant : String) :
    variant ∈ (retain seen registry keyed).registry.keysOf name ↔
      variant ∈ registry.keysOf name ∨ (name, variant) ∈ observations keyed := by
  induction keyed generalizing seen registry with
  | nil => simp [retain, observations]
  | cons definition rest ih =>
    cases definition with
    | operation operation => simpa [retain, observations] using ih seen registry
    | fragment fragment key =>
      have later := ih (key :: seen) (registry.observe fragment.name key).2
      rw [Registry.mem_keysOf_observe] at later
      simp only [observations, List.mem_cons, Prod.mk.injEq, ← or_assoc, ← later]
      simp only [retain]
      split <;> rfl

theorem retain_consistent {registry : Registry} (sound : registry.Consistent)
    (seen : List String) (keyed : List KeyedDefinition) :
    (retain seen registry keyed).registry.Consistent := by
  induction keyed generalizing seen registry with
  | nil => exact sound
  | cons definition rest ih =>
    cases definition with
    | operation operation => exact ih sound seen
    | fragment fragment key =>
      have later := ih (Registry.observe_consistent sound fragment.name key) (key :: seen)
      simp only [retain]
      split <;> exact later

/-- A document has as many conflicts under a name as it adds keys behind the first one. -/
theorem retain_excess {registry : Registry} (sound : registry.Consistent) (seen : List String)
    (keyed : List KeyedDefinition) (name : String) :
    (retain seen registry keyed).registry.excess name =
      registry.excess name + (retain seen registry keyed).conflicts.count name := by
  induction keyed generalizing seen registry with
  | nil => simp [retain]
  | cons definition rest ih =>
    cases definition with
    | operation operation => exact ih sound seen
    | fragment fragment key =>
      have here := sound.observe_excess fragment.name key name
      have later := ih (Registry.observe_consistent sound fragment.name key) (key :: seen)
      rw [here] at later
      have registered : (retain seen registry (.fragment fragment key :: rest)).registry =
          (retain (key :: seen) (registry.observe fragment.name key).2 rest).registry := by
        simp only [retain]
        split <;> rfl
      have reported : (retain seen registry (.fragment fragment key :: rest)).conflicts =
          if (registry.observe fragment.name key).1 = .conflict then
            fragment.name :: (retain (key :: seen) (registry.observe fragment.name key).2
              rest).conflicts
          else (retain (key :: seen) (registry.observe fragment.name key).2 rest).conflicts := by
        simp only [retain]
        split <;> rfl
      rw [registered, later, reported]
      by_cases conflict : (registry.observe fragment.name key).1 = .conflict
      · simp only [conflict, true_and, if_true, List.count_cons, beq_iff_eq]
        omega
      · simp only [conflict, false_and, if_false, Nat.add_zero]

/-- The fragments of a document only add to the ends of the lists of keys. -/
theorem variants_retain {registry : Registry} {name : String} {keys : List String}
    (held : registry.variants? name = some keys) (seen : List String)
    (keyed : List KeyedDefinition) :
    ∃ more, (retain seen registry keyed).registry.variants? name = some (keys ++ more) := by
  induction keyed generalizing seen registry keys with
  | nil => exact ⟨[], by simpa [retain] using held⟩
  | cons definition rest ih =>
    cases definition with
    | operation operation => exact ih held seen
    | fragment fragment key =>
      obtain ⟨added, observed⟩ := Registry.variants_observe held fragment.name key
      obtain ⟨more, later⟩ := ih observed (key :: seen)
      refine ⟨added ++ more, ?_⟩
      rw [← List.append_assoc, ← later]
      simp only [retain]
      split <;> rfl

/-- A name that is listed stays so. -/
theorem retain_lists {registry : Registry} (sound : registry.Consistent) (seen : List String)
    (keyed : List KeyedDefinition) {name : String} (listed : registry.Lists name) :
    (retain seen registry keyed).registry.Lists name := by
  obtain ⟨first, left, second, right, differ⟩ := (Registry.lists_iff sound name).mp listed
  refine (Registry.lists_iff (retain_consistent sound seen keyed) name).mpr
    ⟨first, ?_, second, ?_, differ⟩
  · exact (mem_keysOf_retain ..).mpr (Or.inl left)
  · exact (mem_keysOf_retain ..).mpr (Or.inl right)

/-- A conflict is reported only under a name that is listed afterwards. -/
theorem retain_conflicts_listed {registry : Registry} (sound : registry.Consistent)
    {seen : List String} {keyed : List KeyedDefinition} {name : String}
    (reported : name ∈ (retain seen registry keyed).conflicts) :
    (retain seen registry keyed).registry.Lists name := by
  induction keyed generalizing seen registry with
  | nil => simp [retain] at reported
  | cons definition rest ih =>
    cases definition with
    | operation operation => exact ih sound reported
    | fragment fragment key =>
      have observed := Registry.observe_consistent sound fragment.name key
      have here : (registry.observe fragment.name key).1 = .conflict →
          (retain (key :: seen) (registry.observe fragment.name key).2 rest).registry.Lists
            fragment.name := by
        intro conflict
        obtain ⟨held, known, differ⟩ := Registry.conflict_leaves_two sound conflict
        refine (Registry.lists_iff (retain_consistent observed _ _) _).mpr
          ⟨held, (mem_keysOf_retain ..).mpr (Or.inl ?_), key,
            (mem_keysOf_retain ..).mpr (Or.inl ?_), differ⟩
        · exact (Registry.mem_keysOf_observe ..).mpr (Or.inl known)
        · exact (Registry.mem_keysOf_observe ..).mpr (Or.inr ⟨rfl, rfl⟩)
      have listed : (retain (key :: seen) (registry.observe fragment.name key).2 rest).registry.Lists
          name := by
        simp only [retain] at reported
        split at reported <;> simp only [] at reported
        all_goals
          split at reported
          · next conflict =>
            rcases List.mem_cons.mp reported with rfl | later
            · exact here conflict
            · exact ih observed later
          · exact ih observed reported
      simp only [retain]
      split <;> exact listed

end QueryStore
