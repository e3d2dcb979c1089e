import QueryStore.Proofs.Text.Glyphs
import QueryStore.Proofs.Variants

/-! What comes of the fragments of a document. Their keys are canonical forms. Of the fragments
with one key the first stays, under its name, so that the keys that stay are distinct
(`retain_distinct`) and are all that were observed (`retain_observed`, `observed_retained`). -/
namespace QueryStore

theorem keyed_operation {operation : Operation} {found : List Definition}
    {keyed : List KeyedDefinition} :
    keyDefinitions (.operation operation :: found) = .ok keyed ↔
      ∃ others, keyDefinitions found = .ok others ∧ keyed = .operation operation :: others := by
  simp only [keyDefinitions]
  cases keyDefinitions found <;> simp [Except.map, eq_comm]

theorem keyed_fragment {fragment : Fragment} {found : List Definition}
    {keyed : List KeyedDefinition} :
    keyDefinitions (.fragment fragment :: found) = .ok keyed ↔
      ∃ key others, fragment.key? = some key ∧ keyDefinitions found = .ok others ∧
        keyed = .fragment fragment key :: others := by
  simp only [keyDefinitions]
  cases fragment.key? with
  | none => simp
  | some key => cases keyDefinitions found <;> simp [Except.map, eq_comm]

/-- There are no keys exactly when a fragment has none; the first such is named. -/
theorem keyDefinitions_error_iff {found : List Definition} {name : String} :
    keyDefinitions found = .error name ↔
      ∃ before fragment after,
        found.filterMap Definition.asFragment = before ++ fragment :: after ∧
        (∀ earlier ∈ before, earlier.key?.isSome = true) ∧ fragment.key? = none ∧
        fragment.name = name := by
  induction found with
  | nil => simp [keyDefinitions]
  | cons definition found ih =>
    cases definition with
    | operation operation =>
      have later : keyDefinitions (.operation operation :: found) = .error name ↔
          keyDefinitions found = .error name := by
        simp only [keyDefinitions]
        cases keyDefinitions found <;> simp [Except.map]
      exact later.trans ih
    | fragment fragment =>
      cases own : fragment.key? with
      | none =>
        simp only [keyDefinitions, own, Except.error.injEq]
        constructor
        · rintro rfl
          exact ⟨[], fragment, _, rfl, by simp, own, rfl⟩
        · rintro ⟨before, other, after, split, whole, missing, rfl⟩
          cases before with
          | nil =>
            obtain ⟨rfl, -⟩ := List.cons.inj split
            rfl
          | cons first before =>
            obtain ⟨rfl, -⟩ := List.cons.inj split
            simp [own] at whole
      | some key =>
        have later : keyDefinitions (.fragment fragment :: found) = .error name ↔
            keyDefinitions found = .error name := by
          simp only [keyDefinitions, own]
          cases keyDefinitions found <;> simp [Except.map]
        rw [later, ih]
        constructor
        · rintro ⟨before, other, after, split, whole, missing⟩
          exact ⟨fragment :: before, other, after, congrArg (fragment :: ·) split,
            List.forall_mem_cons.mpr ⟨by rw [own]; rfl, whole⟩, missing⟩
        · rintro ⟨before, other, after, split, whole, missing, named⟩
          cases before with
          | nil =>
            obtain ⟨rfl, -⟩ := List.cons.inj split
            rw [own] at missing
            cases missing
          | cons first before =>
            obtain ⟨rfl, others⟩ := List.cons.inj split
            exact ⟨before, other, after, others, (List.forall_mem_cons.mp whole).2, missing, named⟩

/-- The keys of fragments are canonical. -/
theorem keys_canonical {found : List Definition} {keyed : List KeyedDefinition}
    (keys : keyDefinitions found = .ok keyed) :
    ∀ entry ∈ observations keyed, Text.normalize entry.2 = entry.2 := by
  induction found generalizing keyed with
  | nil =>
    cases keys
    simp [observations]
  | cons definition found ih =>
    cases definition with
    | operation operation =>
      obtain ⟨others, later, rfl⟩ := keyed_operation.mp keys
      have rest := ih later
      exact rest
    | fragment fragment =>
      obtain ⟨key, others, own, later, rfl⟩ := keyed_fragment.mp keys
      obtain ⟨text, -, rfl⟩ := Option.map_eq_some_iff.mp own
      exact List.forall_mem_cons.mpr ⟨Text.normalize_normalize text, ih later⟩

/-- The fragments that stay are named in order. -/
theorem retain_names (seen : List String) (registry : Registry) (keyed : List KeyedDefinition) :
    (retain seen registry keyed).fragmentKeys.map Prod.fst =
      ((retain seen registry keyed).definitions.filterMap Definition.asFragment).map
        Fragment.name := by
  induction keyed generalizing seen registry with
  | nil => rfl
  | cons definition rest ih =>
    cases definition with
    | operation operation => exact ih seen registry
    | fragment fragment key =>
      have later := ih (key :: seen) (registry.observe fragment.name key).2
      simp only [retain]
      split
      · exact later
      · exact congrArg (fragment.name :: ·) later

/-- No two fragments that stay have one key, nor the key of one that was seen before. -/
theorem retain_distinct (seen : List String) (registry : Registry)
    (keyed : List KeyedDefinition) :
    ((retain seen registry keyed).fragmentKeys.map Prod.snd).Nodup ∧
      ∀ key ∈ (retain seen registry keyed).fragmentKeys.map Prod.snd, key ∉ seen := by
  induction keyed generalizing seen registry with
  | nil => simp [retain]
  | cons definition rest ih =>
    cases definition with
    | operation operation => exact ih seen registry
    | fragment fragment key =>
      -- The key counts as seen further on, whether its fragment stays or not.
      obtain ⟨distinct, others⟩ := ih (key :: seen) (registry.observe fragment.name key).2
      have unseen : ∀ other ∈ ((retain (key :: seen) (registry.observe fragment.name key).2
          rest).fragmentKeys.map Prod.snd), other ≠ key ∧ other ∉ seen :=
        fun other member => not_or.mp (List.mem_cons.not.mp (others other member))
      simp only [retain]
      split
      · exact ⟨distinct, fun other member => (unseen other member).2⟩
      · next first =>
        exact ⟨List.nodup_cons.mpr ⟨fun member => (unseen key member).1 rfl, distinct⟩,
          List.forall_mem_cons.mpr ⟨first, fun other member => (unseen other member).2⟩⟩

/-- The keys that stay are keys that were observed, under the same names. -/
theorem retain_observed (seen : List String) (registry : Registry)
    (keyed : List KeyedDefinition) :
    ∀ entry ∈ (retain seen registry keyed).fragmentKeys, entry ∈ observations keyed := by
  induction keyed generalizing seen registry with
  | nil => simp [retain]
  | cons definition rest ih =>
    cases definition with
    | operation operation => exact ih seen registry
    | fragment fragment key =>
      have later := ih (key :: seen) (registry.observe fragment.name key).2
      simp only [retain, observations]
      split
      · exact fun entry member => List.mem_cons_of_mem _ (later entry member)
      · exact List.forall_mem_cons.mpr ⟨List.mem_cons_self,
          fun entry member => List.mem_cons_of_mem _ (later entry member)⟩

/-- Every key that was observed stays with some fragment, unless it was seen before. -/
theorem observed_retained (seen : List String) (registry : Registry)
    (keyed : List KeyedDefinition) :
    ∀ entry ∈ observations keyed, entry.2 ∈ seen ∨
      entry.2 ∈ (retain seen registry keyed).fragmentKeys.map Prod.snd := by
  induction keyed generalizing seen registry with
  | nil => simp [observations]
  | cons definition rest ih =>
    cases definition with
    | operation operation => exact ih seen registry
    | fragment fragment key =>
      have later := ih (key :: seen) (registry.observe fragment.name key).2
      simp only [observations, retain]
      split
      · next known =>
        refine List.forall_mem_cons.mpr ⟨Or.inl known, fun entry member => ?_⟩
        rcases later entry member with seen | kept
        · exact Or.inl ((List.mem_cons.mp seen).elim (fun same => same ▸ known) id)
        · exact Or.inr kept
      · refine List.forall_mem_cons.mpr ⟨Or.inr List.mem_cons_self, fun entry member => ?_⟩
        rcases later entry member with seen | kept
        · exact (List.mem_cons.mp seen).symm.imp id fun same => List.mem_cons.mpr (Or.inl same)
        · exact Or.inr (List.mem_cons_of_mem _ kept)

end QueryStore
