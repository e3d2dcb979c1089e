import QueryStore.Document.Strip

/-! All locations in a tree, those of a node before those of the nodes below it. Stripping a
node leaves its own at most, and none below it (`Document.locations_strip`); a tree without any is
what stripping makes of it (`Document.strip_bare`). -/
namespace QueryStore

/-- The locations in a directive. -/
def Directive.locations (directive : Directive) : List Location := directive.location.toList

/-- The locations in the definition of a variable. -/
def VariableDefinition.locations (definition : VariableDefinition) : List Location :=
  definition.location.toList

/-- The locations in the spread of a fragment. -/
def FragmentSpread.locations (spread : FragmentSpread) : List Location :=
  spread.location.toList ++ spread.directives.flatMap Directive.locations

mutual
/-- The locations in a field. -/
def Field.locations : Field → List Location
  | ⟨_, _, _, directives, none, location⟩ =>
    location.toList ++ directives.flatMap Directive.locations
  | ⟨_, _, _, directives, some set, location⟩ =>
    location.toList ++ (directives.flatMap Directive.locations ++ set.locations)

/-- The locations in an inline fragment. -/
def InlineFragment.locations : InlineFragment → List Location
  | ⟨_, directives, set, location⟩ =>
    location.toList ++ (directives.flatMap Directive.locations ++ set.locations)

/-- The locations in a selection. -/
def Selection.locations : Selection → List Location
  | .field field => field.locations
  | .fragmentSpread spread => spread.locations
  | .inlineFragment fragment => fragment.locations

/-- The locations in a set of selections. -/
def SelectionSet.locations : SelectionSet → List Location
  | ⟨selections, location⟩ => location.toList ++ Selection.listLocations selections

/-- The locations in selections. -/
def Selection.listLocations : List Selection → List Location
  | [] => []
  | selection :: rest => selection.locations ++ Selection.listLocations rest
end

@[simp] theorem Selection.listLocations_eq_flatMap (selections : List Selection) :
    Selection.listLocations selections = selections.flatMap Selection.locations := by
  induction selections with
  | nil => rfl
  | cons selection rest ih => simp [Selection.listLocations, ih]

/-- The locations in an operation. -/
def Operation.locations (operation : Operation) : List Location :=
  operation.location.toList ++
    (operation.variableDefinitions.flatMap VariableDefinition.locations ++
      (operation.directives.flatMap Directive.locations ++ operation.selectionSet.locations))

/-- The locations in a fragment. -/
def Fragment.locations (fragment : Fragment) : List Location :=
  fragment.location.toList ++
    (fragment.variableDefinitions.flatMap VariableDefinition.locations ++
      (fragment.directives.flatMap Directive.locations ++ fragment.selectionSet.locations))

/-- The locations in a definition. -/
def Definition.locations : Definition → List Location
  | .operation node => node.locations
  | .fragment node => node.locations

/-- The locations in a document. -/
def Document.locations (document : Document) : List Location :=
  document.location.toList ++ document.definitions.flatMap Definition.locations

theorem flatMap_stripped {α : Type} {strip : α → α} {locations : α → List Location}
    (stripped : ∀ node, locations (strip node) = []) (nodes : List α) :
    (nodes.map strip).flatMap locations = [] := by
  simp [List.flatMap_map, stripped]

section
variable (keep : Bool)

@[simp] theorem Directive.locations_strip (directive : Directive) :
    (directive.strip keep).locations = (stripOwn keep directive.location).toList := rfl

@[simp] theorem VariableDefinition.locations_strip (definition : VariableDefinition) :
    (definition.strip keep).locations = (stripOwn keep definition.location).toList := rfl

private theorem directives_stripped (directives : List Directive) :
    (directives.map (Directive.strip false)).flatMap Directive.locations = [] :=
  flatMap_stripped (fun directive => by simp) directives

@[simp] theorem FragmentSpread.locations_strip (spread : FragmentSpread) :
    (spread.strip keep).locations = (stripOwn keep spread.location).toList := by
  simp [FragmentSpread.locations, FragmentSpread.strip, directives_stripped]

private theorem selections_stripped :
    (∀ selection : Selection, ∀ keep,
      (selection.strip keep).locations = (stripOwn keep selection.location).toList) ∧
    ∀ set : SelectionSet, ∀ keep,
      (set.strip keep).locations = (stripOwn keep set.location).toList := by
  refine Selection.induct ?leaf ?branch ?spread ?inlineFragment ?set
  case leaf =>
    intro responseAlias name arguments directives location keep
    simp [Selection.strip, Field.strip, Selection.locations, Field.locations, Selection.location,
      directives_stripped]
  case branch =>
    intro responseAlias name arguments directives set location below keep
    simp [Selection.strip, Field.strip, Selection.locations, Field.locations, Selection.location,
      directives_stripped, below]
  case spread => exact fun spread keep => spread.locations_strip keep
  case inlineFragment =>
    intro typeCondition directives set location below keep
    simp [Selection.strip, InlineFragment.strip, Selection.locations, InlineFragment.locations,
      Selection.location, directives_stripped, below]
  case set =>
    intro selections location inside keep
    have bare : (selections.map (Selection.strip false)).flatMap Selection.locations = [] :=
      List.flatMap_eq_nil_iff.mpr (List.forall_mem_map.mpr fun selection member =>
        inside selection member false)
    simp [SelectionSet.strip, SelectionSet.locations, bare]

theorem Selection.locations_strip (selection : Selection) :
    (selection.strip keep).locations = (stripOwn keep selection.location).toList :=
  selections_stripped.1 selection keep

theorem SelectionSet.locations_strip (set : SelectionSet) :
    (set.strip keep).locations = (stripOwn keep set.location).toList :=
  selections_stripped.2 set keep

theorem Field.locations_strip (field : Field) :
    (field.strip keep).locations = (stripOwn keep field.location).toList :=
  Selection.locations_strip keep (.field field)

theorem InlineFragment.locations_strip (fragment : InlineFragment) :
    (fragment.strip keep).locations = (stripOwn keep fragment.location).toList :=
  Selection.locations_strip keep (.inlineFragment fragment)

theorem Operation.locations_strip (operation : Operation) :
    (operation.strip keep).locations = (stripOwn keep operation.location).toList := by
  have declared := flatMap_stripped (VariableDefinition.locations_strip false)
    operation.variableDefinitions
  simp [Operation.locations, Operation.strip, declared, directives_stripped,
    SelectionSet.locations_strip]

theorem Fragment.locations_strip (fragment : Fragment) :
    (fragment.strip keep).locations = (stripOwn keep fragment.location).toList := by
  have declared := flatMap_stripped (VariableDefinition.locations_strip false)
    fragment.variableDefinitions
  simp [Fragment.locations, Fragment.strip, declared, directives_stripped,
    SelectionSet.locations_strip]

theorem Definition.locations_strip : ∀ definition : Definition,
    (definition.strip keep).locations = (stripOwn keep definition.location).toList
  | .operation node => node.locations_strip keep
  | .fragment node => node.locations_strip keep

/-- A stripped document has its own location at most, and no other. -/
theorem Document.locations_strip (document : Document) :
    (document.strip keep).locations = (stripOwn keep document.location).toList := by
  rw [Document.strip, Document.locations, flatMap_stripped (Definition.locations_strip false),
    List.append_nil]

end

/-! What has no locations is stripped already. -/

private theorem map_bare {α : Type} {strip : α → α} {locations : α → List Location}
    (stripped : ∀ node, locations node = [] → strip node = node) {nodes : List α}
    (bare : nodes.flatMap locations = []) : nodes.map strip = nodes := by
  rw [List.flatMap_eq_nil_iff] at bare
  exact (List.map_congr_left fun node member => stripped node (bare node member)).trans
    (List.map_id _)

theorem Directive.strip_bare (directive : Directive) (bare : directive.locations = []) :
    directive.strip false = directive := by
  obtain ⟨_, _, _ | location⟩ := directive
  · rfl
  · cases bare

theorem VariableDefinition.strip_bare (definition : VariableDefinition)
    (bare : definition.locations = []) : definition.strip false = definition := by
  obtain ⟨_, _, _, _ | location⟩ := definition
  · rfl
  · cases bare

theorem FragmentSpread.strip_bare (spread : FragmentSpread) (bare : spread.locations = []) :
    spread.strip false = spread := by
  obtain ⟨_, directives, _ | location⟩ := spread
  · rw [FragmentSpread.strip, map_bare Directive.strip_bare bare]
    rfl
  · cases bare

private theorem selections_bare :
    (∀ selection : Selection, selection.locations = [] → selection.strip false = selection) ∧
    ∀ set : SelectionSet, set.locations = [] → set.strip false = set := by
  refine Selection.induct ?leaf ?branch ?spread ?inlineFragment ?set
  case leaf =>
    intro responseAlias name arguments directives location bare
    obtain ⟨own, above⟩ := List.append_eq_nil_iff.mp bare
    cases Option.toList_eq_nil_iff.mp own
    simp [Selection.strip, Field.strip, map_bare Directive.strip_bare above]
  case branch =>
    intro responseAlias name arguments directives set location strips bare
    simp only [Selection.locations, Field.locations, List.append_eq_nil_iff] at bare
    obtain ⟨own, above, below⟩ := bare
    cases Option.toList_eq_nil_iff.mp own
    simp [Selection.strip, Field.strip, map_bare Directive.strip_bare above, strips below]
  case spread => exact fun spread bare => congrArg Selection.fragmentSpread (spread.strip_bare bare)
  case inlineFragment =>
    intro typeCondition directives set location strips bare
    simp only [Selection.locations, InlineFragment.locations, List.append_eq_nil_iff] at bare
    obtain ⟨own, above, below⟩ := bare
    cases Option.toList_eq_nil_iff.mp own
    simp [Selection.strip, InlineFragment.strip, map_bare Directive.strip_bare above, strips below]
  case set =>
    intro selections location strips bare
    simp only [SelectionSet.locations, Selection.listLocations_eq_flatMap, List.append_eq_nil_iff,
      List.flatMap_eq_nil_iff] at bare
    obtain ⟨own, inside⟩ := bare
    cases Option.toList_eq_nil_iff.mp own
    have kept : selections.map (Selection.strip false) = selections :=
      (List.map_congr_left fun selection member =>
        strips selection member (inside selection member)).trans (List.map_id _)
    simp [SelectionSet.strip, kept]

theorem SelectionSet.strip_bare (set : SelectionSet) (bare : set.locations = []) :
    set.strip false = set :=
  selections_bare.2 set bare

theorem Operation.strip_bare (operation : Operation) (bare : operation.locations = []) :
    operation.strip false = operation := by
  obtain ⟨_, _, definitions, directives, set, _ | location⟩ := operation
  · simp only [Operation.locations, List.append_eq_nil_iff] at bare
    obtain ⟨-, declared, above, below⟩ := bare
    rw [Operation.strip, map_bare VariableDefinition.strip_bare declared,
      map_bare Directive.strip_bare above, set.strip_bare below]
    rfl
  · cases bare

theorem Fragment.strip_bare (fragment : Fragment) (bare : fragment.locations = []) :
    fragment.strip false = fragment := by
  obtain ⟨_, definitions, _, directives, set, _ | location⟩ := fragment
  · simp only [Fragment.locations, List.append_eq_nil_iff] at bare
    obtain ⟨-, declared, above, below⟩ := bare
    rw [Fragment.strip, map_bare VariableDefinition.strip_bare declared,
      map_bare Directive.strip_bare above, set.strip_bare below]
    rfl
  · cases bare

theorem Definition.strip_bare : ∀ definition : Definition,
    definition.locations = [] → definition.strip false = definition
  | .operation node, bare => congrArg Definition.operation (node.strip_bare bare)
  | .fragment node, bare => congrArg Definition.fragment (node.strip_bare bare)

/-- A document without locations is as it is when stripped. -/
theorem Document.strip_bare (document : Document) (bare : document.locations = []) :
    document.strip false = document := by
  obtain ⟨definitions, _ | location⟩ := document
  · rw [Document.strip, map_bare Definition.strip_bare bare]
    rfl
  · cases bare

end QueryStore
