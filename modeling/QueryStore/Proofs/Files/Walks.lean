import Mathlib.Data.Finset.Card
import QueryStore.Files.Walk
import QueryStore.Proofs.Files.Resolution

/-! What a walk meets. It goes into directories and those that links lead to, and meets nothing
twice at one path (`walk_apart`). It is bounded in depth, but the bound is never reached: a step
down leads to a longer list of names, and a link to a directory that is not being walked, of which
there are fewer every time (`room_down`). So a walk that no obstacle stops meets every file that can
be reached by going into directories (`file_met_iff`). -/
namespace QueryStore.Files
open Text

/-- In every directory the names are apart, and each is one step of a path. -/
def Entry.WellNamed (tree : Entry) : Prop :=
  ∀ names entries, tree.get? names = some (.directory entries) →
    (entries.map Prod.fst).Nodup ∧ ∀ name ∈ entries.map Prod.fst, StepName name

theorem Entry.WellNamed.flat {entry : Entry} (flat : entry.isDirectory = false) : entry.WellNamed := by
  intro names entries there
  cases names with
  | nil => cases there; cases flat
  | cons name names =>
    cases entry with
    | file | link | special => simp [Entry.get?, Entry.entries] at there
    | directory | closed => cases flat

/-- A directory is well named if its names are, and all its entries. -/
theorem Entry.WellNamed.directory {entries : List (String × Entry)}
    (own : (entries.map Prod.fst).Nodup ∧ ∀ name ∈ entries.map Prod.fst, StepName name)
    (below : ∀ entry ∈ entries, entry.2.WellNamed) : (Entry.directory entries).WellNamed := by
  intro names others there
  cases names with
  | nil =>
    cases there
    exact own
  | cons name names =>
    obtain ⟨entry, found, later⟩ := Option.bind_eq_some_iff.mp there
    exact below _ (mem_of_lookup found) names others later

/-- What the entry at a path comes to. A file is where it is, and so is what is special; to a link or
a directory the path is followed. -/
def ComesTo (system : FileSystem) (path : String) (entry target : Entry) : Prop :=
  match entry with
  | .file _ | .special => target = entry
  | .link _ | .directory _ | .closed _ => ∃ names, system.resolve true path = .ok ⟨names, target⟩

/-- An entry at a path is reached from another by going into directories. -/
inductive Reaches (system : FileSystem) : String → Entry → String → Entry → Prop
  | here {path : String} {entry : Entry} : Reaches system path entry path entry
  | down {path name other : String} {entry child target : Entry} {entries : List (String × Entry)}
    (comes : ComesTo system path entry (.directory entries)) (listed : (name, child) ∈ entries)
    (later : Reaches system (join path name) child other target) :
    Reaches system path entry other target

/-- At a path there is a regular file that is reached from an argument, or a link to one. Whether it
can be read does not matter. -/
def Meets (system : FileSystem) (argument path : String) : Prop :=
  ∃ place entry content, system.resolve false argument = .ok place ∧
    Reaches system argument place.entry path entry ∧ ComesTo system path entry (.file content)

/-- The path at which something is met. -/
def Meeting.path : Meeting → String
  | .file path => path
  | .obstacle (.unreachable path _) => path
  | .obstacle (.unopened path _) => path
  | .obstacle (.loop path _) => path

section
variable {system : FileSystem} {depth : Nat} {above : List Ancestor} {path name other : String}
  {entry target : Entry}

theorem ComesTo.unique {first second : Entry} (one : ComesTo system path entry first)
    (two : ComesTo system path entry second) : first = second := by
  cases entry with
  | file | special => exact one.trans two.symm
  | link | directory | closed =>
    obtain ⟨names, found⟩ := one
    obtain ⟨names', found'⟩ := two
    rw [found] at found'
    cases found'
    rfl

/-- Whatever is neither a file nor special is looked up by its path. -/
theorem ComesTo.of_resolve {names : List String} (plain : ∀ content, entry ≠ .file content)
    (common : entry ≠ .special) (found : system.resolve true path = .ok ⟨names, target⟩) :
    ComesTo system path entry target := by
  cases entry with
  | file content => exact absurd rfl (plain content)
  | special => exact absurd rfl common
  | link | directory | closed => exact ⟨names, found⟩

/-- **What one step of a walk does.** It meets a file or an obstacle at the path, or nothing, or it
goes into a directory; if a link leads to this, it is not one of those being walked. -/
theorem walkEntry_cases (system : FileSystem) (depth : Nat) (above : List Ancestor) (path : String)
    (entry : Entry) :
    (∃ content, ComesTo system path entry (.file content) ∧
      walkEntry system (depth + 1) above path entry = [.file path]) ∨
    (∃ error, (Meeting.obstacle error).path = path ∧
      walkEntry system (depth + 1) above path entry = [.obstacle error]) ∨
    (∃ target, ComesTo system path entry target ∧ (∀ content, target ≠ .file content) ∧
      (∀ entries, target ≠ .directory entries) ∧
      walkEntry system (depth + 1) above path entry = []) ∨
    (∃ names entries, ComesTo system path entry (.directory entries) ∧
      system.resolve true path = .ok ⟨names, .directory entries⟩ ∧
      (entry.isDirectory = true ∨ names ∉ above.map Ancestor.names) ∧
      walkEntry system (depth + 1) above path entry = entries.flatMap fun (name, child) =>
        walkEntry system depth (⟨names, path⟩ :: above) (join path name) child) := by
  by_cases file : ∃ content, entry = .file content
  · obtain ⟨content, rfl⟩ := file
    exact Or.inl ⟨content, rfl, rfl⟩
  by_cases common : entry = .special
  · subst common
    exact Or.inr (Or.inr (Or.inl ⟨.special, rfl, by simp, by simp, rfl⟩))
  have plain : ∀ content, entry ≠ .file content := fun content same => file ⟨content, same⟩
  cases found : system.resolve true path with
  | error error => exact Or.inr (Or.inl ⟨.unreachable path error, rfl, by simp [walkEntry, found]⟩)
  | ok place =>
    obtain ⟨names, target⟩ := place
    have comes : ComesTo system path entry target := .of_resolve plain common found
    cases target with
    | file content => exact Or.inl ⟨content, comes, by simp [walkEntry, found]⟩
    | link | special =>
      exact Or.inr (Or.inr (Or.inl ⟨_, comes, by simp, by simp, by simp [walkEntry, found]⟩))
    | closed reason =>
      refine Or.inr (Or.inl ?_)
      cases deep : entry.isDirectory with
      | true => exact ⟨.unreachable path (.refused reason), rfl, by simp [walkEntry, found, deep]⟩
      | false => exact ⟨.unopened path reason, rfl, by simp [walkEntry, found, deep]⟩
    | directory entries =>
      cases looped : if entry.isDirectory then none
          else above.find? fun ancestor => decide (ancestor.names = names) with
      | some ancestor =>
        exact Or.inr (Or.inl ⟨.loop path ancestor.path, rfl, by simp [walkEntry, found, looped]⟩)
      | none =>
        refine Or.inr (Or.inr (Or.inr ⟨names, entries, comes, rfl, ?_,
          by simp [walkEntry, found, looped]⟩))
        cases deep : entry.isDirectory with
        | true => exact Or.inl rfl
        | false => exact Or.inr (by simpa [deep] using looped)

/-- A walk goes into a directory. -/
theorem walkEntry_down {names : List String} {entries others : List (String × Entry)}
    (there : system.resolve true path = .ok ⟨names, .directory entries⟩) (depth : Nat)
    (above : List Ancestor) :
    walkEntry system (depth + 1) above path (.directory others) =
      entries.flatMap fun (name, child) =>
        walkEntry system depth (⟨names, path⟩ :: above) (join path name) child := by
  simp [walkEntry, there, Entry.isDirectory]

/-- A walk follows a link to a file. -/
theorem walkEntry_along {names : List String} {content : Except String (List UInt8)}
    (there : system.resolve true path = .ok ⟨names, .file content⟩) (depth : Nat)
    (above : List Ancestor) (target : String) :
    walkEntry system (depth + 1) above path (.link target) = [.file path] := by
  simp [walkEntry, there]

/-- What a walk meets as a file is one that is reached. -/
theorem reached_of_met (met : .file other ∈ walkEntry system depth above path entry) :
    ∃ target content, Reaches system path entry other target ∧
      ComesTo system other target (.file content) := by
  induction depth generalizing above path entry with
  | zero => simp [walkEntry] at met
  | succ depth ih =>
    rcases walkEntry_cases system depth above path entry with ⟨content, comes, walked⟩ |
      ⟨error, -, walked⟩ | ⟨target, -, -, -, walked⟩ | ⟨names, entries, comes, -, -, walked⟩ <;>
    rw [walked] at met
    · cases List.mem_singleton.mp met
      exact ⟨entry, content, .here, comes⟩
    · cases List.mem_singleton.mp met
    · cases met
    · obtain ⟨⟨name, child⟩, listed, met⟩ := List.mem_flatMap.mp met
      obtain ⟨target, content, later, comes'⟩ := ih met
      exact ⟨target, content, .down comes listed later, comes'⟩

/-! ### Nothing is met twice at one path -/

/-- What the paths below a path begin with. -/
def stem (path : String) : List Char :=
  if path.toList.getLast? = some '/' then path.toList else path.toList ++ ['/']

theorem join_toList (path name : String) : (join path name).toList = stem path ++ name.toList := by
  unfold join stem
  split <;> simp

theorem stem_join (path : String) (step : StepName name) :
    stem (join path name) = stem path ++ name.toList ++ ['/'] := by
  have filled : name.toList ≠ [] := fun none => step.1 (String.toList_inj.mp none)
  have last : (stem path ++ name.toList).getLast? ≠ some '/' := by
    rw [List.getLast?_append_of_ne_nil _ filled]
    exact fun slash => step.2.2.2 (List.mem_of_getLast? slash)
  rw [stem, join_toList, if_neg last]

/-- A path that goes through a name in a directory, or ends with it. -/
def Under (path name other : String) : Prop :=
  ∃ tail, other.toList = stem path ++ (name.toList ++ tail) ∧ ∀ char ∈ tail.head?, char = '/'

/-- Paths through different names are different. -/
theorem Under.unique {first second : String} (step : StepName first) (step' : StepName second)
    (one : Under path first other) (two : Under path second other) : first = second := by
  obtain ⟨tail, whole, slash⟩ := one
  obtain ⟨tail', whole', slash'⟩ := two
  have before {name : String} {tail : List Char} (step : StepName name)
      (slash : ∀ char ∈ tail.head?, char = '/') :
      (name.toList ++ tail).takeWhile (· ≠ '/') = name.toList := by
    have all : ∀ char ∈ name.toList, decide (char ≠ '/') = true := by
      intro char member
      simpa using fun same : char = '/' => step.2.2.2 (same ▸ member)
    rw [List.takeWhile_append_of_pos all]
    cases tail with
    | nil => simp
    | cons char tail => simp [slash char rfl]
  have same := List.append_cancel_left (whole.symm.trans whole')
  have names := congrArg (List.takeWhile (· ≠ '/')) same
  rw [before step slash, before step' slash'] at names
  exact String.toList_inj.mp names

/-- A path that is that of an entry, or goes through it. -/
theorem Under.of_join (step : StepName name)
    (below : other = join path name ∨ ∃ name', StepName name' ∧ Under (join path name) name' other) :
    Under path name other := by
  rcases below with rfl | ⟨name', -, tail, whole, -⟩
  · exact ⟨[], by rw [join_toList, List.append_nil], by simp⟩
  · refine ⟨'/' :: (name'.toList ++ tail), ?_, by simp⟩
    rw [whole, stem_join path step]
    simp

theorem Under.longer (step : StepName name) (under : Under path name other) :
    path.toList.length < other.toList.length := by
  obtain ⟨tail, whole, -⟩ := under
  have filled : 0 < name.toList.length :=
    List.length_pos_iff.mpr fun none => step.1 (String.toList_inj.mp none)
  have long : path.toList.length ≤ (stem path).length := by
    unfold stem
    split <;> simp
  rw [whole, List.length_append, List.length_append]
  omega

section
variable (named : system.root.WellNamed)
include named

theorem Entry.WellNamed.listed {names : List String} {entries : List (String × Entry)} {child : Entry}
    (there : system.resolve true path = .ok ⟨names, .directory entries⟩)
    (listed : (name, child) ∈ entries) : StepName name :=
  (named _ _ (resolve_get there)).2 name (List.mem_map_of_mem listed)

/-- What is met is at the path where the walk began, or below it. -/
theorem met_under {meeting : Meeting} (met : meeting ∈ walkEntry system depth above path entry) :
    meeting.path = path ∨ ∃ name, StepName name ∧ Under path name meeting.path := by
  induction depth generalizing above path entry with
  | zero => simp [walkEntry] at met
  | succ depth ih =>
    rcases walkEntry_cases system depth above path entry with ⟨content, comes, walked⟩ |
      ⟨error, there, walked⟩ | ⟨target, -, -, -, walked⟩ | ⟨names, entries, comes, there, -, walked⟩ <;>
    rw [walked] at met
    · cases List.mem_singleton.mp met
      exact Or.inl rfl
    · cases List.mem_singleton.mp met
      exact Or.inl there
    · cases met
    · obtain ⟨⟨name, child⟩, listed, met⟩ := List.mem_flatMap.mp met
      have step := named.listed there listed
      exact Or.inr ⟨name, step, .of_join step (ih met)⟩

/-- Below an entry nothing is met twice at one path. -/
theorem walkEntry_apart :
    ((walkEntry system depth above path entry).map Meeting.path).Nodup := by
  induction depth generalizing above path entry with
  | zero => simp [walkEntry]
  | succ depth ih =>
    rcases walkEntry_cases system depth above path entry with ⟨content, comes, walked⟩ |
      ⟨error, there, walked⟩ | ⟨target, -, -, -, walked⟩ | ⟨names, entries, comes, there, -, walked⟩ <;>
    rw [walked]
    · exact List.nodup_singleton _
    · exact List.nodup_singleton _
    · exact List.nodup_nil
    · rw [List.map_flatMap, List.nodup_flatMap]
      refine ⟨fun ⟨name, child⟩ listed => ih, ?_⟩
      have apart := List.pairwise_map.mp (named _ _ (resolve_get there)).1
      refine apart.imp_of_mem fun {first second} listed listed' differ => ?_
      simp only [Function.onFun, List.disjoint_left, List.mem_map]
      rintro _ ⟨meeting, met, rfl⟩ ⟨meeting', met', same⟩
      have step := named.listed there listed
      have step' := named.listed there listed'
      exact differ (Under.unique step step' (.of_join step (met_under named met))
        (same ▸ .of_join step' (met_under named met')))

/-- **A walk meets nothing twice at one path.** -/
theorem walk_apart (argument : String) : ((walk system argument).map Meeting.path).Nodup := by
  unfold walk
  cases system.resolve false argument with
  | error error => exact List.nodup_singleton _
  | ok place => exact walkEntry_apart named

end

/-! ### The bound on the depth is never reached -/

mutual
/-- The names that lead to the directories of a tree. -/
def Entry.directories : Entry → List (List String)
  | .directory entries => [] :: directoriesBelow entries
  | _ => []

/-- The names that lead to directories through one of the entries. -/
def directoriesBelow : List (String × Entry) → List (List String)
  | [] => []
  | (name, entry) :: rest => entry.directories.map (name :: ·) ++ directoriesBelow rest
end

mutual
theorem directories_length (tree : Entry) : tree.directories.length = tree.directoryCount := by
  cases tree with
  | file | link | closed | special => simp [Entry.directories, Entry.directoryCount]
  | directory entries =>
    rw [Entry.directories, Entry.directoryCount, List.length_cons, below_length entries,
      Nat.add_comm]

theorem below_length (entries : List (String × Entry)) :
    (directoriesBelow entries).length = Entry.countBelow entries := by
  match entries with
  | [] => simp [directoriesBelow, Entry.countBelow]
  | (name, entry) :: rest =>
    rw [directoriesBelow, Entry.countBelow, List.length_append, List.length_map,
      directories_length entry, below_length rest]
end

mutual
theorem directories_short {tree : Entry} {names : List String} (member : names ∈ tree.directories) :
    names.length < tree.directoryCount := by
  cases tree with
  | file | link | closed | special => simp [Entry.directories] at member
  | directory entries =>
    rw [Entry.directories, List.mem_cons] at member
    rw [Entry.directoryCount]
    rcases member with rfl | member
    · simp
    · have := below_short member
      omega

theorem below_short {entries : List (String × Entry)} {names : List String}
    (member : names ∈ directoriesBelow entries) : names.length ≤ Entry.countBelow entries := by
  match entries with
  | [] => simp [directoriesBelow] at member
  | (name, entry) :: rest =>
    rw [directoriesBelow, List.mem_append, List.mem_map] at member
    rw [Entry.countBelow]
    rcases member with ⟨more, member, rfl⟩ | member
    · have := directories_short member
      rw [List.length_cons]
      omega
    · have := below_short member
      omega
end

theorem mem_directoriesBelow {entries : List (String × Entry)} {names : List String}
    (listed : (name, entry) ∈ entries) (member : names ∈ entry.directories) :
    name :: names ∈ directoriesBelow entries := by
  induction entries with
  | nil => cases listed
  | cons first rest ih =>
    rw [directoriesBelow, List.mem_append]
    rcases List.mem_cons.mp listed with rfl | listed
    · exact Or.inl (List.mem_map_of_mem member)
    · exact Or.inr (ih listed)

theorem mem_directories {tree : Entry} {names : List String} {entries : List (String × Entry)}
    (there : tree.get? names = some (.directory entries)) : names ∈ tree.directories := by
  induction names generalizing tree with
  | nil =>
    cases there
    simp [Entry.directories]
  | cons name names ih =>
    obtain ⟨entry, found, later⟩ := Option.bind_eq_some_iff.mp there
    have listed := mem_of_lookup found
    cases tree with
    | file | link | closed | special => simp [Entry.entries] at listed
    | directory below =>
      rw [Entry.directories]
      exact List.mem_cons_of_mem _ (mem_directoriesBelow listed (ih later))

/-- The directories that are not being walked. -/
def unwalked (system : FileSystem) (above : List Ancestor) : Finset (List String) :=
  system.root.directories.toFinset \ (above.map Ancestor.names).toFinset

/-- How much deeper a walk goes at most. -/
def room (system : FileSystem) (above : List Ancestor) : Nat :=
  (unwalked system above).card * system.root.directoryCount +
    match above with
    | [] => 0
    | ancestor :: _ => system.root.directoryCount - 1 - ancestor.names.length

/-- The entry at a path is listed in the directory that is walked above it. -/
def Listed (system : FileSystem) (above : List Ancestor) (path : String) (entry : Entry) : Prop :=
  ∀ ancestor ∈ above.head?, ∃ name entries,
    system.resolve true ancestor.path = .ok ⟨ancestor.names, .directory entries⟩ ∧
      (name, entry) ∈ entries ∧ path = join ancestor.path name

theorem mem_unwalked {names : List String} : names ∈ unwalked system above ↔
    names ∈ system.root.directories ∧ names ∉ above.map Ancestor.names := by
  rw [unwalked, Finset.mem_sdiff, List.mem_toFinset, List.mem_toFinset]

theorem unwalked_cons (ancestor : Ancestor) :
    unwalked system (ancestor :: above) ⊆ unwalked system above := by
  intro names member
  simp only [mem_unwalked, List.map_cons, List.mem_cons, not_or] at member ⊢
  exact ⟨member.1, member.2.2⟩

theorem room_start (system : FileSystem) : room system [] < walkDepth system := by
  have few : (unwalked system []).card ≤ system.root.directoryCount := by
    rw [unwalked, ← directories_length]
    exact (Finset.card_le_card Finset.sdiff_subset).trans (List.toFinset_card_le _)
  have square := Nat.mul_le_mul_right system.root.directoryCount few
  simp only [room, walkDepth, Nat.add_mul, Nat.mul_add]
  omega

/-- **A walk comes closer to its end with every directory.** Either a link led to one that was not
being walked, or the names that lead to it are more than those of the one above. -/
theorem room_down (named : system.root.WellNamed) (listed : Listed system above path entry)
    {names : List String} {entries : List (String × Entry)}
    (comes : ComesTo system path entry (.directory entries))
    (there : system.resolve true path = .ok ⟨names, .directory entries⟩)
    (free : entry.isDirectory = true ∨ names ∉ above.map Ancestor.names) :
    room system (⟨names, path⟩ :: above) < room system above := by
  have member := mem_directories (resolve_get there)
  have short := directories_short member
  by_cases walked : names ∈ above.map Ancestor.names
  · -- The directory is an entry of the one above.
    have deep := free.resolve_right (not_not.mpr walked)
    cases above with
    | nil => cases walked
    | cons ancestor above =>
      obtain ⟨name, others, there', listed', rfl⟩ := listed ancestor rfl
      have step := named.listed there' listed'
      have apart := (named _ _ (resolve_get there')).1
      have down : names = ancestor.names ++ [name] :=
        resolve_join there' step (lookup_of_mem apart listed') deep there
      have fewer := Finset.card_le_card (@unwalked_cons system (ancestor :: above)
        ⟨names, join ancestor.path name⟩)
      have less := Nat.mul_le_mul_right system.root.directoryCount fewer
      subst down
      rw [List.length_append, List.length_singleton] at short
      simp only [room, List.length_append, List.length_singleton]
      omega
  · have fewer : (unwalked system (⟨names, path⟩ :: above)).card < (unwalked system above).card := by
      refine Finset.card_lt_card ((Finset.ssubset_iff_of_subset (unwalked_cons _)).mpr ⟨names, ?_, ?_⟩)
      · exact mem_unwalked.mpr ⟨member, walked⟩
      · simp [mem_unwalked]
    have less := Nat.mul_le_mul_right system.root.directoryCount fewer
    rw [Nat.succ_mul] at less
    simp only [room]
    omega

/-- **A walk misses no file.** If no obstacle stops it, it meets what is reached. -/
theorem met_of_reached (named : system.root.WellNamed) (listed : Listed system above path entry)
    (deep : room system above < depth)
    (clear : ∀ error, .obstacle error ∉ walkEntry system depth above path entry)
    (reached : Reaches system path entry other target) {content : Except String (List UInt8)}
    (file : ComesTo system other target (.file content)) :
    .file other ∈ walkEntry system depth above path entry := by
  induction reached generalizing depth above with
  | @here path entry =>
    obtain ⟨depth, rfl⟩ := Nat.exists_eq_succ_of_ne_zero (Nat.ne_zero_of_lt deep)
    rcases walkEntry_cases system depth above path entry with ⟨-, -, walked⟩ |
      ⟨error, -, walked⟩ | ⟨_, comes, flat, -⟩ | ⟨_, _, comes, -⟩
    · exact walked ▸ List.mem_singleton_self _
    · exact absurd (walked ▸ List.mem_singleton_self _) (clear error)
    · exact absurd (comes.unique file) (flat content)
    · cases file.unique comes
  | @down path name other entry child target entries comes inside _ ih =>
    obtain ⟨depth, rfl⟩ := Nat.exists_eq_succ_of_ne_zero (Nat.ne_zero_of_lt deep)
    rcases walkEntry_cases system depth above path entry with ⟨_, comes', -⟩ |
      ⟨error, -, walked⟩ | ⟨_, comes', -, flat, -⟩ | ⟨names, _, comes', there, free, walked⟩
    · cases comes.unique comes'
    · exact absurd (walked ▸ List.mem_singleton_self _) (clear error)
    · exact absurd (comes'.unique comes) (flat entries)
    · cases comes.unique comes'
      rw [walked] at clear ⊢
      have below : Listed system (⟨names, path⟩ :: above) (join path name) child := by
        rintro _ ⟨⟩
        exact ⟨name, entries, there, inside, rfl⟩
      have less := room_down named listed comes there free
      refine List.mem_flatMap.mpr ⟨_, inside, ih below (by omega) (fun error met => ?_) file⟩
      exact clear error (List.mem_flatMap.mpr ⟨_, inside, met⟩)

end

section
variable {system : FileSystem} {argument path : String}

/-- **What is met.** A walk that no obstacle stops meets the files that are reached from where it
begins, and the links to files. -/
theorem file_met_iff (named : system.root.WellNamed)
    (clear : ∀ error, .obstacle error ∉ walk system argument) :
    .file path ∈ walk system argument ↔ Meets system argument path := by
  unfold walk at clear ⊢
  constructor
  · cases found : system.resolve false argument with
    | error error => simp
    | ok place =>
      intro met
      obtain ⟨target, content, reached, file⟩ := reached_of_met met
      exact ⟨place, target, content, found, reached, file⟩
  · rintro ⟨place, target, content, found, reached, file⟩
    rw [found] at clear ⊢
    exact met_of_reached named (fun _ none => by cases none) (room_start system) clear reached file

theorem isFile_iff : system.isFile path = true ↔
    ∃ names content, system.resolve true path = .ok ⟨names, .file content⟩ := by
  unfold FileSystem.isFile
  split
  · next found => exact ⟨fun _ => ⟨_, _, found⟩, fun _ => rfl⟩
  · next other =>
    refine ⟨fun same => ?_, fun ⟨names, content, found⟩ => absurd found (other names content)⟩
    cases same

/-- A walk that begins at a file, or at a link to one, meets nothing else. -/
theorem walk_isFile (file : system.isFile path = true) : walk system path = [.file path] := by
  obtain ⟨names, content, found⟩ := isFile_iff.mp file
  obtain ⟨depth, deep⟩ : ∃ depth, walkDepth system = depth + 1 :=
    Nat.exists_eq_succ_of_ne_zero (Nat.ne_zero_of_lt (room_start system))
  rcases resolve_link_or_same system path with ⟨names', target, link⟩ | same
  · simp [walk, link, deep, walkEntry, found]
  · simp [walk, same, deep, walkEntry, found]

/-- What a walk meets where it began is a file, or a link to one: all else is met below. -/
theorem isFile_of_met (named : system.root.WellNamed) (met : .file path ∈ walk system path) :
    system.isFile path = true := by
  obtain ⟨depth, deep⟩ : ∃ depth, walkDepth system = depth + 1 :=
    Nat.exists_eq_succ_of_ne_zero (Nat.ne_zero_of_lt (room_start system))
  unfold walk at met
  cases found : system.resolve false path with
  | error error => simp [found] at met
  | ok place =>
    simp only [found, deep] at met
    rcases walkEntry_cases system depth [] path place.entry with ⟨content, comes, -⟩ |
      ⟨error, -, walked⟩ | ⟨_, -, -, -, walked⟩ | ⟨names, entries, -, there, -, walked⟩
    · obtain ⟨names, entry⟩ := place
      cases entry with
      | special => cases comes
      | link | directory | closed =>
        obtain ⟨names, followed⟩ := comes
        exact isFile_iff.mpr ⟨names, content, followed⟩
      | file _ =>
        rcases resolve_link_or_same system path with ⟨_, _, link⟩ | same
        · rw [found] at link
          cases link
        · exact isFile_iff.mpr ⟨names, _, same.symm.trans found⟩
    · simp [walked] at met
    · simp [walked] at met
    · rw [walked] at met
      obtain ⟨⟨name, child⟩, listed, met⟩ := List.mem_flatMap.mp met
      have step := named.listed there listed
      exact absurd ((Under.of_join step (met_under named met)).longer step) (lt_irrefl _)

end
end QueryStore.Files
