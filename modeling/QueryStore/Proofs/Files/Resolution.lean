import Mathlib.Data.String.Basic
import QueryStore.Files.Walk
import QueryStore.Proofs.Variants

/-! Where a path leads, and what is read there. Sorting by paths puts them in order, since of two
paths one is not after the other. Following names is compositional: what follows the names of a
directory is looked up from that directory on (`follow_append`). So an entry of a directory is found
under the directory's path and the entry's name, and a directory is found right below the one that
lists it (`resolve_join`). Whether a link at the end is followed makes no difference where there is
none (`resolve_link_or_same`). -/
namespace QueryStore.Files

/-- What was sorted by paths is in the order of the paths. -/
theorem sortByPath_pairwise {α : Type} (path : α → String) (items : List α) :
    (sortByPath path items).Pairwise fun left right => notAfter (path left) (path right) = true := by
  refine List.pairwise_mergeSort (fun one two three first second => ?_) (fun one two => ?_) items
  · simp only [notAfter, Bool.not_eq_true', List.lex_eq_false_iff_ge] at *
    exact List.le_trans first second
  · simp only [notAfter, Bool.or_eq_true, Bool.not_eq_true', List.lex_eq_false_iff_ge]
    exact List.le_total _ _

end QueryStore.Files

namespace QueryStore
namespace Text

/-- A text with a separator in it is cut there, and on both sides of it. -/
theorem splitChars_append (separator : Char) (left right : List Char) :
    splitChars separator (left ++ separator :: right) =
      splitChars separator left ++ splitChars separator right := by
  induction left with
  | nil => simp [splitChars]
  | cons char left ih =>
    rw [List.cons_append, splitChars, splitChars, ih]
    split
    · rfl
    · have filled : splitChars separator left ≠ [] := by
        rw [← List.length_pos_iff, splitChars_length]
        exact Nat.succ_pos _
      cases pieces : splitChars separator left with
      | nil => exact absurd pieces filled
      | cons piece others => rfl

/-- A text without separators is not cut. -/
theorem splitChars_whole {separator : Char} {text : List Char} (absent : separator ∉ text) :
    splitChars separator text = [text] := by
  induction text with
  | nil => rfl
  | cons char text ih =>
    obtain ⟨other, later⟩ := not_or.mp (List.mem_cons.not.mp absent)
    rw [splitChars, if_neg (Ne.symm other), ih later]

end Text

namespace Files
open Text

/-- A name is one step of a path, down to an entry of a directory. -/
def StepName (name : String) : Prop :=
  name ≠ "" ∧ name ≠ "." ∧ name ≠ ".." ∧ '/' ∉ name.toList

instance (name : String) : Decidable (StepName name) := inferInstanceAs (Decidable (_ ∧ _))

/-- A name is the only one of the path that it is. -/
theorem segments_single {name : String} (step : StepName name) : segments name = [name] := by
  rw [segments, split, splitChars_whole step.2.2.2, List.map_singleton, String.ofList_toList]

/-- The names of a path with a name added to it are those of the path and the name; a slash that
the path ends with is not doubled. -/
theorem segments_join {path name : String} (step : StepName name) :
    segments (join path name) = segments path ++ [name] ∨
      ∃ front, segments path = front ++ [""] ∧ segments (join path name) = front ++ [name] := by
  have single : splitChars '/' name.toList = [name.toList] := splitChars_whole step.2.2.2
  unfold join
  split
  · next slash =>
    obtain ⟨front, whole⟩ := List.getLast?_eq_some_iff.mp slash
    refine Or.inr ⟨(splitChars '/' front).map String.ofList, ?_, ?_⟩
    · rw [segments, split, whole, splitChars_append]
      simp [splitChars]
    · rw [segments, split, String.toList_append, whole, List.append_assoc, List.singleton_append,
        splitChars_append, single]
      simp
  · refine Or.inl ?_
    have slash : "/".toList = ['/'] := rfl
    rw [segments, segments, split, split, String.toList_append, String.toList_append,
      List.append_assoc, slash, List.singleton_append, splitChars_append, single]
    simp

theorem get_append (tree : Entry) (left right : List String) :
    tree.get? (left ++ right) = (tree.get? left).bind fun entry => entry.get? right := by
  induction left generalizing tree with
  | nil => rfl
  | cons name left ih =>
    rw [List.cons_append, Entry.get?, Entry.get?]
    cases tree.entries.lookup name with
    | none => rfl
    | some entry => exact ih entry

/-- An entry of a directory stands below the names of the directory. -/
theorem get_snoc {tree : Entry} {names : List String} {name : String} {entry found : Entry}
    (there : tree.get? names = some entry) (listed : entry.entries.lookup name = some found) :
    tree.get? (names ++ [name]) = some found := by
  rw [get_append, there, Option.bind_some, Entry.get?, listed]
  rfl

section
variable {root : Entry} {last : Bool} {links : Nat} {directory names : List String} {place : Place}

/-- A place is where its names lead. -/
theorem follow_get (found : follow root last links directory names = .ok place) :
    root.get? place.names = some place.entry := by
  fun_induction follow root last links directory names with
  | case1 | case3 | case6 | case7 | case9 => cases found
  | case2 => cases found; assumption
  | case8 links directory here there name rest _ _ _ _ target listed _ =>
    cases found
    exact get_snoc there listed
  | case4 | case5 | case10 | case11 =>
    rename_i ih
    exact ih found

/-- What comes behind names is followed from where these lead, if they lead anywhere. -/
theorem follow_append (root : Entry) (links : Nat) (directory names : List String) :
    ∃ less, ∀ last more, more ≠ [] → follow root last links directory (names ++ more) =
      (follow root true links directory names).bind fun place =>
        follow root last less place.names more := by
  fun_induction follow root true links directory names with
  | case2 links => exact ⟨links, fun _ _ _ => rfl⟩
  | case8 =>
    rename_i ends
    simp at ends
  | case1 links directory names none =>
    refine ⟨0, fun last more filled => ?_⟩
    rw [follow.eq_def, none]
    rfl
  | case3 | case6 | case7 | case9 =>
    refine ⟨0, fun last more filled => ?_⟩
    rw [List.cons_append, follow]
    simp [*, Except.bind]
  | case4 | case5 | case10 | case11 =>
    rename_i ih
    obtain ⟨less, same⟩ := ih
    refine ⟨less, fun last more filled => ?_⟩
    rw [← same last more filled, List.cons_append, follow]
    simp [*]

/-- Nothing is found below what is no directory. -/
theorem follow_flat {here : Entry} (there : root.get? directory = some here)
    (flat : here.isDirectory = false) (name : String) (rest : List String) :
    follow root last links directory (name :: rest) = .error .notADirectory := by
  rw [follow, there]
  simp [Entry.barrier_flat flat]

/-- A blank name leads nowhere else. -/
theorem follow_blank {here : Entry} (there : root.get? directory = some here)
    (deep : here.isDirectory = true) (rest : List String) :
    follow root last links directory ("" :: rest) = follow root last links directory rest := by
  rw [follow, there]
  simp [Entry.barrier_blank deep]

/-- A dot leads nowhere else. -/
theorem follow_dot {entries : List (String × Entry)}
    (there : root.get? directory = some (.directory entries)) (rest : List String) :
    follow root last links directory ("." :: rest) = follow root last links directory rest := by
  rw [follow, there]
  simp

/-- A name can be looked up: it is a step, and not too long. -/
def PlainStep (name : String) : Prop := StepName name ∧ byteLength name.toList ≤ nameLimit

instance (name : String) : Decidable (PlainStep name) := inferInstanceAs (Decidable (_ ∧ _))

/-- A link is followed from the directory in which it stands. -/
theorem follow_link {entries : List (String × Entry)} {name target : String}
    (there : root.get? directory = some (.directory entries)) (step : PlainStep name)
    (listed : entries.lookup name = some (.link target)) (rest : List String) :
    follow root true (links + 1) directory (name :: rest) =
      follow root true links (startOf directory target) (segments target ++ rest) := by
  obtain ⟨⟨filled, current, parent, -⟩, short⟩ := step
  rw [follow, there]
  simp [filled, current, parent, Nat.not_lt.mpr short, Entry.entries, listed]

/-- Names below one another lead to the last one, unless it is a link. -/
theorem follow_of_get {found : Entry} (steps : ∀ name ∈ names, PlainStep name)
    (there : root.get? (directory ++ names) = some found) (direct : ∀ target, found ≠ .link target) :
    follow root last links directory names = .ok ⟨directory ++ names, found⟩ := by
  induction names generalizing directory with
  | nil =>
    rw [List.append_nil] at there ⊢
    rw [follow, there]
  | cons name rest ih =>
    obtain ⟨⟨⟨filled, current, parent, -⟩, short⟩, later⟩ := List.forall_mem_cons.mp steps
    have split : directory ++ name :: rest = (directory ++ [name]) ++ rest := by simp
    have onward : follow root last links (directory ++ [name]) rest =
        .ok ⟨directory ++ name :: rest, found⟩ := by
      rw [split]
      exact ih later (split ▸ there)
    rw [get_append] at there
    obtain ⟨here, reached, inside⟩ := Option.bind_eq_some_iff.mp there
    obtain ⟨below, listed, lower⟩ := Option.bind_eq_some_iff.mp inside
    -- Something is listed here, so this is a directory, and no link, from which nothing leads on.
    obtain ⟨entries, rfl⟩ : ∃ entries, here = .directory entries := by
      cases here with
      | directory entries => exact ⟨entries, rfl⟩
      | file | link | closed | special => cases listed
    replace listed : entries.lookup name = some below := listed
    have solid (target : String) : below ≠ .link target := by
      rintro rfl
      cases rest with
      | nil => exact direct target (Option.some.inj lower).symm
      | cons other others => cases lower
    rw [follow, reached]
    cases below with
    | link target => exact absurd rfl (solid target)
    | directory | file | closed | special =>
      simpa [filled, current, parent, Nat.not_lt.mpr short, Entry.entries, listed] using onward

/-- Names between which a blank one stands lead to the same without it. -/
theorem follow_blanks (root : Entry) (last : Bool) (links : Nat) (directory names : List String)
    {more : List String} (filled : more ≠ []) :
    follow root last links directory (names ++ "" :: more) =
      follow root last links directory (names ++ more) := by
  obtain ⟨less, same⟩ := follow_append root links directory names
  rw [same last _ (List.cons_ne_nil "" more), same last more filled]
  cases found : follow root true links directory names with
  | error error => rfl
  | ok place =>
    have there := follow_get found
    cases deep : place.entry.isDirectory with
    | true => exact follow_blank there deep more
    | false =>
      obtain ⟨name, rest, rfl⟩ := List.exists_cons_of_ne_nil filled
      exact (follow_flat there deep "" _).trans (follow_flat there deep name rest).symm

/-- A directory that is listed in the place of names is found right below it. -/
theorem follow_down {start : List String} {entries : List (String × Entry)} {below : Entry}
    {name : String}
    (there : follow root true links start names = .ok ⟨directory, .directory entries⟩)
    (step : StepName name) (listed : entries.lookup name = some below)
    (deep : below.isDirectory = true)
    (found : follow root true links start (names ++ [name]) = .ok place) :
    place.names = directory ++ [name] := by
  obtain ⟨less, same⟩ := follow_append root links start names
  have here : root.get? directory = some (.directory entries) := follow_get there
  have lower : root.get? (directory ++ [name]) = some below := get_snoc here listed
  obtain ⟨filled, current, parent, -⟩ := step
  rw [same true [name] (List.cons_ne_nil _ _), there] at found
  simp only [Except.bind] at found
  rw [follow, here] at found
  by_cases long : nameLimit < byteLength name.toList
  · simp [filled, current, parent, long] at found
  · have onward : follow root true less (directory ++ [name]) [] = .ok place := by
      cases below with
      | file | link | special => cases deep
      | directory | closed => simpa [filled, current, parent, long, Entry.entries, listed] using found
    rw [follow, lower] at onward
    simpa using congrArg Place.names (Except.ok.inj onward).symm

/-- Unless it leads to a link, a path leads to the same place when a link at its end is followed. -/
theorem follow_link_or_same (root : Entry) (links : Nat) (directory names : List String) :
    (∃ names' target, follow root false links directory names = .ok ⟨names', .link target⟩) ∨
      follow root false links directory names = follow root true links directory names := by
  fun_induction follow root false links directory names with
  | case8 links directory here there name rest _ _ _ _ target listed _ => exact Or.inl ⟨_, target, rfl⟩
  | case1 links directory names none =>
    refine Or.inr ?_
    rw [follow.eq_def, none]
  | case2 links directory here there =>
    refine Or.inr ?_
    rw [follow, there]
  | case3 | case6 | case7 | case9 =>
    refine Or.inr ?_
    rw [follow]
    simp [*]
  | case4 | case5 | case10 | case11 =>
    rename_i ih
    refine ih.imp_right fun same => ?_
    rw [same]
    conv => rhs; rw [follow]
    simp [*]

end

section
variable {system : FileSystem} {path name : String}

/-- Unless it leads to a link, a path leads to the same place when a link at its end is followed. -/
theorem resolve_link_or_same (system : FileSystem) (path : String) :
    (∃ names target, system.resolve false path = .ok ⟨names, .link target⟩) ∨
      system.resolve false path = system.resolve true path := by
  simp only [FileSystem.resolve]
  split
  · exact Or.inr rfl
  split
  · exact Or.inr rfl
  split
  · exact Or.inr rfl
  · exact follow_link_or_same _ _ _ _

/-- A place that a path leads to is found by following its names. -/
theorem resolve_eq {last : Bool} {place : Place} (found : system.resolve last path = .ok place) :
    path ≠ "" ∧ follow system.root last linkLimit (startOf system.here path) (segments path) =
      .ok place := by
  unfold FileSystem.resolve at found
  split at found
  · cases found
  split at found
  · cases found
  split at found
  · cases found
  · next filled _ _ => exact ⟨filled, found⟩

/-- A path that begins in the current directory leads where its names do. -/
theorem resolve_of_follow {last : Bool} {place : Place} (names : List String)
    (fits : path ≠ "" ∧ '\x00' ∉ path.toList ∧ byteLength path.toList ≤ pathLimit ∧
      path.toList.head? ≠ some '/' ∧ segments path = names)
    (found : follow system.root last linkLimit system.here names = .ok place) :
    system.resolve last path = .ok place := by
  obtain ⟨filled, whole, short, relative, rfl⟩ := fits
  rw [FileSystem.resolve, if_neg filled, if_neg (by simpa using whole),
    if_neg (Nat.not_lt.mpr short), startOf, if_neg relative, found]

/-- A place is where its names lead. -/
theorem resolve_get {last : Bool} {place : Place} (found : system.resolve last path = .ok place) :
    system.root.get? place.names = some place.entry :=
  follow_get (resolve_eq found).2

theorem startOf_join (filled : path ≠ "") (directory : List String) :
    startOf directory (join path name) = startOf directory path := by
  obtain ⟨char, rest, whole⟩ : ∃ char rest, path.toList = char :: rest :=
    List.exists_cons_of_ne_nil fun none => filled (String.toList_inj.mp none)
  simp only [startOf, join]
  split <;> simp [whole]

/-- A directory that is listed in the place of a path is found right below it. -/
theorem resolve_join {names : List String} {entries : List (String × Entry)} {below : Entry}
    {place : Place}
    (there : system.resolve true path = .ok ⟨names, .directory entries⟩) (step : StepName name)
    (listed : entries.lookup name = some below) (deep : below.isDirectory = true)
    (found : system.resolve true (join path name) = .ok place) : place.names = names ++ [name] := by
  obtain ⟨filled, there⟩ := resolve_eq there
  obtain ⟨-, found⟩ := resolve_eq found
  rw [startOf_join filled] at found
  rcases @segments_join path name step with added | ⟨front, slash, added⟩
  · rw [added] at found
    exact follow_down there step listed deep found
  · have blank := follow_blanks system.root true linkLimit (startOf system.here path) front
      (List.cons_ne_nil name [])
    rw [added, ← blank, ← List.singleton_append, ← List.append_assoc, ← slash] at found
    exact follow_down there step listed deep found

end

/-- A name of a file in the directory in which commands are run. -/
def PlainName (name : String) : Prop := PlainStep name ∧ '\x00' ∉ name.toList

instance (name : String) : Decidable (PlainName name) := inferInstanceAs (Decidable (_ ∧ _))

/-- A file in the root directory is found at its name. -/
theorem resolve_entry {entries : List (String × Entry)} {name : String}
    {content : Except String (List UInt8)} (plain : PlainName name)
    (entry : entries.lookup name = some (.file content)) :
    FileSystem.resolve ⟨.directory entries, []⟩ true name = .ok ⟨[name], .file content⟩ := by
  obtain ⟨⟨step, short⟩, whole⟩ := plain
  have fits : byteLength name.toList ≤ pathLimit := by
    simp only [pathLimit, nameLimit] at *
    omega
  have relative : name.toList.head? ≠ some '/' := fun slash =>
    step.2.2.2 (List.mem_of_mem_head? slash)
  refine resolve_of_follow [name] ⟨step.1, whole, fits, relative, segments_single step⟩
    (follow_of_get (by simpa using ⟨step, short⟩) ?_ fun target => nofun)
  simp [Entry.get?, Entry.entries, entry]

/-- What a path leads to is read from the bytes of the file there. -/
theorem readText_of_resolve {system : FileSystem} {path text : String} {names : List String}
    {bytes : List UInt8} (there : system.resolve true path = .ok ⟨names, .file (.ok bytes)⟩)
    (decoded : Text.decodeUtf8 bytes = .ok text) : readText system path = .ok text := by
  simp only [readText, there, decoded]

/-- A file in the root directory is read at its name. -/
theorem readText_entry {entries : List (String × Entry)} {name text : String} {bytes : List UInt8}
    (plain : PlainName name) (entry : entries.lookup name = some (.file (.ok bytes)))
    (decoded : Text.decodeUtf8 bytes = .ok text) :
    readText ⟨.directory entries, []⟩ name = .ok text :=
  readText_of_resolve (resolve_entry plain entry) decoded

/-- A file in the root directory that cannot be read is named with the reason. -/
theorem readText_unread {entries : List (String × Entry)} {name reason : String}
    (plain : PlainName name) (entry : entries.lookup name = some (.file (.error reason))) :
    readText ⟨.directory entries, []⟩ name = .error (.unread name reason) := by
  simp only [readText, resolve_entry plain entry]

/-- A system of files in the directory in which commands are run, which is the root. -/
def filesHere (files : List (String × String)) : FileSystem :=
  ⟨.directory (files.map fun file => (file.1, .file (.ok file.2.toUTF8.toList))), []⟩

end Files
end QueryStore
