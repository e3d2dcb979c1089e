import QueryStore.Proofs.Fragment.Declares
import QueryStore.Proofs.Fragment.Inserted
import QueryStore.Proofs.Fragment.Keeping

/-! Lists that are put into a text behind the names of its fragments are cut out of it again, one
by one, and the rest of the text is as it was (`lists_recovered`). The text before a list is kept
up to the name that the list is put behind (`Recovered.list`), and so is what comes before the next
fragment (`Recovered.kept`). -/
namespace QueryStore
open Text Grammar

/-- What becomes of the chunks of a text, from an offset on, when lists are put into the text: the
chunks there, and the pieces that they are cut into. So far `shift` bytes were put in. -/
structure Recovered (offset shift : Nat) (points : List (Nat × List Char)) (chunks chunks' : List Chunk)
    (found : List Piece) : Prop where
  chunked : Chunk.Chunked chunks'
  head : (Chunk.textOf chunks').head? = (Chunk.textOf chunks).head?
  inserted : Inserted offset points (Chunk.textOf chunks) (Chunk.textOf chunks')
  blanked : Inserted offset (blankPoints points) (Chunk.textOf chunks) (blankedText found)
  cuts : Cuts (.fresh (offset + shift)) chunks' found

section
variable {heads : Heads} {offset shift : Nat} {points : List (Nat × List Char)}
  {part chunks chunks' : List Chunk} {found : List Piece}

/-- Chunks before others are kept. -/
theorem Recovered.kept (chunked : Chunk.Chunked (part ++ chunks))
    (still : Still heads (.fresh (offset + shift)) part)
    (fresh : ((Spot.fresh (offset + shift)).after part).Fresh)
    (later : Recovered (offset + byteLength (Chunk.textOf part)) shift points chunks chunks' found) :
    Recovered offset shift points (part ++ chunks) (part ++ chunks')
      (part.map (Piece.kept ·.text) ++ found) where
  chunked := chunked.swap later.chunked (Chunk.Edge.head later.head.symm)
  head := by
    rw [Chunk.textOf_append, Chunk.textOf_append, List.head?_append, List.head?_append, later.head]
  inserted := by
    rw [Chunk.textOf_append, Chunk.textOf_append]
    exact later.inserted.behind
  blanked := by
    rw [Chunk.textOf_append, (kept_append part found).1]
    exact later.blanked.behind
  cuts := by
    refine still.cuts ?_
    have place : (Spot.fresh (offset + shift)).after part =
        .fresh (offset + byteLength (Chunk.textOf part) + shift) := by
      have reached := (Spot.fresh (offset + shift)).after_offset part
      rcases after : (Spot.fresh (offset + shift)).after part with ⟨offset', depth, recent⟩
      rw [after] at fresh reached
      obtain ⟨rfl, rfl⟩ : depth = ⟨0, 0⟩ ∧ recent = [] := ⟨fresh.outside, fresh.names⟩
      simp only [Spot.fresh, Spot.mk.injEq, and_true] at reached ⊢
      omega
    rw [place]
    exact later.cuts

/-- Chunks go on behind a name with the chunks of a list, and behind it as before. -/
private theorem list_chunked {front : List Chunk} {name list : List Char} (declares : Declares list)
    (chunked : Chunk.Chunked (front ++ .name name :: chunks)) (chunked' : Chunk.Chunked chunks') :
    Chunk.Chunked (front ++ .name name :: (Chunk.ofText list ++ chunks')) ∧ name ≠ [] := by
  obtain ⟨inside, cut, -⟩ := declares.chunks
  obtain ⟨others, opens⟩ := List.head?_eq_some_iff.mp declares.opens
  have closing : Chunk.Chunked (.mark ')' :: chunks') :=
    Chunk.chunked_cons.mpr ⟨Chunk.mark_follows (by decide) _, chunked'⟩
  have listed : Chunk.Chunked (Chunk.ofText list ++ chunks') := by
    have whole := Chunk.chunked_ofText list
    rw [cut, ← List.cons_append] at whole
    have joined := whole.swap closing (Chunk.Edge.head rfl)
    rw [cut]
    simpa using joined
  obtain ⟨follows, -⟩ := Chunk.chunked_cons.mp chunked.suffix
  have ends : ∀ char ∈ (Chunk.textOf (Chunk.ofText list ++ chunks')).head?,
      isNameChar char = false := by
    rw [Chunk.textOf_append, Chunk.textOf_ofText, opens]
    rintro _ ⟨⟩
    decide
  obtain ⟨char, more, spelled, -⟩ := Chunk.follows_iff.mp follows
  obtain rfl : name = char :: more := spelled
  exact ⟨chunked.swap (Chunk.chunked_cons.mpr ⟨Chunk.name_follows follows ends, listed⟩)
    (Chunk.Edge.head rfl), by simp⟩

/-- A list is put in behind the name of a fragment, and is cut out there. -/
theorem Recovered.list {front : List Chunk} {name list : List Char} {keyword : Nat}
    (declares : Declares list) (ends : part = front ++ [.name name])
    (chunked : Chunk.Chunked (part ++ chunks)) (still : Still heads (.fresh (offset + shift)) part)
    (heading : ((Spot.fresh (offset + shift)).after part).heading? = some (keyword, name))
    (later : Recovered (offset + byteLength (Chunk.textOf part)) (shift + byteLength list) points
      chunks chunks' found) :
    Recovered offset shift ((offset + byteLength (Chunk.textOf part), list) :: points)
      (part ++ chunks) (part ++ (Chunk.ofText list ++ chunks'))
      (part.map (Piece.kept ·.text) ++ .excised ⟨String.ofList name, keyword, list⟩ :: found) := by
  have whole : ∀ others : List Chunk, part ++ others = front ++ .name name :: others := by
    simp [ends]
  obtain ⟨chunked', named⟩ := list_chunked declares (whole chunks ▸ chunked) later.chunked
  have filled : Chunk.textOf part ≠ [] := by simp [ends, Chunk.text, named]
  refine ⟨whole _ ▸ chunked', ?_, ?_, ?_, still.cuts ?_⟩
  · obtain ⟨char, more, spelled⟩ := List.exists_cons_of_ne_nil filled
    rw [Chunk.textOf_append part, Chunk.textOf_append part, spelled]
    rfl
  · rw [Chunk.textOf_append, Chunk.textOf_append, Chunk.textOf_append, Chunk.textOf_ofText]
    exact .next filled later.inserted
  · rw [Chunk.textOf_append, (kept_append part _).1]
    exact .next filled later.blanked
  · obtain ⟨inside, cut, balanced⟩ := declares.chunks
    have place := (Spot.fresh (offset + shift)).after_offset part
    have outside : ((Spot.fresh (offset + shift)).after part).depth = ⟨0, 0⟩ := by
      by_contra deep
      rw [Spot.heading?, if_neg deep] at heading
      cases heading
    have text : '(' :: Chunk.textOf (inside ++ [.mark ')']) = list := by
      have spelled := congrArg Chunk.textOf cut
      rw [Chunk.textOf_ofText] at spelled
      exact spelled.symm
    have opens : ((Spot.fresh (offset + shift)).after part).opens? (.mark '(') =
        some (keyword, name) := heading
    have closed : closingParenthesis 0 ((inside ++ [.mark ')']) ++ chunks') =
        some (inside ++ [.mark ')'], chunks') := by
      rw [List.append_assoc]
      exact closingParenthesis_balanced balanced chunks'
    have behind : Cuts ⟨((Spot.fresh (offset + shift)).after part).offset +
        byteLength ('(' :: Chunk.textOf (inside ++ [.mark ')'])),
        ((Spot.fresh (offset + shift)).after part).depth, []⟩ chunks' found := by
      rw [text, outside, place]
      have same : offset + byteLength (Chunk.textOf part) + (shift + byteLength list) =
          offset + shift + byteLength (Chunk.textOf part) + byteLength list := by omega
      have cuts := later.cuts
      rwa [same] at cuts
    have excised := Cuts.excise opens closed behind
    rw [text] at excised
    rw [cut]
    exact excised

/-- A definition is kept as a whole. -/
theorem definition_recovered {placement : Placement} {run tokens : List Token}
    {definition : Definition} (stands : DefinitionStands placement run definition)
    (aligned : Aligned offset (run ++ tokens) chunks) (chunked : Chunk.Chunked chunks) (shift : Nat) :
    ∃ offset' rest, Aligned offset' tokens rest ∧ Chunk.Chunked rest ∧ ∀ points chunks' found,
      Recovered offset' shift points rest chunks' found → ∃ chunks'' found',
        Recovered offset shift points chunks chunks'' found' ∧
        variableLists found' = variableLists found := by
  have keeps : Keeps (fun _ => True) shift Spot.Fresh run Spot.Fresh :=
    definition_keeps stands fun _ _ _ _ => trivial
  obtain ⟨part, rest, rfl, later, kept⟩ := keeps _ _ _ aligned
  obtain ⟨still, fresh⟩ := kept (.fresh (offset + shift)) rfl ⟨rfl, rfl⟩
  refine ⟨_, rest, later, chunked.suffix, fun points chunks' found recovered => ?_⟩
  exact ⟨_, _, recovered.kept chunked still fresh, (kept_append part found).2⟩

/-- A list that is put in behind the name of a fragment is cut out, and the rest of the fragment is
kept. -/
theorem fragment_recovered {keyword name on type : Token} {run tokens : List Token}
    {list : List Char} (worded : keyword.isWord "fragment" = true) (named : name.isName = true)
    (parted : on.isWord "on" = true) (typed : type.isName = true) (tail : Tail run)
    (declares : Declares list)
    (aligned : Aligned offset (keyword :: name :: on :: type :: (run ++ tokens)) chunks)
    (chunked : Chunk.Chunked chunks) (shift : Nat) :
    ∃ offset' rest, Aligned offset' tokens rest ∧ Chunk.Chunked rest ∧ ∀ points chunks' found,
      Recovered offset' (shift + byteLength list) points rest chunks' found → ∃ chunks'' found',
        Recovered offset shift ((name.stop, list) :: points) chunks chunks'' found' ∧
        variableLists found' =
          ⟨name.text, keyword.place.offset + shift, list⟩ :: variableLists found := by
  have worded' : keyword.isName = true ∧ keyword.text.toList = "fragment".toList := by
    simp only [Token.isWord, Bool.and_eq_true, decide_eq_true_eq] at worded
    simp [Token.isName, worded]
  have first : Keeps (fun _ => True) shift Spot.Fresh [keyword] _ :=
    name_keeps worded'.1 fun _ _ _ _ => trivial
  obtain ⟨part, _, rfl, later, kept⟩ := first _ (name :: on :: type :: (run ++ tokens)) _ aligned
  obtain ⟨gap, _, rfl, stop, later', kept'⟩ :=
    @name_part (fun _ => True) shift _ named _ (fun _ _ _ _ => trivial) _ _ _ later
  have second : Keeps (fun _ => True) (shift + byteLength list) Spot.Fresh (on :: type :: run)
      Spot.Fresh :=
    fragment_keeps parted typed tail (fun _ _ _ _ => trivial) fun _ _ _ _ => trivial
  obtain ⟨part', rest, rfl, later'', kept''⟩ := second _ tokens _ later'
  -- The list stands where the cut is behind the keyword and the name.
  obtain ⟨still, behind⟩ := kept (.fresh (offset + shift)) rfl ⟨rfl, rfl⟩
  have place : ((Spot.fresh (offset + shift)).after part).offset =
      offset + byteLength (Chunk.textOf part) + shift := by
    rw [Spot.after_offset]
    exact Nat.add_right_comm ..
  obtain ⟨still', outside, _, ⟨_, rfl, rfl⟩, recent⟩ := kept' _ place behind
  have still'' := still_append.mpr ⟨still, still'⟩
  have heading : ((Spot.fresh (offset + shift)).after
      (part ++ (gap ++ [.name name.text.toList]))).heading? =
        some (keyword.place.offset + shift, name.text.toList) := by
    rw [Spot.after_append, Spot.heading?, if_pos outside, recent]
    exact if_pos worded'.2
  have stop' : name.stop =
      offset + byteLength (Chunk.textOf (part ++ (gap ++ [.name name.text.toList]))) := by
    rw [Chunk.textOf_append, byteLength_append, ← Nat.add_assoc]
    exact stop
  obtain ⟨quiet, fresh⟩ := kept'' (.fresh (name.stop + (shift + byteLength list))) rfl ⟨rfl, rfl⟩
  have chunked' := chunked
  rw [← List.append_assoc part] at chunked' ⊢
  refine ⟨_, rest, later'', chunked.suffix.suffix.suffix, fun points chunks' found recovered => ?_⟩
  have behind' := recovered.kept chunked'.suffix quiet fresh
  rw [stop'] at behind' ⊢
  refine ⟨_, _, behind'.list declares (List.append_assoc part gap _).symm chunked' still'' heading, ?_⟩
  rw [(kept_append _ _).2, ← (kept_append part' found).2]
  exact congrArg (· :: _) (by rw [String.ofList_toList])

end

/-- Where the lists of the chosen fragments are put in. -/
def chosenPoints (chosen : Fragment → Option (List Char)) (stop : Fragment → Nat)
    (fragments : List Fragment) : List (Nat × List Char) :=
  fragments.filterMap fun fragment => (chosen fragment).map fun list => (stop fragment, list)

/-- The lists of the chosen fragments, with the offsets of the keywords before them. -/
def chosenLists (chosen : Fragment → Option (List Char)) (start : Fragment → Nat)
    (fragments : List Fragment) : List VariableList :=
  fragments.filterMap fun fragment => (chosen fragment).map fun list =>
    ⟨fragment.name, start fragment, list⟩

/-- A list that is put in before the other fragments moves their keywords on. -/
private theorem chosenLists_cons {chosen : Fragment → Option (List Char)} {start : Fragment → Nat}
    {fragment : Fragment} {fragments : List Fragment} {list : List Char} {stop : Nat}
    (choice : chosen fragment = some list) (before : start fragment < stop)
    (behind : ∀ other ∈ fragments, stop ≤ start other) (points : List (Nat × List Char))
    (shift : Nat) :
    chosenLists chosen (fun other => shift + moved ((stop, list) :: points) (start other))
        (fragment :: fragments) = ⟨fragment.name, start fragment + shift, list⟩ ::
      chosenLists chosen (fun other => shift + byteLength list + moved points (start other))
        fragments := by
  have here : shift + moved ((stop, list) :: points) (start fragment) = start fragment + shift := by
    rw [moved_before before, Nat.add_comm]
  have others : chosenLists chosen (fun other => shift + moved ((stop, list) :: points) (start other))
      fragments = chosenLists chosen
        (fun other => shift + byteLength list + moved points (start other)) fragments := by
    refine List.filterMap_congr fun other member => ?_
    have further : shift + moved ((stop, list) :: points) (start other) =
        shift + byteLength list + moved points (start other) := by
      rw [moved_behind (behind other member), Nat.add_assoc]
    simp only [further]
  rw [← others, ← here]
  exact List.filterMap_cons_some (by rw [choice, Option.map_some])

section
variable {placement : Placement} {chosen : Fragment → Option (List Char)}
  {start stop : Fragment → Nat} {offset shift : Nat} {chunks : List Chunk} {run others : List Token}
  {fragment : Fragment} {fragments : List Fragment}

variable (chosen start stop) in
/-- Lists can be put into a text, from an offset on, behind the names of the chosen ones of its
fragments, and are cut out of it again there. So far `shift` bytes were put in. -/
def Recovers (offset shift : Nat) (chunks : List Chunk) (fragments : List Fragment) : Prop :=
  ∃ chunks' found,
    Recovered offset shift (chosenPoints chosen stop fragments) chunks chunks' found ∧
    variableLists found = chosenLists chosen
      (fun fragment => shift + moved (chosenPoints chosen stop fragments) (start fragment)) fragments

variable (start stop) in
/-- A fragment starts with its keyword and stops, for what is put in, with its name. -/
def NamedAt (run : List Token) (fragment : Fragment) : Prop :=
  ∃ keyword name others, run = keyword :: name :: others ∧
    start fragment = keyword.place.offset ∧ stop fragment = name.stop

/-- Nothing is put in behind the last definition. -/
private theorem recovers_end (aligned : Aligned offset [] chunks) (chunked : Chunk.Chunked chunks) :
    Recovers chosen start stop offset shift chunks [] := by
  have blank := aligned.behind_last
  have still : Still (fun _ => True) (.fresh (offset + shift)) chunks :=
    gap_still blank fun _ _ => trivial
  have fresh : ((Spot.fresh (offset + shift)).after chunks).Fresh := by
    rw [Spot.after_gap blank]
    exact ⟨rfl, rfl⟩
  have none : Recovered (offset + byteLength (Chunk.textOf chunks)) shift [] [] [] [] :=
    ⟨Chunk.ofText_nil, rfl, .done, .done, .done⟩
  rw [← List.append_nil chunks] at chunked
  have recovered := none.kept chunked still fresh
  rw [List.append_nil] at recovered
  exact ⟨_, _, recovered, (kept_append chunks []).2⟩

/-- Nothing is put in behind a definition that is not chosen. -/
private theorem recovers_kept {definition : Definition}
    (stands : DefinitionStands placement run definition)
    (aligned : Aligned offset (run ++ others) chunks) (chunked : Chunk.Chunked chunks)
    (later : ∀ {offset chunks}, Aligned offset others chunks → Chunk.Chunked chunks →
      Recovers chosen start stop offset shift chunks fragments) :
    Recovers chosen start stop offset shift chunks fragments := by
  obtain ⟨_, _, aligned', chunked', behind⟩ := definition_recovered stands aligned chunked shift
  obtain ⟨_, found, recovered, lists⟩ := later aligned' chunked'
  obtain ⟨_, _, recovered', lists'⟩ := behind _ _ _ recovered
  exact ⟨_, _, recovered', lists'.trans lists⟩

/-- The list of a chosen fragment is put in behind its name, and moves the other fragments on. -/
private theorem recovers_chosen {list : List Char} (choice : chosen fragment = some list)
    (declares : Declares list) (stands : DefinitionStands placement run (.fragment fragment))
    (placed : NamedAt start stop run fragment) (before : start fragment < stop fragment)
    (behind : ∀ other ∈ fragments, stop fragment ≤ start other)
    (aligned : Aligned offset (run ++ others) chunks) (chunked : Chunk.Chunked chunks)
    (later : ∀ {offset chunks}, Aligned offset others chunks → Chunk.Chunked chunks →
      Recovers chosen start stop offset (shift + byteLength list) chunks fragments) :
    Recovers chosen start stop offset shift chunks (fragment :: fragments) := by
  obtain ⟨keyword, name, _, split, starts, stops⟩ := placed
  cases stands with
  | fragment worded named parted typed directives selected =>
    cases split
    obtain ⟨_, _, aligned', chunked', wrap⟩ := fragment_recovered worded named parted typed
      (directives_extend directives _ (selections_tail selected)) declares aligned chunked shift
    obtain ⟨_, found, recovered, lists⟩ := later aligned' chunked'
    obtain ⟨_, _, recovered', lists'⟩ := wrap _ _ _ recovered
    rw [lists, ← starts] at lists'
    rw [← stops] at recovered'
    have points : chosenPoints chosen stop (_ :: fragments) =
        (stop _, list) :: chosenPoints chosen stop fragments :=
      List.filterMap_cons_some (by rw [choice, Option.map_some])
    rw [Recovers, points, chosenLists_cons choice before behind]
    exact ⟨_, _, recovered', lists'⟩

/-- Lists that are put in behind the names of fragments are cut out again, with the names and the
places of the fragments. -/
theorem lists_recovered {tokens : List Token} {definitions : List Definition}
    (runs : Runs (DefinitionStands placement) tokens definitions)
    (declares : ∀ fragment ∈ fragmentsOf definitions, ∀ list ∈ chosen fragment, Declares list)
    (placed : ∀ run fragment, run <:+: tokens → DefinitionStands placement run (.fragment fragment) →
      NamedAt start stop run fragment)
    (apart : tokens.Pairwise fun left right => left.stop ≤ right.place.offset)
    (wide : ∀ token ∈ tokens, token.place.offset < token.stop)
    (aligned : Aligned offset tokens chunks) (chunked : Chunk.Chunked chunks) (shift : Nat) :
    Recovers chosen start stop offset shift chunks (fragmentsOf definitions) := by
  induction runs generalizing offset chunks shift with
  | nil => exact recovers_end aligned chunked
  | @cons run others definition definitions stands rest ih =>
    obtain ⟨early, apart', ordered⟩ := List.pairwise_append.mp apart
    have within : others <:+: run ++ others := (List.suffix_append run others).isInfix
    have later : (∀ fragment ∈ fragmentsOf definitions, ∀ list ∈ chosen fragment, Declares list) →
        ∀ shift {offset chunks}, Aligned offset others chunks → Chunk.Chunked chunks →
          Recovers chosen start stop offset shift chunks (fragmentsOf definitions) :=
      fun declares' shift _ _ aligned' chunked' =>
        ih declares' (fun _ _ held => placed _ _ (held.trans within)) apart'
          (fun token member => wide token (List.mem_append_right _ member)) aligned' chunked' shift
    cases definition with
    | operation operation =>
      exact recovers_kept stands aligned chunked (later declares shift)
    | fragment fragment =>
      have whole : fragmentsOf (.fragment fragment :: definitions) =
          fragment :: fragmentsOf definitions := rfl
      rw [whole] at declares ⊢
      obtain ⟨here, declares'⟩ := List.forall_mem_cons.mp declares
      cases choice : chosen fragment with
      | none =>
        have kept := recovers_kept stands aligned chunked (later declares' shift)
        simpa only [Recovers, chosenPoints, chosenLists, choice, Option.map_none,
          List.filterMap_cons_none] using kept
      | some list =>
        have here' := placed run fragment (List.prefix_append run others).isInfix stands
        obtain ⟨keyword, name, _, rfl, starts, stops⟩ := here'
        refine recovers_chosen choice (here list choice) stands ⟨_, _, _, rfl, starts, stops⟩ ?_ ?_
          aligned chunked (later declares' _)
        · have first := wide keyword (by simp)
          have apart := (List.pairwise_cons.mp early).1 name List.mem_cons_self
          have second := wide name (by simp)
          omega
        · intro other member
          obtain ⟨run', inside, stands'⟩ := rest.exists_of_mem (mem_fragmentsOf.mp member)
          obtain ⟨keyword', _, _, rfl, starts', -⟩ := placed _ _ (inside.trans within) stands'
          rw [starts', stops]
          exact ordered name (by simp) keyword' (inside.subset List.mem_cons_self)

end

end QueryStore
