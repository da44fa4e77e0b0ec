import Mathlib.Data.List.Forall2
import PatternMachine.Proofs.FirstOccurrences
import PatternMachine.Proofs.Program.Search

/-!
# Priority of threads

A thread list visits no pointer twice, whereas a search turns back only from pointers on its own
way. Both find the same places in the same order: what lies behind a visited pointer has been
visited with it, unless the pointer is on the way, and then the search turns back as well. So
`yields_explore` says that following a pointer adds what a search from it arrives at, as far as it
is new. One step over a character then keeps a list from which a search resumes (`Resumes.advance`),
and `threads_lists` says so of every list of a simulation.
-/

namespace PatternMachine

open Program (Track Rests Arrival explore arrivals search)
open FirstOccurrences

namespace ThreadList

variable {p : Program} {passed starts pending : List Int} {list : ThreadList} {pointer : Int}

def stops (p : Program) (passed : List Int) (pointer : Int) : List Int :=
  (explore p passed pointer).map Arrival.pointer

/-- Whether a list has visited the pointers on a way, and behind every other pointer its targets. -/
structure ClosedOff (p : Program) (passed : List Int) (list : ThreadList) : Prop where
  on_way : ∀ pointer ∈ passed, pointer ∈ list.visited
  behind : ∀ pointer ∈ list.visited, pointer ∉ passed → ∀ instruction,
    p.lookup? pointer = some instruction → ∀ target ∈ instruction.targets, target ∈ list.visited

namespace ClosedOff

theorem of_settled (settled : Settled p [] list) : ClosedOff p [] list where
  on_way := by simp
  behind pointer visited _ instruction found target offered := by
    simpa using settled.closed pointer visited instruction found target offered

/-- A visited pointer may be taken to be on the way. -/
theorem extend (closed : ClosedOff p passed list) (visited : pointer ∈ list.visited) :
    ClosedOff p (pointer :: passed) list where
  on_way := by simpa using ⟨visited, closed.on_way⟩
  behind other member away := closed.behind other member fun known => away (by simp [known])

theorem mem_visited_of_track
    {first last : Int} {text : Text} {choices : List Choice}
    (closed : ClosedOff p passed list) (visited : first ∈ list.visited)
    (track : Track p passed first text choices last) (empty : text = []) :
    last ∈ list.visited := by
  induction track with
  | stay => exact visited
  | @turn passed pointer target _ instruction _ made _ fresh found offered _ ih =>
      have target_offered : target ∈ instruction.targets := by
        rw [← instruction.map_snd_options]
        exact List.mem_map_of_mem offered
      exact ih (closed.extend visited)
        (closed.behind pointer visited fresh instruction found target target_offered) empty
  | pass => cases empty

theorem miss (closed : ClosedOff p passed list) (missing : p.lookup? pointer = none) :
    ClosedOff p passed (list.miss pointer) where
  on_way other member := List.mem_cons_of_mem _ (closed.on_way other member)
  behind other member away instruction found target offered := by
    rcases List.mem_cons.mp member with rfl | member
    · cases missing.symm.trans found
    · exact List.mem_cons_of_mem _
        (closed.behind other member away instruction found target offered)

theorem enter (closed : ClosedOff p passed list) (instruction : Instruction) :
    ClosedOff p (pointer :: passed) (list.enter pointer instruction) where
  on_way := by simpa [ThreadList.enter] using fun other member => .inr (closed.on_way other member)
  behind other member away instruction found target offered := by
    rcases List.mem_cons.mp member with rfl | member
    · exact absurd List.mem_cons_self away
    · exact List.mem_cons_of_mem _ (closed.behind other member
        (fun known => away (List.mem_cons_of_mem _ known)) instruction found target offered)

theorem leave
    {instruction : Instruction}
    (closed : ClosedOff p (pointer :: passed) list) (found : p.lookup? pointer = some instruction)
    (followed : ∀ target ∈ instruction.targets, target ∈ list.visited) :
    ClosedOff p passed list where
  on_way other member := closed.on_way other (List.mem_cons_of_mem _ member)
  behind other member away other_instruction found' := by
    by_cases same : other = pointer
    · subst same
      cases found.symm.trans found'
      exact followed
    · exact closed.behind other member (by simpa using ⟨same, away⟩) other_instruction found'

end ClosedOff

/--
What becomes of a list when some pointers are followed before those that are still pending: they
are visited and what lies behind them is closed off up to a way, and the given resting places are
added as far as they are new.
-/
structure Grows
    (p : Program) (passed starts pending places : List Int) (list next : ThreadList) : Prop where
  follow_eq : follow p (starts ++ pending) list = follow p pending next
  closed : ClosedOff p passed next
  settled : Settled p pending next
  visited : ∀ start ∈ starts, start ∈ next.visited
  kept : ∀ pointer ∈ list.visited, pointer ∈ next.visited
  threads_eq : next.threads = (list.threads ++ places).eraseDups

/-- Whether following pointers adds the given resting places to every list. -/
def Yields (p : Program) (passed starts places : List Int) : Prop :=
  ∀ pending list, ClosedOff p passed list → Settled p (starts ++ pending) list →
    ∃ next, Grows p passed starts pending places list next

theorem yields_nil (p : Program) (passed : List Int) : Yields p passed [] [] := by
  intro pending list closed settled
  refine ⟨list, rfl, closed, settled, by simp, fun _ visited => visited, ?_⟩
  rw [List.append_nil, eraseDups_eq_self settled.distinct]

theorem Yields.append
    {more places others : List Int}
    (first : Yields p passed starts places) (second : Yields p passed more others) :
    Yields p passed (starts ++ more) (places ++ others) := by
  intro pending list closed settled
  rw [List.append_assoc] at settled
  obtain ⟨middle, grows⟩ := first (more ++ pending) list closed settled
  obtain ⟨next, grows'⟩ := second pending middle grows.closed grows.settled
  refine ⟨next, ?_, grows'.closed, grows'.settled, ?_,
    fun pointer member => grows'.kept pointer (grows.kept pointer member), ?_⟩
  · rw [List.append_assoc, grows.follow_eq, grows'.follow_eq]
  · intro start member
    rcases List.mem_append.mp member with member | member
    · exact grows'.kept start (grows.visited start member)
    · exact grows'.visited start member
  · rw [grows'.threads_eq, grows.threads_eq, eraseDups_eraseDups_append, List.append_assoc]

theorem yields_of_fresh
    (fresh : ∀ pending list, ClosedOff p passed list → Settled p (pointer :: pending) list →
      pointer ∉ list.visited → ∃ next, Grows p passed [pointer] pending (stops p passed pointer)
        list next) :
    Yields p passed [pointer] (stops p passed pointer) := by
  intro pending list closed settled
  by_cases visited : pointer ∈ list.visited
  · refine ⟨list, follow_of_visited visited, closed, settled.skip visited, by simpa using visited,
      fun _ member => member, ?_⟩
    rw [eraseDups_append_of_known, eraseDups_eq_self settled.distinct]
    -- Where a search goes on from a visited pointer, everything has been visited.
    intro place member
    obtain ⟨arrival, inside, rfl⟩ := List.mem_map.mp member
    obtain ⟨_, track, rests⟩ := Program.mem_explore_iff.mp inside
    exact (settled.mem_threads_iff _).mpr ⟨closed.mem_visited_of_track visited track rfl, rests⟩
  · exact fresh pending list closed settled visited

theorem yields_options
    (each : ∀ target, Yields p passed [target] (stops p passed target))
    (options : List (List Choice × Int)) :
    Yields p passed (options.map Prod.snd)
      (options.flatMap fun option => stops p passed option.2) := by
  induction options with
  | nil => exact yields_nil p passed
  | cons option options ih => exact (each option.2).append ih

theorem stops_of_turning
    {instruction : Instruction} (fresh : pointer ∉ passed)
    (found : p.lookup? pointer = some instruction) (turning : instruction.isResting = false) :
    stops p passed pointer =
      instruction.options.flatMap fun option => stops p (pointer :: passed) option.2 := by
  simp only [stops, Program.explore_of_turning fresh found turning, List.map_flatMap, List.map_map]
  rfl

/-- Following a pointer adds what a search from it arrives at. -/
theorem yields_explore (p : Program) (passed : List Int) (pointer : Int) :
    Yields p passed [pointer] (stops p passed pointer) := by
  induction passed, pointer using Program.explore_induction (p := p) with
  | known passed pointer known =>
      refine yields_of_fresh fun pending list closed settled unvisited => ?_
      exact absurd (closed.on_way pointer known) unvisited
  | missing passed pointer fresh missing =>
      refine yields_of_fresh fun pending list closed settled unvisited => ?_
      have nothing : stops p passed pointer = [] := by
        simp [stops, Program.explore_of_missing missing]
      refine ⟨list.miss pointer, follow_of_missing unvisited missing, closed.miss missing,
        settled.miss missing, by simp [ThreadList.miss],
        fun other member => List.mem_cons_of_mem _ member, ?_⟩
      rw [nothing, List.append_nil, eraseDups_eq_self settled.distinct]
      rfl
  | resting passed pointer fresh instruction found resting =>
      refine yields_of_fresh fun pending list closed settled unvisited => ?_
      have no_targets : instruction.targets = [] := by
        rw [← instruction.map_snd_options, Instruction.options_eq_nil_of_isResting resting]
        rfl
      have entered := settled.enter unvisited found
      rw [no_targets] at entered
      refine ⟨list.enter pointer instruction, ?_, ?_, entered, by simp [ThreadList.enter],
        fun other member => List.mem_cons_of_mem _ member, ?_⟩
      · rw [List.singleton_append, follow_of_found unvisited found, no_targets, List.nil_append]
      · exact (closed.enter instruction).leave found (by simp [no_targets])
      · have place : stops p passed pointer = [pointer] := by
          simp [stops, Program.explore_of_resting fresh found resting]
        have threads_eq : (list.enter pointer instruction).threads = list.threads ++ [pointer] :=
          if_pos resting
        rw [place, ← threads_eq, eraseDups_eq_self entered.distinct]
  | turning passed pointer fresh instruction found turning ih =>
      refine yields_of_fresh fun pending list closed settled unvisited => ?_
      have entered := settled.enter unvisited found
      have targets_yield := yields_options ih instruction.options
      rw [instruction.map_snd_options] at targets_yield
      obtain ⟨next, grows⟩ := targets_yield pending _ (closed.enter instruction) entered
      have kept : ∀ other ∈ pointer :: list.visited, other ∈ next.visited := grows.kept
      refine ⟨next, ?_, grows.closed.leave found grows.visited, grows.settled, ?_,
        fun other member => kept other (List.mem_cons_of_mem _ member), ?_⟩
      · rw [List.singleton_append, follow_of_found unvisited found, grows.follow_eq]
      · simpa using kept pointer List.mem_cons_self
      · have threads_eq : (list.enter pointer instruction).threads = list.threads :=
          if_neg (by simp [turning])
        rw [grows.threads_eq, threads_eq, stops_of_turning fresh found turning]

theorem threads_foldl_add (settled : Settled p [] list) (starts : List Int) :
    (starts.foldl (add p) list).threads =
      (list.threads ++ starts.flatMap (stops p [])).eraseDups := by
  induction starts generalizing list with
  | nil => simp [eraseDups_eq_self settled.distinct]
  | cons start starts ih =>
      obtain ⟨next, grows⟩ :=
        yields_explore p [] start [] list (.of_settled settled) (settled.weaken [start])
      have added : list.add p start = next := by simpa [add] using grows.follow_eq
      rw [List.foldl_cons, added, ih grows.settled, grows.threads_eq, eraseDups_eraseDups_append,
        List.flatMap_cons, List.append_assoc]

end ThreadList

namespace Program

open ThreadList (stops threads_foldl_add settled_empty)

variable {p : Program} {list : ThreadList} {text : Text}

def onward (p : Program) : Text → Nat → Int → List Int
  | _, 0, place => [place]
  | [], _ + 1, _ => []
  | c :: rest, k + 1, place =>
      if (p.lookup? place).any (Instruction.passes c) then
        (arrivals p (place + 1) rest k).map Arrival.pointer
      else []

@[simp]
theorem onward_zero (p : Program) (text : Text) : onward p text 0 = fun place => [place] := by
  funext place
  cases text <;> rfl

theorem map_pointer_arrivals (p : Program) (start : Int) (text : Text) (k : Nat) :
    (arrivals p start text k).map Arrival.pointer =
      (stops p [] start).flatMap (onward p text k) := by
  cases k with
  | zero => simp [arrivals_zero, stops]
  | succ k =>
      cases text with
      | nil => simp [arrivals_nil_succ, onward]
      | cons c rest =>
          rw [arrivals_succ, List.map_flatMap, stops, List.flatMap_map]
          refine List.flatMap_congr fun stop _ => ?_
          simp only [onward]
          split
          · rw [List.map_map]
            rfl
          · rfl

theorem flatMap_filter {α β : Type} (select : α → Bool) (expand : α → List β) (entries : List α) :
    (entries.filter select).flatMap expand =
      entries.flatMap fun entry => if select entry then expand entry else [] := by
  induction entries with
  | nil => rfl
  | cons entry entries ih =>
      rw [List.filter_cons, List.flatMap_cons, ← ih]
      split <;> simp

theorem onward_cons_succ (p : Program) (c : Char) (rest : Text) (k : Nat) (place : Int) :
    onward p (c :: rest) (k + 1) place =
      (if (p.lookup? place).any (Instruction.passes c) then stops p [] (place + 1)
        else []).flatMap (onward p rest k) := by
  rw [onward]
  split
  · exact map_pointer_arrivals p (place + 1) rest k
  · rfl

/--
A list from whose threads a search goes on, over any text, as a search from the start does over
this text behind the given one, as far as first arrivals are concerned.
-/
structure Resumes (p : Program) (before : Text) (list : ThreadList) : Prop where
  distinct : list.threads.Nodup
  onward_eq : ∀ rest k, (list.threads.flatMap (onward p rest k)).eraseDups =
    ((arrivals p 0 (before ++ rest) (before.length + k)).map Arrival.pointer).eraseDups

theorem resumes_startList (p : Program) : p.Resumes [] p.startList := by
  have start : p.startList.threads = (stops p [] 0).eraseDups := by
    have added := threads_foldl_add (settled_empty p) [0]
    simpa [startList, ThreadList.empty] using added
  refine ⟨start ▸ nodup_eraseDups _, fun rest k => ?_⟩
  rw [start, eraseDups_flatMap_eraseDups, ← map_pointer_arrivals]
  simp

theorem Resumes.advance {before : Text} (resumes : p.Resumes before list) (c : Char) :
    p.Resumes (before ++ [c]) (list.advance p c) := by
  have threads_eq : (list.advance p c).threads =
      (list.threads.flatMap fun place =>
        if (p.lookup? place).any (Instruction.passes c) then stops p [] (place + 1)
        else []).eraseDups := by
    rw [ThreadList.advance_eq_foldl, threads_foldl_add (settled_empty p), List.flatMap_map,
      flatMap_filter]
    rfl
  refine ⟨threads_eq ▸ nodup_eraseDups _, fun rest k => ?_⟩
  have behind := resumes.onward_eq (c :: rest) (k + 1)
  rw [List.flatMap_congr fun place _ => onward_cons_succ p c rest k place,
    ← List.flatMap_assoc] at behind
  rw [threads_eq, eraseDups_flatMap_eraseDups, behind]
  simp [Nat.add_assoc, Nat.add_comm 1 k]

/-- Each list of a simulation holds the first arrivals of a search from the start. -/
theorem threads_lists
    {k : Nat} (reached : (p.simulate text).lists[k]? = some list) :
    list.threads = ((arrivals p 0 text k).map Arrival.pointer).eraseDups := by
  have resumes : p.Resumes (text.take k) list := by
    simpa using lists_simulateFrom_of_advance (fun _ _ c resumes => resumes.advance c)
      (resumes_startList p) 0 reached
  have now := resumes.onward_eq (text.drop k) 0
  rwa [onward_zero, List.flatMap_singleton', eraseDups_eq_self resumes.distinct,
    List.take_append_drop, Nat.add_zero, List.length_take_of_le (le_length_of_lists reached)] at now

/-- A track from the start over a text to a place, of which no other one makes preferred choices. -/
structure LeastTrack
    (p : Program) (text : Text) (choices : List Choice) (pointer : Int) : Prop where
  track : Track p [] 0 text choices pointer
  least : ∀ other, Track p [] 0 text other pointer →
    other = choices ∨ List.Lex Choice.Before choices other

/--
The list of a simulation behind `k` characters holds each resting place once that tracks over these
characters reach, in the dictionary order of the least choices of a track to it. This is the order
in which a backtracking search over the text first arrives there.
-/
theorem threads_in_order_of_least_tracks
    (p : Program) (text : Text) {k : Nat} {list : ThreadList}
    (reached : (p.simulate text).lists[k]? = some list) :
    list.threads.Nodup ∧
      (∀ pointer, pointer ∈ list.threads ↔
        p.Rests pointer ∧ ∃ choices, Track p [] 0 (text.take k) choices pointer) ∧
      (∃ rows, List.Forall₂ (LeastTrack p (text.take k)) rows list.threads ∧
        rows.Pairwise (List.Lex Choice.Before)) ∧
      list.threads =
        (((search p 0 text).filter fun arrival => arrival.consumed = k).map
          Arrival.pointer).eraseDups := by
  have threads_eq := threads_lists reached
  have within := le_length_of_lists reached
  refine ⟨threads_eq ▸ nodup_eraseDups _, fun pointer => ?_, ?_, threads_eq⟩
  · rw [threads_eq, List.mem_eraseDups, List.mem_map]
    constructor
    · rintro ⟨arrival, member, rfl⟩
      obtain ⟨_, _, track, rests⟩ := mem_arrivals_iff.mp member
      exact ⟨rests, arrival.choices, track⟩
    · rintro ⟨rests, choices, track⟩
      exact ⟨⟨choices, k, pointer⟩, mem_arrivals_iff.mpr ⟨rfl, within, track, rests⟩, rfl⟩
  · obtain ⟨firsts, sublist, pointers_eq, least⟩ :=
      exists_first_occurrences Arrival.pointer (pairwise_arrivals p 0 text k)
    refine ⟨firsts.map Arrival.choices, ?_, ?_⟩
    · rw [threads_eq, ← pointers_eq, List.forall₂_map_left_iff, List.forall₂_map_right_iff,
        List.forall₂_same]
      intro first member
      obtain ⟨_, _, track, rests⟩ := mem_arrivals_iff.mp (sublist.subset member)
      refine ⟨track, fun other other_track => ?_⟩
      have arrived : ⟨other, k, first.pointer⟩ ∈ arrivals p 0 text k :=
        mem_arrivals_iff.mpr ⟨rfl, within, other_track, rests⟩
      rcases least first member _ arrived rfl with same | precedes
      · exact .inl (congrArg Arrival.choices same)
      · exact .inr precedes.lex
    · rw [List.pairwise_map]
      exact ((pairwise_arrivals p 0 text k).sublist sublist).imp fun precedes => precedes.lex

/--
A cycle without a character through the start, and two ways to the first consuming instruction: the
search comes there first by the split that may also go back.
-/
theorem first_arrivals_with_cycle :
    ∃ p : Program, p.code = [.split 1 3, .split 0 2, .consume ['a'], .split 2 4, .consume ['b'],
        .accept] ∧
      (∃ choices, Track p [] 0 ['a'] choices 4) ∧ (¬ ∃ choices, Track p [] 0 ['a'] choices 5) ∧
      (((search p 0 ['a']).filter fun arrival => arrival.consumed = 1).map
        Arrival.pointer).eraseDups = [2, 4] := by
  let p : Program :=
    ⟨#[.split 1 3, .split 0 2, .consume ['a'], .split 2 4, .consume ['b']], by decide⟩
  have reached : (p.simulate ['a']).lists[1]? = some ⟨[4, 2, 3], [2, 4]⟩ := by cbv
  obtain ⟨_, threads_iff, _, threads_eq⟩ := threads_in_order_of_least_tracks p ['a'] reached
  refine ⟨p, rfl, ((threads_iff 4).mp (by simp)).2, fun tracked => ?_, threads_eq.symm⟩
  simpa using (threads_iff 5).mpr ⟨⟨_, rfl, rfl⟩, tracked⟩

end Program

end PatternMachine
