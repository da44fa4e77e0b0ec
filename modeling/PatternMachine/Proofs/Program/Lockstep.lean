import PatternMachine.Program.Simulation
import PatternMachine.Proofs.Program.Closure

/-!
# Threads in lockstep

A thread list visits a text if the places it has visited are exactly those that runs over the text
reach, and follows it if its threads are the resting ones among these. The start list does both with
the empty text, and one step over a character keeps this up, since a run passes over its last
character at a resting place. What one step keeps holds of all lists of a simulation
(`lists_simulateFrom_of_advance`). Hence `follows_lists` describes each of them, and
`accepts_iff_admits` says that a program accepts what its runs admit.
-/

namespace PatternMachine

namespace Program

variable {p : Program} {list : ThreadList} {text : Text}

/-- A run over a text passes over each character at some place. -/
theorem Run.split_at
    {first last : Int} {whole : Text} (run : Run p first whole last)
    {before after : Text} {c : Char} (cut : whole = before ++ c :: after) :
    ∃ middle instruction, Run p first before middle ∧ p.lookup? middle = some instruction ∧
      instruction.passes c = true ∧ Run p (middle + 1) after last := by
  induction run generalizing before with
  | stay pointer => simp at cut
  | turn found offered _ ih =>
      obtain ⟨middle, instruction, start, found', passes, rest⟩ := ih cut
      exact ⟨middle, instruction, .turn found offered start, found', passes, rest⟩
  | @pass pointer last instruction d text found passes rest ih =>
      cases before with
      | nil =>
          obtain ⟨rfl, rfl⟩ := List.cons.inj cut
          exact ⟨pointer, instruction, .stay pointer, found, passes, rest⟩
      | cons e before =>
          obtain ⟨rfl, rfl⟩ := List.cons.inj cut
          obtain ⟨middle, other, start, found', passes', rest⟩ := ih rfl
          exact ⟨middle, other, .pass found passes start, found', passes', rest⟩

theorem rests_of_passes
    {pointer : Int} {instruction : Instruction} {c : Char}
    (found : p.lookup? pointer = some instruction) (passes : instruction.passes c = true) :
    p.Rests pointer := by
  refine ⟨instruction, found, ?_⟩
  cases instruction <;> simp_all [Instruction.passes, Instruction.isResting]

theorem rests_of_accept {pointer : Int} (found : p.lookup? pointer = some .accept) :
    p.Rests pointer :=
  ⟨.accept, found, rfl⟩

/-- A list that holds exactly the resting places that runs over a text reach. -/
def Follows (p : Program) (text : Text) (list : ThreadList) : Prop :=
  ∀ pointer, pointer ∈ list.threads ↔ Run p 0 text pointer ∧ p.Rests pointer

/-- A list that has visited exactly the places that runs over a text reach. -/
def Visits (p : Program) (text : Text) (list : ThreadList) : Prop :=
  ∀ pointer, pointer ∈ list.visited ↔ Run p 0 text pointer

theorem Visits.follows (visits : p.Visits text list) (settled : ThreadList.Settled p [] list) :
    p.Follows text list := by
  intro pointer
  rw [settled.mem_threads_iff, visits pointer]

theorem visits_startList (p : Program) : p.Visits [] p.startList := by
  intro pointer
  have visited_iff : pointer ∈ ([0].foldl (ThreadList.add p) .empty).visited ↔ _ :=
    ThreadList.mem_visited_foldl_add_iff (ThreadList.settled_empty p) [0]
  rw [startList]
  simpa [ThreadList.empty] using visited_iff

theorem follows_startList (p : Program) : p.Follows [] p.startList :=
  (visits_startList p).follows (ThreadList.settled_foldl_add (ThreadList.settled_empty p) [0])

/-- One step over a character visits what runs over the longer text reach. -/
theorem Follows.visits_advance (follows : p.Follows text list) (c : Char) :
    p.Visits (text ++ [c]) (list.advance p c) := by
  intro pointer
  rw [ThreadList.advance_eq_foldl,
    ThreadList.mem_visited_foldl_add_iff (ThreadList.settled_empty p)]
  constructor
  · rintro (none | ⟨start, member, rest⟩)
    · cases none
    · obtain ⟨place, passing, rfl⟩ := List.mem_map.mp member
      obtain ⟨inside, passing⟩ := List.mem_filter.mp passing
      obtain ⟨instruction, found, passes⟩ := (Option.any_eq_true _ _).mp passing
      exact ((follows place).mp inside).1.trans (.pass found passes rest)
  · intro run
    obtain ⟨middle, instruction, before, found, passes, rest⟩ := run.split_at rfl
    refine .inr ⟨middle + 1, List.mem_map.mpr ⟨middle, ?_, rfl⟩, rest⟩
    refine List.mem_filter.mpr ⟨(follows middle).mpr ⟨before, rests_of_passes found passes⟩, ?_⟩
    exact (Option.any_eq_true _ _).mpr ⟨instruction, found, passes⟩

/-- One step over a character extends the text that a list follows. -/
theorem Follows.advance (follows : p.Follows text list) (c : Char) :
    p.Follows (text ++ [c]) (list.advance p c) := by
  refine (follows.visits_advance c).follows ?_
  rw [ThreadList.advance_eq_foldl]
  exact ThreadList.settled_foldl_add (ThreadList.settled_empty p) _

theorem simulateFrom_of_extinct
    {c : Char} (extinct : (list.advance p c).threads = []) (position : Nat) (rest : Text) :
    p.simulateFrom position list (c :: rest) = ⟨list, [list.advance p c], some (c, position)⟩ := by
  simp [simulateFrom, extinct]

theorem simulateFrom_of_alive
    {c : Char} (alive : (list.advance p c).threads ≠ []) (position : Nat) (rest : Text) :
    p.simulateFrom position list (c :: rest) =
      ⟨list, (p.simulateFrom (position + 1) (list.advance p c) rest).lists,
        (p.simulateFrom (position + 1) (list.advance p c) rest).extinction⟩ := by
  simp [simulateFrom, alive]

/-- What one step over a character keeps holds of each list of a simulation. -/
theorem lists_simulateFrom_of_advance
    {motive : Text → ThreadList → Prop}
    (keeps : ∀ before list c, motive before list → motive (before ++ [c]) (list.advance p c))
    {before : Text} (holds : motive before list) (position : Nat) {k : Nat}
    {later : ThreadList} (reached : (p.simulateFrom position list text).lists[k]? = some later) :
    motive (before ++ text.take k) later := by
  induction text generalizing before list position k with
  | nil =>
      cases k with
      | zero =>
          cases reached
          simpa using holds
      | succ k => simp [simulateFrom, Simulation.lists] at reached
  | cons c rest ih =>
      cases k with
      | zero =>
          have same : list = later := by simpa [Simulation.lists] using reached
          simpa [same] using same ▸ holds
      | succ k =>
          have next := keeps before list c holds
          by_cases extinct : (list.advance p c).threads = []
          · rw [simulateFrom_of_extinct extinct] at reached
            cases k with
            | zero =>
                cases reached
                simpa using next
            | succ k => simp [Simulation.lists] at reached
          · rw [simulateFrom_of_alive extinct] at reached
            simpa using ih next (position + 1) reached

theorem length_lists_simulateFrom_le
    (p : Program) (position : Nat) (list : ThreadList) (text : Text) :
    (p.simulateFrom position list text).lists.length ≤ text.length + 1 := by
  simpa [Simulation.lists] using length_later_simulateFrom_le p position list text

theorem threads_final_of_short
    {position : Nat} (short : (p.simulateFrom position list text).lists.length ≤ text.length) :
    (p.simulateFrom position list text).final.threads = [] := by
  induction text generalizing list position with
  | nil => simp [simulateFrom, Simulation.lists] at short
  | cons c rest ih =>
      by_cases extinct : (list.advance p c).threads = []
      · rw [simulateFrom_of_extinct extinct]
        exact extinct
      · rw [simulateFrom_of_alive extinct] at short ⊢
        have later := ih (by simpa [Simulation.lists] using short)
        simpa [Simulation.final, Simulation.lists, List.getLast?_cons] using later

end Program

theorem Simulation.getElem?_lists_final (s : Simulation) :
    s.lists[s.later.length]? = some s.final := by
  have last : s.lists.getLast? = some s.final := by
    simp [lists, final, List.getLast?_cons]
  rw [← last, List.getLast?_eq_getElem?]
  simp [lists]

namespace Program

variable {p : Program} {text : Text}

theorem le_length_of_lists
    {k : Nat} {list : ThreadList} (reached : (p.simulate text).lists[k]? = some list) :
    k ≤ text.length := by
  have inside := (List.getElem?_eq_some_iff.mp reached).1
  have bound := p.length_lists_simulateFrom_le 0 p.startList text
  exact Nat.le_of_lt_succ (Nat.lt_of_lt_of_le inside bound)

/-- Each list of the simulation of a text follows the characters read so far. -/
theorem follows_lists
    {k : Nat} {list : ThreadList} (reached : (p.simulate text).lists[k]? = some list) :
    p.Follows (text.take k) list := by
  simpa using lists_simulateFrom_of_advance (fun _ _ c follows => follows.advance c)
    (follows_startList p) 0 reached

theorem visits_lists
    {k : Nat} {list : ThreadList} (reached : (p.simulate text).lists[k]? = some list) :
    p.Visits (text.take k) list := by
  have both := lists_simulateFrom_of_advance
    (motive := fun before list => p.Follows before list ∧ p.Visits before list)
    (fun _ _ c known => ⟨known.1.advance c, known.1.visits_advance c⟩)
    ⟨follows_startList p, visits_startList p⟩ 0 reached
  simpa using both.2

/-- No run consumes a text before whose end the simulation ends. -/
theorem not_run_of_short
    (short : (p.simulate text).lists.length ≤ text.length) (last : Int) :
    ¬ Run p 0 text last := by
  intro run
  have final := follows_lists (p.simulate text).getElem?_lists_final
  have inside : (p.simulate text).later.length < text.length := by
    simp only [Simulation.lists, List.length_cons] at short
    omega
  have cut := (List.take_append_drop (p.simulate text).later.length text).symm
  rw [List.drop_eq_getElem_cons inside] at cut
  obtain ⟨middle, instruction, before, found, passes, _⟩ := run.split_at cut
  have thread := (final middle).mpr ⟨before, rests_of_passes found passes⟩
  rw [simulate, threads_final_of_short short] at thread
  cases thread

theorem Follows.isAccepting_iff {list : ThreadList} (follows : p.Follows text list) :
    list.isAccepting p = true ↔ p.Admits text := by
  simp only [ThreadList.isAccepting, List.any_eq_true, decide_eq_true_eq]
  constructor
  · rintro ⟨pointer, thread, accepting⟩
    exact ⟨pointer, ((follows pointer).mp thread).1, accepting⟩
  · rintro ⟨pointer, run, accepting⟩
    exact ⟨pointer, (follows pointer).mpr ⟨run, rests_of_accept accepting⟩, accepting⟩

/-- A program accepts the texts that it admits. -/
theorem accepts_iff_admits : p.accepts text = true ↔ p.Admits text := by
  have bound := p.length_lists_simulateFrom_le 0 p.startList text
  rcases Nat.lt_or_ge text.length (p.simulate text).lists.length with full | short
  · have final := follows_lists (p.simulate text).getElem?_lists_final
    have whole : (p.simulate text).later.length = text.length := by
      simp only [Simulation.lists, List.length_cons, simulate] at bound full ⊢
      omega
    rw [whole, List.take_length] at final
    exact final.isAccepting_iff
  · constructor
    · intro accepting
      rw [accepts, simulate, ThreadList.isAccepting, threads_final_of_short short] at accepting
      cases accepting
    · rintro ⟨last, run, _⟩
      exact absurd run (not_run_of_short short last)

end Program

end PatternMachine
