import PatternMachine.Program.Run
import PatternMachine.Program.ThreadList

/-!
# Closure of thread lists

Between two additions a thread list is settled: what it has visited is closed under the targets of
instructions, and its threads are the visited places at which a thread rests. Inside an addition
the targets still pending are exempt. `settled_follow` says that following pending pointers
settles a list, and `mem_visited_follow_iff` that it visits exactly what runs without characters
reach from there, although no pointer is followed twice. `mem_visited_foldl_add_iff` carries this
over to a list to which several pointers are added.
-/

namespace PatternMachine

/-- Whether a thread at a pointer waits for the next character. -/
def Program.Rests (p : Program) (pointer : Int) : Prop :=
  ∃ instruction, p.lookup? pointer = some instruction ∧ instruction.isResting = true

namespace ThreadList

open Program (Run)

/-- A list whose visited pointers are closed under targets, up to those still pending. -/
structure Settled (p : Program) (pending : List Int) (list : ThreadList) : Prop where
  closed : ∀ pointer ∈ list.visited, ∀ instruction, p.lookup? pointer = some instruction →
    ∀ target ∈ instruction.targets, target ∈ list.visited ∨ target ∈ pending
  mem_threads_iff : ∀ pointer,
    pointer ∈ list.threads ↔ pointer ∈ list.visited ∧ p.Rests pointer
  distinct : list.threads.Nodup

variable {p : Program} {list : ThreadList} {pending : List Int} {pointer : Int}

theorem settled_empty (p : Program) : Settled p [] empty where
  closed := by simp [empty]
  mem_threads_iff := by simp [empty]
  distinct := by simp [empty]

namespace Settled

theorem skip
    (settled : Settled p (pointer :: pending) list) (visited : pointer ∈ list.visited) :
    Settled p pending list where
  closed := by
    intro source member instruction found target offered
    rcases settled.closed source member instruction found target offered with inside | later
    · exact .inl inside
    · rcases List.mem_cons.mp later with rfl | later
      · exact .inl visited
      · exact .inr later
  mem_threads_iff := settled.mem_threads_iff
  distinct := settled.distinct

theorem miss
    (settled : Settled p (pointer :: pending) list) (missing : p.lookup? pointer = none) :
    Settled p pending (list.miss pointer) where
  closed := by
    intro source member instruction found target offered
    rcases List.mem_cons.mp member with rfl | member
    · cases missing.symm.trans found
    · rcases settled.closed source member instruction found target offered with inside | later
      · exact .inl (List.mem_cons_of_mem _ inside)
      · rcases List.mem_cons.mp later with rfl | later
        · exact .inl List.mem_cons_self
        · exact .inr later
  mem_threads_iff := by
    intro other
    rw [show (list.miss pointer).threads = list.threads from rfl, settled.mem_threads_iff]
    constructor
    · rintro ⟨visited, rests⟩
      exact ⟨List.mem_cons_of_mem _ visited, rests⟩
    · rintro ⟨visited, instruction, found, resting⟩
      rcases List.mem_cons.mp visited with rfl | visited
      · cases missing.symm.trans found
      · exact ⟨visited, instruction, found, resting⟩
  distinct := settled.distinct

theorem enter
    {instruction : Instruction}
    (settled : Settled p (pointer :: pending) list)
    (fresh : pointer ∉ list.visited) (found : p.lookup? pointer = some instruction) :
    Settled p (instruction.targets ++ pending) (list.enter pointer instruction) where
  closed := by
    intro source member other found' target offered
    rcases List.mem_cons.mp member with rfl | member
    · cases found.symm.trans found'
      exact .inr (List.mem_append_left _ offered)
    · rcases settled.closed source member other found' target offered with inside | later
      · exact .inl (List.mem_cons_of_mem _ inside)
      · rcases List.mem_cons.mp later with rfl | later
        · exact .inl List.mem_cons_self
        · exact .inr (List.mem_append_right _ later)
  mem_threads_iff := by
    intro other
    have rests_iff : p.Rests pointer ↔ instruction.isResting = true := by
      simp [Program.Rests, found]
    have before := settled.mem_threads_iff other
    by_cases same : other = pointer
    · subst same
      simp only [ThreadList.enter, List.mem_cons, true_or, true_and, rests_iff]
      split <;> simp_all
    · simp only [ThreadList.enter, List.mem_cons, same, false_or, ← before]
      split <;> simp [same]
  distinct := by
    have absent : pointer ∉ list.threads := fun member =>
      fresh ((settled.mem_threads_iff pointer).mp member).1
    unfold ThreadList.enter
    split
    · apply List.nodup_append.mpr
      refine ⟨settled.distinct, by simp, ?_⟩
      intro other member same single equal
      rw [equal, List.mem_singleton.mp single] at member
      exact absent member
    · exact settled.distinct

theorem weaken (settled : Settled p [] list) (pending : List Int) : Settled p pending list where
  closed := by
    intro source member instruction found target offered
    exact .inl (by simpa using settled.closed source member instruction found target offered)
  mem_threads_iff := settled.mem_threads_iff
  distinct := settled.distinct

/-- A settled list has visited whatever runs without characters reach from what it has visited. -/
theorem mem_visited_of_run
    {first last : Int} {text : Text}
    (settled : Settled p [] list) (visited : first ∈ list.visited)
    (run : Run p first text last) (empty : text = []) :
    last ∈ list.visited := by
  induction run with
  | stay pointer => exact visited
  | turn found offered _ ih =>
      apply ih _ empty
      simpa using settled.closed _ visited _ found _ offered
  | pass found passes _ _ => cases empty

end Settled

/-- Induction along the pending pointers, which are skipped, marked or entered. -/
@[elab_as_elim]
theorem follow_induction
    {motive : List Int → ThreadList → Prop}
    (done : ∀ list, motive [] list)
    (skip : ∀ pointer pending (list : ThreadList), pointer ∈ list.visited →
      motive pending list → motive (pointer :: pending) list)
    (miss : ∀ pointer pending (list : ThreadList), pointer ∉ list.visited →
      p.lookup? pointer = none →
      motive pending (list.miss pointer) → motive (pointer :: pending) list)
    (enter : ∀ pointer pending (list : ThreadList) instruction, pointer ∉ list.visited →
      p.lookup? pointer = some instruction →
      motive (instruction.targets ++ pending) (list.enter pointer instruction) →
      motive (pointer :: pending) list)
    (pending : List Int) (list : ThreadList) :
    motive pending list := by
  apply follow.induct p motive done skip miss
  intro pointer pending list fresh instruction found entered
  exact enter pointer pending list instruction fresh found entered

theorem settled_follow (settled : Settled p pending list) :
    Settled p [] (follow p pending list) := by
  induction pending, list using follow_induction (p := p) with
  | done list => simpa using settled
  | skip pointer pending list visited ih =>
      rw [follow_of_visited visited]
      exact ih (settled.skip visited)
  | miss pointer pending list fresh missing ih =>
      rw [follow_of_missing fresh missing]
      exact ih (settled.miss missing)
  | enter pointer pending list instruction fresh found ih =>
      rw [follow_of_found fresh found]
      exact ih (settled.enter fresh found)

theorem mem_visited_follow
    (member : pointer ∈ list.visited ∨ pointer ∈ pending) :
    pointer ∈ (follow p pending list).visited := by
  induction pending, list using follow_induction (p := p) with
  | done list => simpa using member
  | skip head pending list visited ih =>
      rw [follow_of_visited visited]
      grind
  | miss head pending list fresh missing ih =>
      rw [follow_of_missing fresh missing]
      apply ih
      simp only [ThreadList.miss, List.mem_cons] at member ⊢
      grind
  | enter head pending list instruction fresh found ih =>
      rw [follow_of_found fresh found]
      apply ih
      simp only [ThreadList.enter, List.mem_cons, List.mem_append] at member ⊢
      grind

/-- What following visits has been visited before or is reached from a pending pointer. -/
theorem run_of_mem_visited_follow (member : pointer ∈ (follow p pending list).visited) :
    pointer ∈ list.visited ∨ ∃ start ∈ pending, Run p start [] pointer := by
  induction pending, list using follow_induction (p := p) with
  | done list => simpa using member
  | skip head pending list visited ih =>
      rw [follow_of_visited visited] at member
      rcases ih member with before | ⟨start, inside, run⟩
      · exact .inl before
      · exact .inr ⟨start, List.mem_cons_of_mem _ inside, run⟩
  | miss head pending list fresh missing ih =>
      rw [follow_of_missing fresh missing] at member
      rcases ih member with before | ⟨start, inside, run⟩
      · rcases List.mem_cons.mp before with rfl | before
        · exact .inr ⟨pointer, List.mem_cons_self, .stay pointer⟩
        · exact .inl before
      · exact .inr ⟨start, List.mem_cons_of_mem _ inside, run⟩
  | enter head pending list instruction fresh found ih =>
      rw [follow_of_found fresh found] at member
      rcases ih member with before | ⟨start, inside, run⟩
      · rcases List.mem_cons.mp before with rfl | before
        · exact .inr ⟨pointer, List.mem_cons_self, .stay pointer⟩
        · exact .inl before
      · rcases List.mem_append.mp inside with offered | inside
        · exact .inr ⟨head, List.mem_cons_self, .turn found offered run⟩
        · exact .inr ⟨start, List.mem_cons_of_mem _ inside, run⟩

/-- Following visits exactly what runs without characters reach from the pending pointers. -/
theorem mem_visited_follow_iff (settled : Settled p [] list) :
    pointer ∈ (follow p pending list).visited ↔
      pointer ∈ list.visited ∨ ∃ start ∈ pending, Run p start [] pointer := by
  constructor
  · exact run_of_mem_visited_follow
  · rintro (visited | ⟨start, inside, run⟩)
    · exact mem_visited_follow (.inl visited)
    · have after := settled_follow (settled.weaken pending)
      exact after.mem_visited_of_run (mem_visited_follow (.inr inside)) run rfl

theorem settled_foldl_add (settled : Settled p [] list) (starts : List Int) :
    Settled p [] (starts.foldl (add p) list) := by
  induction starts generalizing list with
  | nil => exact settled
  | cons start starts ih => exact ih (settled_follow (settled.weaken [start]))

theorem mem_visited_foldl_add_iff (settled : Settled p [] list) (starts : List Int) :
    pointer ∈ (starts.foldl (add p) list).visited ↔
      pointer ∈ list.visited ∨ ∃ start ∈ starts, Run p start [] pointer := by
  induction starts generalizing list with
  | nil => simp
  | cons start starts ih =>
      have after : Settled p [] (list.add p start) := settled_follow (settled.weaken [start])
      rw [List.foldl_cons, ih after, add, mem_visited_follow_iff settled]
      simp [or_assoc]

end ThreadList

end PatternMachine
