import PatternMachine.Proofs.Program.Guarded

/-!
# Visits

What following a pointer does to a thread list can be said by recursion: a visit does nothing at a
pointer that has been visited, and otherwise marks it and visits its targets one after the other,
each with everything visited before it, or keeps it as a thread. A loop over pending pointers may
hold a pointer several times and asks only when it takes it up. `exists_takes_visit` says that a
loop which takes up a place comes, after some turns, to the pointers behind it with the list that
the visit leaves. A turn shortens the pending pointers by one, or marks a new place and lengthens
them by at most one, so that `add_eq_visit` bounds the number of turns.
-/

namespace PatternMachine

theorem Instruction.targets_eq_nil_of_isResting
    {instruction : Instruction} (resting : instruction.isResting = true) :
    instruction.targets = [] := by
  cases instruction <;> simp_all [isResting, targets]

namespace ThreadList

open Instruction (InRange)

variable {p : Program} {list : ThreadList} {pointer : Int} {pending : List Int}

def mark (list : ThreadList) (pointer : Int) : ThreadList :=
  { list with visited := pointer :: list.visited }

def keep (list : ThreadList) (pointer : Int) : ThreadList :=
  { list with threads := list.threads ++ [pointer] }

theorem remaining_le_of_subset
    {visited others : List Int} (subset : ∀ known ∈ visited, known ∈ others) :
    remaining p others ≤ remaining p visited := by
  refine List.countP_mono_left fun other _ unvisited => ?_
  simp only [decide_eq_true_eq] at unvisited ⊢
  exact fun known => unvisited (subset other known)

/--
Visit a pointer and all that its instruction leads to. The second target of a split is visited with
everything visited from the first, and the recursion ends because a visit forgets nothing.
-/
def visitKeeping (p : Program) (list : ThreadList) (pointer : Int) :
    { next : ThreadList // ∀ known ∈ list.visited, known ∈ next.visited } :=
  if _ : pointer ∈ list.visited then
    ⟨list, fun _ known => known⟩
  else
    match _ : p.lookup? pointer with
    | none => ⟨list.mark pointer, fun _ => List.mem_cons_of_mem _⟩
    | some (.jump target) =>
        let next := visitKeeping p (list.mark pointer) target
        ⟨next, fun other known => next.2 other (List.mem_cons_of_mem _ known)⟩
    | some (.split first second) =>
        let middle := visitKeeping p (list.mark pointer) first
        let next := visitKeeping p middle second
        ⟨next, fun other known =>
          next.2 other (middle.2 other (List.mem_cons_of_mem _ known))⟩
    | some _ => ⟨(list.mark pointer).keep pointer, fun _ => List.mem_cons_of_mem _⟩
termination_by remaining p list.visited
decreasing_by
  · exact remaining_cons_lt ‹_› ‹_›
  · exact remaining_cons_lt ‹_› ‹_›
  · exact Nat.lt_of_le_of_lt (remaining_le_of_subset middle.2) (remaining_cons_lt ‹_› ‹_›)

/-- The list that a visit of a pointer leaves. -/
def visit (p : Program) (list : ThreadList) (pointer : Int) : ThreadList :=
  visitKeeping p list pointer

/-- A visit, by recursion over what the pointer leads to. -/
theorem visit_eq (p : Program) (list : ThreadList) (pointer : Int) :
    visit p list pointer =
      if pointer ∈ list.visited then list
      else
        match p.lookup? pointer with
        | none => list.mark pointer
        | some (.jump target) => visit p (list.mark pointer) target
        | some (.split first second) => visit p (visit p (list.mark pointer) first) second
        | some _ => (list.mark pointer).keep pointer := by
  unfold visit
  rw [visitKeeping]
  split
  · rfl
  · split <;> simp_all

theorem visit_of_visited (visited : pointer ∈ list.visited) : visit p list pointer = list := by
  rw [visit_eq, if_pos visited]

theorem visit_of_jump
    {target : Int} (fresh : pointer ∉ list.visited)
    (found : p.lookup? pointer = some (.jump target)) :
    visit p list pointer = visit p (list.mark pointer) target := by
  rw [visit_eq, if_neg fresh, found]

theorem visit_of_split
    {first second : Int} (fresh : pointer ∉ list.visited)
    (found : p.lookup? pointer = some (.split first second)) :
    visit p list pointer = visit p (visit p (list.mark pointer) first) second := by
  rw [visit_eq, if_neg fresh, found]

theorem visit_of_resting
    {instruction : Instruction} (fresh : pointer ∉ list.visited)
    (found : p.lookup? pointer = some instruction) (resting : instruction.isResting = true) :
    visit p list pointer = list.enter pointer instruction := by
  rw [visit_eq, if_neg fresh, found, enter, if_pos resting]
  cases instruction <;> simp_all [Instruction.isResting, keep, mark]

/-- Induction along a visit, which does nothing, marks, keeps or goes on. -/
@[elab_as_elim]
theorem visit_induction
    {motive : ThreadList → Int → Prop}
    (known : ∀ list pointer, pointer ∈ list.visited → motive list pointer)
    (missing : ∀ list pointer, pointer ∉ list.visited → p.lookup? pointer = none →
      motive list pointer)
    (jump : ∀ list pointer, pointer ∉ list.visited → ∀ target,
      p.lookup? pointer = some (.jump target) →
      motive (list.mark pointer) target → motive list pointer)
    (split : ∀ list pointer, pointer ∉ list.visited → ∀ first second,
      p.lookup? pointer = some (.split first second) →
      motive (list.mark pointer) first → motive (visit p (list.mark pointer) first) second →
      motive list pointer)
    (resting : ∀ list pointer, pointer ∉ list.visited → ∀ instruction,
      p.lookup? pointer = some instruction → instruction.isResting = true → motive list pointer)
    (list : ThreadList) (pointer : Int) :
    motive list pointer := by
  apply visitKeeping.induct p motive known missing jump
  · intro list pointer fresh first second found _ first_holds second_holds _
    exact split list pointer fresh first second found first_holds second_holds
  · intro list pointer fresh instruction no_jump no_split found
    refine resting list pointer fresh instruction found ?_
    cases instruction <;> simp_all [Instruction.isResting]

/--
Follow pending pointers in at most so many turns, each of which takes up the pointer in front. There
is no list in the end if the turns run out or a pointer that is new means no place of the program.
-/
def followWithin (p : Program) : Nat → List Int → ThreadList → Option ThreadList
  | _, [], list => some list
  | 0, _ :: _, _ => none
  | turns + 1, pointer :: pending, list =>
      if pointer ∈ list.visited then
        followWithin p turns pending list
      else
        match p.lookup? pointer with
        | none => none
        | some instruction =>
            followWithin p turns (instruction.targets ++ pending) (list.enter pointer instruction)

theorem followWithin_of_visited (visited : pointer ∈ list.visited) (turns : Nat) :
    followWithin p (turns + 1) (pointer :: pending) list = followWithin p turns pending list := by
  rw [followWithin, if_pos visited]

theorem followWithin_of_found
    {instruction : Instruction} (fresh : pointer ∉ list.visited)
    (found : p.lookup? pointer = some instruction) (turns : Nat) :
    followWithin p (turns + 1) (pointer :: pending) list =
      followWithin p turns (instruction.targets ++ pending) (list.enter pointer instruction) := by
  rw [followWithin, if_neg fresh, found]

/-- A loop that ends within some turns ends with the list that following leaves. -/
theorem follow_eq_of_followWithin
    {turns : Nat} {next : ThreadList} (ended : followWithin p turns pending list = some next) :
    follow p pending list = next := by
  fun_induction followWithin p turns pending list with
  | case1 =>
      cases ended
      exact follow_nil p next
  | case2 => cases ended
  | case3 list turns pointer pending visited ih =>
      rw [follow_of_visited visited]
      exact ih ended
  | case4 => cases ended
  | case5 list turns pointer pending fresh instruction found ih =>
      rw [follow_of_found fresh found]
      exact ih ended

/-- The turns that a loop takes over a pointer, until it comes to the pointers behind it. -/
structure Takes (p : Program) (turns : Nat) (list : ThreadList) (pointer : Int)
    (next : ThreadList) : Prop where
  reaches : ∀ more pending,
    followWithin p (turns + more) (pointer :: pending) list = followWithin p more pending next
  bounded : turns + 2 * remaining p next.visited ≤ 1 + 2 * remaining p list.visited

/-- A loop takes up a place of the program for a visit of it. -/
theorem exists_takes_visit (list : ThreadList) (inside : InRange p.size pointer) :
    ∃ turns, Takes p turns list pointer (visit p list pointer) := by
  induction list, pointer using visit_induction (p := p) with
  | known list pointer visited =>
      rw [visit_of_visited visited]
      refine ⟨1, fun more pending => ?_, Nat.le_refl _⟩
      rw [Nat.add_comm, followWithin_of_visited visited]
  | missing list pointer fresh missing =>
      obtain ⟨instruction, fetched⟩ := Program.exists_fetch inside
      cases missing.symm.trans (Program.fetch_eq_ok_iff.mp fetched).2
  | jump list pointer fresh target found ih =>
      have target_inside := Program.inRange_of_mem_targets found (List.mem_singleton_self target)
      obtain ⟨turns, reaches, bounded⟩ := ih target_inside
      rw [visit_of_jump fresh found]
      refine ⟨turns + 1, fun more pending => ?_, ?_⟩
      · rw [Nat.add_right_comm, followWithin_of_found fresh found]
        exact reaches more pending
      · have paid : remaining p (list.mark pointer).visited < remaining p list.visited :=
          remaining_cons_lt fresh found
        omega
  | split list pointer fresh first second found ih ih' =>
      have first_inside : InRange p.size first :=
        Program.inRange_of_mem_targets found (by simp [Instruction.targets])
      have second_inside : InRange p.size second :=
        Program.inRange_of_mem_targets found (by simp [Instruction.targets])
      obtain ⟨turns, reaches, bounded⟩ := ih first_inside
      obtain ⟨turns', reaches', bounded'⟩ := ih' second_inside
      rw [visit_of_split fresh found]
      refine ⟨turns + turns' + 1, fun more pending => ?_, ?_⟩
      · rw [Nat.add_right_comm, followWithin_of_found fresh found, Nat.add_assoc]
        -- The second target waits behind all that the first leads to.
        exact (reaches (turns' + more) (second :: pending)).trans (reaches' more pending)
      · have paid : remaining p (list.mark pointer).visited < remaining p list.visited :=
          remaining_cons_lt fresh found
        omega
  | resting list pointer fresh instruction found resting =>
      have no_targets := Instruction.targets_eq_nil_of_isResting resting
      rw [visit_of_resting fresh found resting]
      refine ⟨1, fun more pending => ?_, ?_⟩
      · rw [Nat.add_comm, followWithin_of_found fresh found, no_targets, List.nil_append]
      · have paid : remaining p (list.enter pointer instruction).visited <
            remaining p list.visited :=
          remaining_cons_lt fresh found
        omega

/--
Adding a thread leaves the list that a visit of its pointer leaves, whatever has been visited before
and however jumps and splits lead back. The loop over pending pointers ends after at most two turns
for each pointer that is still to be visited and one more, and none of its look-ups fails.
-/
theorem add_eq_visit
    (p : Program) (list : ThreadList) (pointer : Int) (inside : InRange p.size pointer) :
    list.add p pointer = visit p list pointer ∧
      ∀ turns, 1 + 2 * remaining p list.visited ≤ turns →
        followWithin p turns [pointer] list = some (visit p list pointer) := by
  obtain ⟨spent, reaches, bounded⟩ := exists_takes_visit list inside
  have ends (turns : Nat) (enough : spent ≤ turns) :
      followWithin p turns [pointer] list = some (visit p list pointer) := by
    obtain ⟨more, rfl⟩ := Nat.exists_eq_add_of_le enough
    rw [reaches, followWithin]
  exact ⟨follow_eq_of_followWithin (ends spent (Nat.le_refl _)),
    fun turns enough => ends turns (by omega)⟩

/--
A list with the last place of a program is added its first place, from where two splits and a jump
lead back and another split comes to one place twice.
-/
theorem add_eq_visit_of_cyclic :
    ∃ p : Program,
      p.code = [.split 1 3, .split 1 2, .jump 0, .split 4 4, .consume ['a'], .accept] ∧
      InRange p.size 0 ∧ followWithin p 23 [0] (empty.add p 5) = some ((empty.add p 5).add p 0) ∧
      visit p (empty.add p 5) 0 = ⟨[4, 3, 2, 1, 0, 5], [5, 4]⟩ := by
  let p : Program :=
    ⟨#[.split 1 3, .split 1 2, .jump 0, .split 4 4, .consume ['a']], by decide⟩
  have inside : InRange p.size 0 := by decide
  have before : empty.add p 5 = ⟨[5], [5]⟩ := by cbv
  obtain ⟨added, ended⟩ := add_eq_visit p (empty.add p 5) 0 inside
  refine ⟨p, rfl, inside, ?_, ?_⟩
  · rw [added]
    exact ended 23 (by rw [before]; decide)
  · rw [← added]
    cbv

end ThreadList

end PatternMachine
