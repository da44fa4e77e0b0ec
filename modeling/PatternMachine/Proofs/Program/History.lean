import PatternMachine.Proofs.Program.Visiting

/-!
# Histories of thread lists

Threads may be added to a list at any pointers, in any order, also at such as mean no place of the
program. An addition is attempted: it marks each pointer before the pointer is looked up, and stops
at the first one that means no place. `attempt_eq` says that only the pointer that is added can be
one, as targets are places, so that a failed attempt has marked this pointer and done nothing else.
Hence `visited_and_threads_of_history` tells what any history of attempts leaves from the pointers
alone, whatever their order.
-/

namespace PatternMachine

open Instruction (InRange)

namespace Program

variable {p : Program} {pointer : Int}

/-- Whether a pointer means a place of a program, counted from its front or from its back. -/
def Means (p : Program) (pointer : Int) : Prop :=
  -(p.size : Int) ≤ pointer ∧ pointer < p.size

instance (p : Program) (pointer : Int) : Decidable (p.Means pointer) :=
  inferInstanceAs (Decidable (_ ∧ _))

theorem means_of_inRange (inside : InRange p.size pointer) : p.Means pointer := by
  obtain ⟨nonneg, lt_size⟩ := inside
  exact ⟨by omega, lt_size⟩

theorem means_iff_exists_lookup? :
    p.Means pointer ↔ ∃ instruction, p.lookup? pointer = some instruction := by
  have entry_iff (n : Nat) (entries : List Instruction) :
      (∃ instruction, entries[n]? = some instruction) ↔ n < entries.length := by
    rw [← Option.isSome_iff_exists]
    simp
  unfold Means
  rw [lookup?_eq]
  cases pointer with
  | ofNat n =>
      rw [Int.ofNat_eq_natCast, Index.lookup?_ofNat, entry_iff, length_code]
      omega
  | negSucc n =>
      rw [Index.lookup?_negSucc, entry_iff, List.length_reverse, length_code]
      omega

theorem lookup?_eq_none_of_not_means (outside : ¬ p.Means pointer) : p.lookup? pointer = none :=
  Option.eq_none_iff_forall_ne_some.mpr fun instruction found =>
    outside (means_iff_exists_lookup?.mpr ⟨instruction, found⟩)

theorem Run.eq_of_not_means
    {first last : Int} {text : Text} (run : Run p first text last) (outside : ¬ p.Means first) :
    last = first := by
  have missing := lookup?_eq_none_of_not_means outside
  cases run with
  | stay => rfl
  | turn found _ _ => cases missing.symm.trans found
  | pass found _ _ => cases missing.symm.trans found

/-- A run without a character stays where it starts or ends at a place counted from the front. -/
theorem Run.eq_or_inRange {first last : Int} (run : Run p first [] last) :
    last = first ∨ InRange p.size last := by
  cases run with
  | stay => exact .inl rfl
  | turn found offered rest => exact .inr (rest.inRange (inRange_of_mem_targets found offered))

theorem rests_iff_consumes_or_accepts :
    p.Rests pointer ↔
      (∃ expected, p.lookup? pointer = some (.consume expected)) ∨
        p.lookup? pointer = some .accept := by
  constructor
  · rintro ⟨instruction, found, resting⟩
    cases instruction with
    | consume expected => exact .inl ⟨expected, found⟩
    | accept => exact .inr found
    | jump target => cases resting
    | split first second => cases resting
  · rintro (⟨expected, found⟩ | found)
    · exact ⟨_, found, rfl⟩
    · exact ⟨_, found, rfl⟩

end Program

namespace ThreadList

open Program (Run)

variable {p : Program} {list : ThreadList} {pending pointers : List Int} {pointer : Int}

/--
Follow pending pointers up to the first one that is new and means no place. It has been marked when
it is looked up, and the pointers behind it are given up.
-/
def followUntilMiss (p : Program) : List Int → ThreadList → Option Index.Miss × ThreadList
  | [], list => (none, list)
  | pointer :: pending, list =>
      if _ : pointer ∈ list.visited then
        followUntilMiss p pending list
      else
        match _ : p.lookup? pointer with
        | none => (some (Index.miss pointer), list.miss pointer)
        | some instruction =>
            followUntilMiss p (instruction.targets ++ pending) (list.enter pointer instruction)
termination_by pending list => (remaining p list.visited, pending.length)
decreasing_by
  · exact Prod.Lex.right _ (by simp)
  · exact Prod.Lex.left _ _ (remaining_cons_lt ‹_› ‹_›)

/-- Add a thread at a pointer, or tell why this fails; the list is kept either way. -/
def attempt (p : Program) (list : ThreadList) (pointer : Int) : Option Index.Miss × ThreadList :=
  followUntilMiss p [pointer] list

/-- The list that attempts to add threads leave one after the other, failed ones included. -/
def history (p : Program) (pointers : List Int) : ThreadList :=
  pointers.foldl (fun list pointer => (list.attempt p pointer).2) empty

theorem followUntilMiss_of_means (places : ∀ pointer ∈ pending, p.Means pointer) :
    followUntilMiss p pending list = (none, follow p pending list) := by
  induction pending, list using follow_induction (p := p) with
  | done list => rw [followUntilMiss, follow_nil]
  | skip pointer pending list visited ih =>
      rw [followUntilMiss, dif_pos visited, follow_of_visited visited]
      exact ih fun other member => places other (by simp [member])
  | miss pointer pending list fresh missing ih =>
      obtain ⟨instruction, found⟩ :=
        Program.means_iff_exists_lookup?.mp (places pointer (by simp))
      cases missing.symm.trans found
  | enter pointer pending list instruction fresh found ih =>
      rw [followUntilMiss, dif_neg fresh, follow_of_found fresh found]
      split
      next missing => cases missing.symm.trans found
      next other same =>
        cases same.symm.trans found
        refine ih fun target member => ?_
        rcases List.mem_append.mp member with offered | member
        · exact Program.means_of_inRange (Program.inRange_of_mem_targets found offered)
        · exact places target (by simp [member])

theorem add_of_missing (fresh : pointer ∉ list.visited) (missing : p.lookup? pointer = none) :
    list.add p pointer = list.miss pointer := by
  rw [add, follow_of_missing fresh missing, follow_nil]

theorem attempt_eq (p : Program) (list : ThreadList) (pointer : Int) :
    list.attempt p pointer = (list.refusal? p pointer, list.add p pointer) := by
  unfold attempt refusal?
  by_cases visited : pointer ∈ list.visited
  · rw [followUntilMiss, dif_pos visited, if_pos visited, add, follow_of_visited visited,
      followUntilMiss, follow_nil]
  · rw [if_neg visited]
    cases found : p.lookup? pointer with
    | none =>
        rw [followUntilMiss, dif_neg visited, add_of_missing visited found]
        split
        · rfl
        · simp_all
    | some instruction =>
        have place : p.Means pointer := Program.means_iff_exists_lookup?.mpr ⟨instruction, found⟩
        exact followUntilMiss_of_means (by simpa using place)

theorem history_eq_foldl (p : Program) (pointers : List Int) :
    history p pointers = pointers.foldl (add p) empty := by
  unfold history
  congr 1
  funext list pointer
  rw [attempt_eq]

theorem settled_history (p : Program) (pointers : List Int) : Settled p [] (history p pointers) :=
  history_eq_foldl p pointers ▸ settled_foldl_add (settled_empty p) pointers

/--
A history has visited the pointers that have been added and what a run without a character reaches
from those among them that mean a place.
-/
theorem mem_visited_history_iff :
    pointer ∈ (history p pointers).visited ↔
      pointer ∈ pointers ∨ ∃ start ∈ pointers, p.Means start ∧ Run p start [] pointer := by
  rw [history_eq_foldl, mem_visited_foldl_add_iff (settled_empty p)]
  constructor
  · rintro (none | ⟨start, member, run⟩)
    · cases none
    · by_cases place : p.Means start
      · exact .inr ⟨start, member, place, run⟩
      · exact .inl (run.eq_of_not_means place ▸ member)
  · rintro (member | ⟨start, member, _, run⟩)
    · exact .inr ⟨pointer, member, .stay pointer⟩
    · exact .inr ⟨start, member, run⟩

theorem mem_of_mem_visited_history
    (visited : pointer ∈ (history p pointers).visited) (outside : ¬ p.Means pointer) :
    pointer ∈ pointers := by
  rcases mem_visited_history_iff.mp visited with member | ⟨start, member, _, run⟩
  · exact member
  · rcases run.eq_or_inRange with rfl | inside
    · exact member
    · exact absurd (Program.means_of_inRange inside) outside

theorem mem_threads_history_iff :
    pointer ∈ (history p pointers).threads ↔
      pointer ∈ (history p pointers).visited ∧ p.Means pointer ∧
        ((∃ expected, p.lookup? pointer = some (.consume expected)) ∨
          p.lookup? pointer = some .accept) := by
  rw [(settled_history p pointers).mem_threads_iff, ← Program.rests_iff_consumes_or_accepts]
  refine and_congr_right fun _ => ⟨fun rests => ⟨?_, rests⟩, And.right⟩
  obtain ⟨instruction, found, _⟩ := rests
  exact Program.means_iff_exists_lookup?.mpr ⟨instruction, found⟩

theorem attempt_history (p : Program) (pointers : List Int) (pointer : Int) :
    (history p pointers).attempt p pointer =
      if p.Means pointer ∨ pointer ∈ pointers then (none, (history p pointers).add p pointer)
      else (some (Index.miss pointer), (history p pointers).mark pointer) := by
  rw [attempt_eq]
  split
  next known =>
    have granted : (history p pointers).refusal? p pointer = none := by
      rw [refusal?_eq_none_iff, Option.isSome_iff_exists, ← Program.means_iff_exists_lookup?]
      rcases known with place | member
      · exact .inr place
      · exact .inl (mem_visited_history_iff.mpr (.inl member))
    rw [granted]
  next unknown =>
    obtain ⟨outside, first⟩ := not_or.mp unknown
    have missing := Program.lookup?_eq_none_of_not_means outside
    have fresh : pointer ∉ (history p pointers).visited := fun visited =>
      first (mem_of_mem_visited_history visited outside)
    rw [add_of_missing fresh missing, refusal?, if_neg fresh, missing]
    rfl

theorem isAccepting_eq_of_threads
    {other : ThreadList} (same : ∀ pointer, pointer ∈ list.threads ↔ pointer ∈ other.threads) :
    list.isAccepting p = other.isAccepting p := by
  rw [Bool.eq_iff_iff]
  simp only [isAccepting, List.any_eq_true, same]

/--
What a history of attempts to add threads leaves, at any pointers. Its threads differ from each
other. It has visited all these pointers and what is reached from those that mean a place, through
targets only, and it holds as threads the visited places at which the program consumes or accepts.
The next attempt fails if its pointer means no place and has not been tried before; then it marks
the pointer and does nothing else. Another order of the attempts leaves the same visited pointers
and the same threads, and accepts alike.
-/
theorem visited_and_threads_of_history (p : Program) (pointers : List Int) :
    history p pointers = pointers.foldl (add p) empty ∧
      (history p pointers).threads.Nodup ∧
      (∀ pointer, pointer ∈ (history p pointers).visited ↔
        pointer ∈ pointers ∨ ∃ start ∈ pointers, p.Means start ∧ Run p start [] pointer) ∧
      (∀ pointer, pointer ∈ (history p pointers).threads ↔
        pointer ∈ (history p pointers).visited ∧ p.Means pointer ∧
          ((∃ expected, p.lookup? pointer = some (.consume expected)) ∨
            p.lookup? pointer = some .accept)) ∧
      (∀ pointer, (history p pointers).attempt p pointer =
        if p.Means pointer ∨ pointer ∈ pointers then (none, (history p pointers).add p pointer)
        else (some (Index.miss pointer), (history p pointers).mark pointer)) ∧
      ∀ others, others.Perm pointers →
        (∀ pointer, pointer ∈ (history p others).visited ↔
          pointer ∈ (history p pointers).visited) ∧
        (∀ pointer, pointer ∈ (history p others).threads ↔
          pointer ∈ (history p pointers).threads) ∧
        (history p others).isAccepting p = (history p pointers).isAccepting p := by
  refine ⟨history_eq_foldl p pointers, (settled_history p pointers).distinct,
    fun pointer => mem_visited_history_iff, fun pointer => mem_threads_history_iff,
    attempt_history p pointers, fun others reordered => ?_⟩
  have same_visited : ∀ pointer, pointer ∈ (history p others).visited ↔
      pointer ∈ (history p pointers).visited := by
    intro pointer
    simp only [mem_visited_history_iff, reordered.mem_iff]
  have same_threads : ∀ pointer, pointer ∈ (history p others).threads ↔
      pointer ∈ (history p pointers).threads := by
    intro pointer
    simp only [mem_threads_history_iff, same_visited]
  exact ⟨same_visited, same_threads, isAccepting_eq_of_threads same_threads⟩

/--
A history with one place counted from the back, a pointer without a place and the start of a cycle,
in two orders. The pointer without a place is skipped when it is tried again, and another one fails.
-/
theorem history_with_miss_in_two_orders :
    ∃ p : Program,
      p.code = [.split 1 3, .split 1 2, .jump 0, .split 4 4, .consume ['a'], .accept] ∧
      [7, 0, -2].Perm [-2, 7, 0] ∧
      (history p [-2, 7, 0]).threads = [-2, 4] ∧
      (∀ pointer, pointer ∈ (history p [7, 0, -2]).threads ↔ pointer ∈ [-2, 4]) ∧
      ((history p [-2, 7, 0]).attempt p 7).1 = none ∧
      ((history p [-2, 7, 0]).attempt p 9).1 = some .outside := by
  let p : Program :=
    ⟨#[.split 1 3, .split 1 2, .jump 0, .split 4 4, .consume ['a']], by decide⟩
  obtain ⟨added, _, _, _, attempted, orders⟩ := visited_and_threads_of_history p [-2, 7, 0]
  have reordered : [7, 0, -2].Perm [-2, 7, 0] := by decide
  have threads : (history p [-2, 7, 0]).threads = [-2, 4] := by
    rw [added]
    cbv
  refine ⟨p, rfl, reordered, threads, fun pointer => ?_, ?_, ?_⟩
  · rw [(orders _ reordered).2.1, threads]
  · rw [attempted, if_pos (by decide)]
  · rw [attempted, if_neg (by decide)]
    rfl

end ThreadList

end PatternMachine
