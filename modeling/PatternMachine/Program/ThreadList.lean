import PatternMachine.Program.Basic

/-!
# Thread lists

A thread list holds the places at which threads rest between two characters, in order of
priority. Jumps and splits are followed when a thread is added, the first target of a split and
all that it leads to before the second, and no place is visited twice. Following ends because each
step either visits a new place of the program or shortens the list of pending pointers;
`follow_of_visited`, `follow_of_missing` and `follow_of_found` are its equations.
-/

namespace PatternMachine

/-- The pointers visited so far, newest first, and those of resting threads, best first. -/
structure ThreadList where
  visited : List Int
  threads : List Int
  deriving DecidableEq

namespace ThreadList

def empty : ThreadList :=
  ⟨[], []⟩

/-- Mark a pointer as visited and keep it as a thread if its instruction rests. -/
def enter (list : ThreadList) (pointer : Int) (instruction : Instruction) : ThreadList where
  visited := pointer :: list.visited
  threads := if instruction.isResting then list.threads ++ [pointer] else list.threads

def miss (list : ThreadList) (pointer : Int) : ThreadList :=
  { list with visited := pointer :: list.visited }

def pointers (p : Program) : List Int :=
  (List.range (2 * p.size)).map fun n : Nat => (n : Int) - p.size

theorem mem_pointers_of_lookup?
    {p : Program} {pointer : Int} {instruction : Instruction}
    (found : p.lookup? pointer = some instruction) :
    pointer ∈ pointers p := by
  obtain ⟨place, resolved, _⟩ := Option.bind_eq_some_iff.mp found
  have bounds : -(p.size : Int) ≤ pointer ∧ pointer < p.size := by
    cases pointer <;> simp only [Index.resolve?, Option.ite_none_right_eq_some] at resolved
    · rw [Int.ofNat_eq_natCast]
      omega
    · omega
  refine List.mem_map.mpr ⟨(pointer + p.size).toNat, ?_, ?_⟩
  · rw [List.mem_range]
    omega
  · omega

/-- The number of places that are still to be visited, counted by pointers. -/
def remaining (p : Program) (visited : List Int) : Nat :=
  (pointers p).countP fun pointer => pointer ∉ visited

theorem remaining_cons_le (p : Program) (visited : List Int) (pointer : Int) :
    remaining p (pointer :: visited) ≤ remaining p visited := by
  refine List.countP_mono_left fun other _ unvisited => ?_
  simp_all

theorem remaining_cons_lt
    {p : Program} {visited : List Int} {pointer : Int} {instruction : Instruction}
    (fresh : pointer ∉ visited) (found : p.lookup? pointer = some instruction) :
    remaining p (pointer :: visited) < remaining p visited := by
  obtain ⟨before, after, split⟩ := List.append_of_mem (mem_pointers_of_lookup? found)
  have le_before : before.countP (fun other => decide (other ∉ pointer :: visited)) ≤
      before.countP fun other => decide (other ∉ visited) :=
    List.countP_mono_left fun other _ unvisited => by simp_all
  have le_after : after.countP (fun other => decide (other ∉ pointer :: visited)) ≤
      after.countP fun other => decide (other ∉ visited) :=
    List.countP_mono_left fun other _ unvisited => by simp_all
  unfold remaining
  rw [split, List.countP_append, List.countP_append, List.countP_cons, List.countP_cons,
    if_neg (by simp), if_pos (by simpa using fresh)]
  omega

/-- Follow pending pointers in order, the targets of an instruction before all others. -/
def follow (p : Program) : List Int → ThreadList → ThreadList
  | [], list => list
  | pointer :: pending, list =>
      if _ : pointer ∈ list.visited then
        follow p pending list
      else
        match _ : p.lookup? pointer with
        | none => follow p pending (list.miss pointer)
        | some instruction =>
            follow p (instruction.targets ++ pending) (list.enter pointer instruction)
termination_by pending list => (remaining p list.visited, pending.length)
decreasing_by
  · exact Prod.Lex.right _ (by simp)
  · rcases Nat.lt_or_eq_of_le (remaining_cons_le p list.visited pointer) with lt | eq
    · exact Prod.Lex.left _ _ lt
    · simp only [miss, eq]
      exact Prod.Lex.right _ (by simp)
  · exact Prod.Lex.left _ _ (remaining_cons_lt ‹_› ‹_›)

@[simp]
theorem follow_nil (p : Program) (list : ThreadList) : follow p [] list = list := by
  rw [follow]

theorem follow_of_visited
    {p : Program} {list : ThreadList} {pointer : Int} {pending : List Int}
    (visited : pointer ∈ list.visited) :
    follow p (pointer :: pending) list = follow p pending list := by
  rw [follow, dif_pos visited]

theorem follow_of_missing
    {p : Program} {list : ThreadList} {pointer : Int} {pending : List Int}
    (fresh : pointer ∉ list.visited) (missing : p.lookup? pointer = none) :
    follow p (pointer :: pending) list = follow p pending (list.miss pointer) := by
  rw [follow, dif_neg fresh]
  split
  · rfl
  · simp_all

theorem follow_of_found
    {p : Program} {list : ThreadList} {pointer : Int} {pending : List Int}
    {instruction : Instruction}
    (fresh : pointer ∉ list.visited) (found : p.lookup? pointer = some instruction) :
    follow p (pointer :: pending) list =
      follow p (instruction.targets ++ pending) (list.enter pointer instruction) := by
  rw [follow, dif_neg fresh]
  split
  · simp_all
  · simp_all

/-- Add a thread at a pointer. A pointer outside of the program is only marked. -/
def add (p : Program) (list : ThreadList) (pointer : Int) : ThreadList :=
  follow p [pointer] list

/-- Why adding a pointer fails, if it does: it is new and means no place of the program. -/
def refusal? (p : Program) (list : ThreadList) (pointer : Int) : Option Index.Miss :=
  if pointer ∈ list.visited then none
  else
    match p.lookup? pointer with
    | some _ => none
    | none => some (Index.miss pointer)

theorem refusal?_eq_none_iff {p : Program} {list : ThreadList} {pointer : Int} :
    list.refusal? p pointer = none ↔ pointer ∈ list.visited ∨ (p.lookup? pointer).isSome := by
  unfold refusal?
  split
  · simp_all
  · split <;> simp_all

def isAccepting (p : Program) (list : ThreadList) : Bool :=
  list.threads.any fun pointer => p.lookup? pointer = some .accept

/-- The threads that pass over a character, in order of priority, at their next places. -/
def advance (p : Program) (c : Char) (list : ThreadList) : ThreadList :=
  (list.threads.filter fun pointer => (p.lookup? pointer).any (Instruction.passes c)).foldl
    (fun next pointer => next.add p (pointer + 1)) empty

theorem advance_eq_foldl (p : Program) (c : Char) (list : ThreadList) :
    list.advance p c =
      ((list.threads.filter fun place => (p.lookup? place).any (Instruction.passes c)).map
        (· + 1)).foldl (add p) empty := by
  rw [advance, List.foldl_map]

def sortedVisited (list : ThreadList) : List Int :=
  list.visited.mergeSort (· ≤ ·)

def term (list : ThreadList) : Text :=
  "ThreadList([".toList ++ Text.commaSeparated (list.threads.map Text.ofInt) ++ "])".toList

end ThreadList

end PatternMachine
