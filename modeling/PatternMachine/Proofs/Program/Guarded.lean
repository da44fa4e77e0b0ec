import Mathlib.Data.List.Perm.Subperm
import PatternMachine.Proofs.Outcome
import PatternMachine.Proofs.Program.Validation

/-!
# Guarded execution

A simulation looks up pointers without asking whether they mean a place of the program. A guarded
one refuses every pointer that is no place counted from the front. `simulateGuarded_eq` says that it
never has to: what a list has visited are places, because targets are and a consuming instruction is
not the last one. A list that is settled at places of the program has room in it for its threads.
-/

namespace PatternMachine

/-- A pointer that guarded execution refuses to look up. -/
structure Stray where
  pointer : Int
  deriving DecidableEq

namespace Program

open Instruction (InRange)

variable {p : Program} {pointer : Int} {instruction : Instruction}

/-- The instruction at a pointer, which has to be a place of the program counted from the front. -/
def fetch (p : Program) (pointer : Int) : Except Stray Instruction :=
  if InRange p.size pointer then
    match p.lookup? pointer with
    | some instruction => .ok instruction
    | none => .error ⟨pointer⟩
  else
    .error ⟨pointer⟩

theorem fetch_eq_ok_iff :
    p.fetch pointer = .ok instruction ↔
      InRange p.size pointer ∧ p.lookup? pointer = some instruction := by
  unfold fetch
  split
  next inside => cases p.lookup? pointer <;> simp [inside]
  next outside => simp [outside]

theorem exists_fetch (inside : InRange p.size pointer) :
    ∃ instruction, p.fetch pointer = .ok instruction := by
  obtain ⟨place, rfl⟩ := Int.eq_ofNat_of_zero_le inside.1
  have short : place < p.code.length := by
    rw [length_code]
    exact Int.ofNat_lt.mp inside.2
  refine ⟨p.code[place], fetch_eq_ok_iff.mpr ⟨inside, ?_⟩⟩
  rw [lookup?_eq, Index.lookup?_ofNat, List.getElem?_eq_getElem short]

end Program

namespace ThreadList

open Instruction (InRange)

variable {p : Program} {list : ThreadList} {pending threads : List Int} {pointer : Int}

def followGuarded (p : Program) : List Int → ThreadList → Except Stray ThreadList
  | [], list => .ok list
  | pointer :: pending, list =>
      if _ : pointer ∈ list.visited then
        followGuarded p pending list
      else
        match _ : p.fetch pointer with
        | .error stray => .error stray
        | .ok instruction =>
            followGuarded p (instruction.targets ++ pending) (list.enter pointer instruction)
termination_by pending list => (remaining p list.visited, pending.length)
decreasing_by
  · exact Prod.Lex.right _ (by simp)
  · exact Prod.Lex.left _ _ (remaining_cons_lt ‹_› (Program.fetch_eq_ok_iff.mp ‹_›).2)

/-- Add a thread at a pointer as long as only places of the program are looked up. -/
def addGuarded (p : Program) (list : ThreadList) (pointer : Int) : Except Stray ThreadList :=
  followGuarded p [pointer] list

def advanceGuarded (p : Program) (c : Char) (list : ThreadList) : Except Stray ThreadList :=
  list.threads.foldlM
    (fun next pointer => do
      let instruction ← p.fetch pointer
      if instruction.passes c then next.addGuarded p (pointer + 1) else return next)
    empty

def isAcceptingGuarded (p : Program) (list : ThreadList) : Except Stray Bool :=
  list.threads.anyM fun pointer => (p.fetch pointer).map fun instruction => instruction = .accept

theorem followGuarded_eq (inside : ∀ pointer ∈ pending, InRange p.size pointer) :
    followGuarded p pending list = .ok (follow p pending list) := by
  induction pending, list using follow_induction (p := p) with
  | done list => rw [followGuarded, follow_nil]
  | skip pointer pending list visited ih =>
      rw [followGuarded, dif_pos visited, follow_of_visited visited]
      exact ih fun other member => inside other (by simp [member])
  | miss pointer pending list fresh missing ih =>
      obtain ⟨instruction, fetched⟩ := Program.exists_fetch (inside pointer (by simp))
      cases missing.symm.trans (Program.fetch_eq_ok_iff.mp fetched).2
  | enter pointer pending list instruction fresh found ih =>
      have fetched : p.fetch pointer = .ok instruction :=
        Program.fetch_eq_ok_iff.mpr ⟨inside pointer (by simp), found⟩
      rw [followGuarded, dif_neg fresh, follow_of_found fresh found]
      split
      next stray refused => cases refused.symm.trans fetched
      next other same =>
        cases same.symm.trans fetched
        refine ih fun target member => ?_
        rcases List.mem_append.mp member with offered | member
        · exact Program.inRange_of_mem_targets found offered
        · exact inside target (by simp [member])

theorem advanceGuarded_eq (inside : ∀ pointer ∈ list.threads, InRange p.size pointer) (c : Char) :
    list.advanceGuarded p c = .ok (list.advance p c) := by
  unfold advanceGuarded advance
  generalize list.threads = threads at inside
  generalize empty = next
  induction threads generalizing next with
  | nil => rfl
  | cons pointer threads ih =>
      have here := inside pointer (by simp)
      have rest := ih fun other member => inside other (by simp [member])
      obtain ⟨instruction, fetched⟩ := Program.exists_fetch here
      have found := (Program.fetch_eq_ok_iff.mp fetched).2
      rw [List.foldlM_cons, fetched, Outcome.ok_bind, List.filter_cons, found, Option.any_some]
      by_cases passes : instruction.passes c = true
      · have behind := Program.inRange_of_passes here found passes
        rw [if_pos passes, if_pos passes, addGuarded, followGuarded_eq (by simpa using behind),
          Outcome.ok_bind]
        exact rest _
      · rw [if_neg passes, if_neg passes]
        exact rest next

theorem isAcceptingGuarded_eq (inside : ∀ pointer ∈ list.threads, InRange p.size pointer) :
    list.isAcceptingGuarded p = .ok (list.isAccepting p) := by
  unfold isAcceptingGuarded isAccepting
  generalize list.threads = threads at inside
  induction threads with
  | nil => rfl
  | cons pointer threads ih =>
      have rest := ih fun other member => inside other (by simp [member])
      obtain ⟨instruction, fetched⟩ := Program.exists_fetch (inside pointer (by simp))
      have found := (Program.fetch_eq_ok_iff.mp fetched).2
      rw [List.anyM, fetched, Outcome.map_ok, Outcome.ok_bind, List.any_cons, found]
      by_cases accepts : instruction = .accept
      · subst accepts
        rfl
      · simpa [accepts] using rest

/-- A settled list that has visited places of the program only. -/
structure Sound (p : Program) (list : ThreadList) : Prop where
  settled : Settled p [] list
  inRange : ∀ pointer ∈ list.visited, InRange p.size pointer

theorem sound_foldl_add {starts : List Int} (inside : ∀ start ∈ starts, InRange p.size start) :
    Sound p (starts.foldl (add p) empty) where
  settled := settled_foldl_add (settled_empty p) starts
  inRange := by
    intro pointer visited
    rcases (mem_visited_foldl_add_iff (settled_empty p) starts).mp visited with
      none | ⟨start, member, run⟩
    · cases none
    · exact run.inRange (inside start member)

namespace Sound

theorem inRange_threads (sound : Sound p list) :
    ∀ pointer ∈ list.threads, InRange p.size pointer :=
  fun pointer member =>
    sound.inRange pointer ((sound.settled.mem_threads_iff pointer).mp member).1

theorem advance (sound : Sound p list) (c : Char) : Sound p (list.advance p c) := by
  rw [advance_eq_foldl]
  refine sound_foldl_add fun start member => ?_
  obtain ⟨pointer, passing, rfl⟩ := List.mem_map.mp member
  obtain ⟨thread, passing⟩ := List.mem_filter.mp passing
  obtain ⟨instruction, found, passes⟩ := (Option.any_eq_true _ _).mp passing
  exact Program.inRange_of_passes (sound.inRange_threads pointer thread) found passes

/-- A sound list has at most as many threads as the program has places. -/
theorem length_threads_le (sound : Sound p list) : list.threads.length ≤ p.size := by
  have places : list.threads ⊆ (List.range p.size).map Int.ofNat := by
    intro pointer member
    obtain ⟨place, rfl⟩ := Int.eq_ofNat_of_zero_le (sound.inRange_threads pointer member).1
    have inside := (sound.inRange_threads _ member).2
    exact List.mem_map.mpr ⟨place, List.mem_range.mpr (Int.ofNat_lt.mp inside), rfl⟩
  simpa using (List.subperm_of_subset sound.settled.distinct places).length_le

end Sound

end ThreadList

namespace Program

open Instruction (InRange)

variable {p : Program} {list : ThreadList} {text : Text}

def simulateFromGuarded (p : Program) (position : Nat) (list : ThreadList) :
    Text → Except Stray Simulation
  | [] => .ok ⟨list, [], none⟩
  | c :: rest => do
      let next ← list.advanceGuarded p c
      if next.threads.isEmpty then
        return ⟨list, [next], some (c, position)⟩
      else
        let run ← simulateFromGuarded p (position + 1) next rest
        return ⟨list, run.lists, run.extinction⟩

/-- Run a program over a text as long as only places of the program are looked up. -/
def simulateGuarded (p : Program) (text : Text) : Except Stray Simulation := do
  let start ← ThreadList.empty.addGuarded p 0
  p.simulateFromGuarded 0 start text

def acceptsGuarded (p : Program) (text : Text) : Except Stray Bool := do
  let simulation ← p.simulateGuarded text
  simulation.final.isAcceptingGuarded p

theorem rests_iff {pointer : Int} :
    p.Rests pointer ↔ p.lookup? pointer = some .accept ∨
      ∃ expected, p.lookup? pointer = some (.consume expected) := by
  constructor
  · rintro ⟨instruction, found, resting⟩
    cases instruction with
    | consume expected => exact .inr ⟨expected, found⟩
    | accept => exact .inl found
    | jump target => cases resting
    | split first second => cases resting
  · rintro (found | ⟨expected, found⟩) <;> exact ⟨_, found, rfl⟩

theorem sound_startList (p : Program) : ThreadList.Sound p p.startList := by
  have inside : ∀ start ∈ [0], InRange p.size start := by simpa using p.inRange_start
  exact ThreadList.sound_foldl_add inside

theorem sound_of_mem_lists (member : list ∈ (p.simulate text).lists) : ThreadList.Sound p list := by
  obtain ⟨k, reached⟩ := List.mem_iff_getElem?.mp member
  exact @lists_simulateFrom_of_advance p p.startList text
    (fun _ list => ThreadList.Sound p list) (fun _ _ c sound => sound.advance c) []
    p.sound_startList 0 k list reached

theorem simulateFromGuarded_eq (sound : ThreadList.Sound p list) (position : Nat) (text : Text) :
    p.simulateFromGuarded position list text = .ok (p.simulateFrom position list text) := by
  induction text generalizing list position with
  | nil => rfl
  | cons c rest ih =>
      rw [simulateFromGuarded, ThreadList.advanceGuarded_eq sound.inRange_threads,
        Outcome.ok_bind, simulateFrom]
      split
      · rfl
      · rw [ih (sound.advance c), Outcome.ok_bind]
        rfl

/-- A simulation looks up places of the program only. -/
theorem simulateGuarded_eq (p : Program) (text : Text) :
    p.simulateGuarded text = .ok (p.simulate text) := by
  rw [simulateGuarded, ThreadList.addGuarded,
    ThreadList.followGuarded_eq (by simpa using p.inRange_start), Outcome.ok_bind]
  exact simulateFromGuarded_eq p.sound_startList 0 text

theorem acceptsGuarded_eq (p : Program) (text : Text) :
    p.acceptsGuarded text = .ok (p.accepts text) := by
  have final := List.mem_of_getElem? (p.simulate text).getElem?_lists_final
  rw [acceptsGuarded, simulateGuarded_eq, Outcome.ok_bind,
    ThreadList.isAcceptingGuarded_eq (sound_of_mem_lists final).inRange_threads, accepts]

/--
A list of instructions is refused if and only if it is empty, does not end with acceptance, or has
an instruction before the end that accepts or has a target outside of the list; the fault names the
first of these. A list that is accepted is kept as a program, over whose simulations only its places
are looked up. The threads of each list are different places of consuming instructions and of the
accepting one, so there are no more of them than instructions.
-/
theorem refused_or_guarded (code : List Instruction) :
    ((∃ fault, ofCode? code = .error fault) ↔
      code = [] ∨ code.getLast? ≠ some .accept ∨
        ∃ place instruction, place + 1 < code.length ∧ code[place]? = some instruction ∧
          (instruction = .accept ∨
            ∃ target ∈ instruction.targets, ¬ InRange code.length target)) ∧
      (∀ fault, ofCode? code = .error fault ↔ Refutes code fault) ∧
      ∀ p, ofCode? code = .ok p → p.code = code ∧ ∀ text,
        p.simulateGuarded text = .ok (p.simulate text) ∧
          p.acceptsGuarded text = .ok (p.accepts text) ∧
          ∀ list ∈ (p.simulate text).lists,
            list.threads.Nodup ∧ list.threads.length ≤ code.length ∧
              ∀ pointer ∈ list.threads, InRange code.length pointer ∧
                (p.lookup? pointer = some .accept ∨
                  ∃ expected, p.lookup? pointer = some (.consume expected)) := by
  refine ⟨exists_ofCode?_eq_error_iff, fun _ => ofCode?_eq_error_iff, fun p accepted => ?_⟩
  obtain rfl := ofCode?_eq_ok_iff.mp accepted
  refine ⟨rfl, fun text => ⟨simulateGuarded_eq p text, acceptsGuarded_eq p text, ?_⟩⟩
  intro list member
  have sound := sound_of_mem_lists member
  rw [length_code]
  refine ⟨sound.settled.distinct, sound.length_threads_le, fun pointer thread => ?_⟩
  exact ⟨sound.inRange_threads pointer thread,
    rests_iff.mp ((sound.settled.mem_threads_iff pointer).mp thread).2⟩

/--
Of a target outside and an acceptance behind it the target is reported, and a program with a cycle
through its start and an instruction that never passes is simulated safely.
-/
theorem refused_target_and_guarded_cycle :
    ofCode? [.consume ['a'], .jump 9, .accept, .accept] = .error (.targetOutside (.jump 9) 1) ∧
      ∃ p, ofCode? [.split 2 1, .jump 0, .split 3 4, .consume [], .consume ['a'], .accept] = .ok p ∧
        p.simulateGuarded ['a', 'b'] = .ok ⟨⟨[1, 4, 3, 2, 0], [3, 4]⟩,
          [⟨[5], [5]⟩, ⟨[], []⟩], some ('b', 1)⟩ := by
  constructor
  · refine ((refused_or_guarded _).2.1 _).mpr ⟨rfl, by decide, by decide, rfl, by decide, ?_⟩
    intro earlier less other standing
    obtain rfl : earlier = 0 := by omega
    cases standing
    decide
  · have accepted : ofCode? [.split 2 1, .jump 0, .split 3 4, .consume [], .consume ['a'],
        .accept] = .ok ⟨#[.split 2 1, .jump 0, .split 3 4, .consume [], .consume ['a']],
          by decide⟩ := rfl
    refine ⟨_, accepted, (((refused_or_guarded _).2.2 _ accepted).2 ['a', 'b']).1.trans ?_⟩
    cbv

end Program

end PatternMachine
