import PatternMachine.Proofs.Program.Lockstep

/-!
# Programs follow their runs

An instruction list that is accepted as a program is kept as it is, and a run from a place of a
program ends at a place of it. `simulation_follows_runs` says for all of them, compiled or written
by hand, that a simulation finds exactly the places that runs reach: unreachable code, cycles
without a character and consuming instructions that never pass make no exception.
-/

namespace PatternMachine.Program

variable {p : Program} {first last : Int} {text : Text}

/-- A list of instructions that is accepted is the code of its program. -/
theorem ofCode?_eq_ok_iff {code : List Instruction} : ofCode? code = .ok p ↔ p.code = code := by
  constructor
  · intro accepted
    unfold ofCode? at accepted
    split at accepted
    · contradiction
    next ending =>
      dsimp only at accepted
      split at accepted
      · cases accepted
        obtain ⟨before, rfl⟩ := List.getLast?_eq_some_iff.mp ending
        simp [Program.code]
      · contradiction
    · contradiction
  · rintro rfl
    exact ofCode?_code p

theorem inRange_of_mem_targets
    {pointer target : Int} {instruction : Instruction}
    (found : p.lookup? pointer = some instruction) (offered : target ∈ instruction.targets) :
    Instruction.InRange p.size target := by
  rw [lookup?_eq] at found
  obtain ⟨place, _, found⟩ := Option.bind_eq_some_iff.mp found
  rcases List.mem_append.mp (List.mem_of_getElem? found) with inside | final
  · exact (p.fits instruction (by simpa using inside)).inRange target offered
  · obtain rfl := List.mem_singleton.mp final
    cases offered

theorem inRange_of_passes
    {pointer : Int} {instruction : Instruction} {c : Char}
    (inside : Instruction.InRange p.size pointer)
    (found : p.lookup? pointer = some instruction) (passes : instruction.passes c = true) :
    Instruction.InRange p.size (pointer + 1) := by
  obtain ⟨place, rfl⟩ := Int.eq_ofNat_of_zero_le inside.1
  rw [lookup?_eq, Index.lookup?_ofNat] at found
  have before : place < p.body.toList.length := by
    refine Nat.lt_of_not_le fun behind => ?_
    -- The last instruction of a program accepts and passes over nothing.
    rw [code, List.getElem?_append_right behind] at found
    obtain rfl := List.mem_singleton.mp (List.mem_of_getElem? found)
    cases passes
  simp only [Instruction.InRange, size, Array.length_toList] at before ⊢
  omega

theorem Run.inRange
    (run : Run p first text last) (inside : Instruction.InRange p.size first) :
    Instruction.InRange p.size last := by
  induction run with
  | stay pointer => exact inside
  | turn found offered _ ih => exact ih (inRange_of_mem_targets found offered)
  | pass found passes _ ih => exact ih (inRange_of_passes inside found passes)

theorem inRange_start (p : Program) : Instruction.InRange p.size 0 := by
  simp [Instruction.InRange, size]

/--
An instruction list that is accepted as a program accepts the texts over which a run goes from the
start to acceptance, and the list of its simulation behind `k` characters holds exactly the places
of consuming and accepting instructions that runs over these `k` characters reach.
-/
theorem simulation_follows_runs
    (code : List Instruction) (p : Program) (accepted : ofCode? code = .ok p) (text : Text) :
    p.code = code ∧
      (p.accepts text = true ↔ ∃ last, Run p 0 text last ∧ p.lookup? last = some .accept) ∧
      ∀ k list, (p.simulate text).lists[k]? = some list →
        ∀ pointer, pointer ∈ list.threads ↔
          Run p 0 (text.take k) pointer ∧ Instruction.InRange p.size pointer ∧ p.Rests pointer := by
  refine ⟨ofCode?_eq_ok_iff.mp accepted, accepts_iff_admits, ?_⟩
  intro k list reached pointer
  rw [follows_lists reached pointer]
  constructor
  · rintro ⟨run, rests⟩
    exact ⟨run, run.inRange p.inRange_start, rests⟩
  · rintro ⟨run, _, rests⟩
    exact ⟨run, rests⟩

/--
A program with a jump to itself, unreachable code and a consuming instruction that never passes
still finds the run over the one character that it accepts.
-/
theorem simulation_of_cyclic_code :
    ∃ p, ofCode? [.split 2 3, .consume ['x'], .jump 2, .split 4 5, .consume ['b', 'c'],
        .consume ['a'], .accept] = .ok p ∧
      Run p 0 [] 4 ∧ Run p 0 ['a'] 6 ∧ ¬ Run p 0 ['a'] 4 := by
  have accepted : ofCode? [.split 2 3, .consume ['x'], .jump 2, .split 4 5, .consume ['b', 'c'],
      .consume ['a'], .accept] = .ok ⟨#[.split 2 3, .consume ['x'], .jump 2, .split 4 5,
        .consume ['b', 'c'], .consume ['a']], by decide⟩ := rfl
  obtain ⟨_, _, threads_iff⟩ := simulation_follows_runs _ _ accepted ['a']
  have start := threads_iff 0 ⟨[5, 4, 3, 2, 0], [4, 5]⟩ (by cbv)
  have behind := threads_iff 1 ⟨[6], [6]⟩ (by cbv)
  refine ⟨_, accepted, ((start 4).mp (by simp)).1, ((behind 6).mp (by simp)).1, fun run => ?_⟩
  simpa using (behind 4).mpr ⟨run, by decide, _, rfl, rfl⟩

end PatternMachine.Program
