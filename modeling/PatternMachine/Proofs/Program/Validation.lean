import PatternMachine.Proofs.Program.Reachability

/-!
# Validation of code

When a list of instructions is no program, and which fault is reported then: that it is empty or
does not end with acceptance, or else what is wrong with the first instruction before the end that
may not stand there. `firstFault?_eq_some_iff` follows the search for this instruction, and
`ofCode?_eq_error_iff` says that a fault is reported if and only if it is true of the list.
-/

namespace PatternMachine

theorem Instruction.not_fits_iff {size : Nat} {instruction : Instruction} :
    ¬ instruction.Fits size ↔
      instruction = .accept ∨ ∃ target ∈ instruction.targets, ¬ InRange size target := by
  constructor
  · intro misfit
    by_cases accepts : instruction = .accept
    · exact .inl accepts
    · refine .inr (Classical.byContradiction fun inside => ?_)
      refine misfit ⟨accepts, fun target offered => ?_⟩
      exact Classical.byContradiction fun outside => inside ⟨target, offered, outside⟩
  · rintro (accepts | ⟨target, offered, outside⟩) fits
    · exact fits.not_accept accepts
    · exact outside (fits.inRange target offered)

namespace Program

variable {code body : List Instruction} {size place : Nat} {instruction : Instruction}
  {fault : CodeFault}

/-- An instruction that does not fit has a fault: that it accepts, or else where it stands. -/
theorem instructionFault?_eq_some_iff :
    instructionFault? size place instruction = some fault ↔
      ¬ instruction.Fits size ∧
        fault = if instruction = .accept then .earlyAccept place
          else .targetOutside instruction place := by
  unfold instructionFault?
  split
  next accepts =>
    have misfit : ¬ instruction.Fits size := fun fits => fits.not_accept accepts
    simp [misfit, eq_comm]
  next other =>
    split
    next inside =>
      have fits : instruction.Fits size := ⟨other, inside⟩
      simp [fits]
    next outside =>
      have misfit : ¬ instruction.Fits size := fun fits => outside fits.inRange
      simp [misfit, eq_comm]

theorem firstFault?_eq_some_iff :
    firstFault? size place body = some fault ↔
      ∃ index instruction, body[index]? = some instruction ∧
        instructionFault? size (place + index) instruction = some fault ∧
        ∀ earlier < index, ∀ other, body[earlier]? = some other → other.Fits size := by
  induction body generalizing place with
  | nil => simp [firstFault?]
  | cons head rest ih =>
      rw [firstFault?]
      cases here : instructionFault? size place head with
      | some first =>
          -- The head does not fit, so no later instruction is behind others that all fit.
          have misfit := (instructionFault?_eq_some_iff.mp here).1
          rw [Option.orElse_eq_orElse, Option.orElse_some]
          constructor
          · intro same
            exact ⟨0, head, rfl, here.trans same, by simp⟩
          · rintro ⟨_ | index, instruction, found, faulty, before⟩
            · cases found
              exact here.symm.trans faulty
            · exact absurd (before 0 (Nat.succ_pos index) head rfl) misfit
      | none =>
          have fits := instructionFault?_eq_none_iff.mp here
          rw [Option.orElse_eq_orElse, Option.orElse_none, ih]
          constructor
          · rintro ⟨index, instruction, found, faulty, before⟩
            refine ⟨index + 1, instruction, found, ?_, ?_⟩
            · rwa [← Nat.add_assoc, Nat.add_right_comm]
            · rintro (_ | earlier) less other standing
              · cases standing
                exact fits
              · exact before earlier (Nat.lt_of_succ_lt_succ less) other standing
          · rintro ⟨_ | index, instruction, found, faulty, before⟩
            · cases found
              cases here.symm.trans faulty
            · refine ⟨index, instruction, found, ?_, fun earlier less other standing => ?_⟩
              · rwa [Nat.add_assoc, Nat.add_comm 1]
              · exact before (earlier + 1) (Nat.succ_lt_succ less) other standing

/-- Whether an instruction before the end of some code is the first that may not stand there. -/
structure FirstMisfit (code : List Instruction) (place : Nat) (instruction : Instruction) :
    Prop where
  before_end : place + 1 < code.length
  found : code[place]? = some instruction
  misfit : ¬ instruction.Fits code.length
  fits_before : ∀ earlier < place, ∀ other,
    code[earlier]? = some other → other.Fits code.length

/-- Whether a fault is the one to report of some code. -/
def Refutes (code : List Instruction) : CodeFault → Prop
  | .empty => code = []
  | .noFinalAccept => code ≠ [] ∧ code.getLast? ≠ some .accept
  | .earlyAccept place => code.getLast? = some .accept ∧ FirstMisfit code place .accept
  | .targetOutside instruction place =>
      code.getLast? = some .accept ∧ instruction ≠ .accept ∧ FirstMisfit code place instruction

theorem firstMisfit_concat_iff :
    FirstMisfit (body ++ [.accept]) place instruction ↔
      body[place]? = some instruction ∧ ¬ instruction.Fits (body.length + 1) ∧
        ∀ earlier < place, ∀ other,
          body[earlier]? = some other → other.Fits (body.length + 1) := by
  have length_eq : (body ++ [Instruction.accept]).length = body.length + 1 := by simp
  have same : ∀ index < body.length, (body ++ [Instruction.accept])[index]? = body[index]? :=
    fun index inside => List.getElem?_append_left inside
  constructor
  · rintro ⟨before_end, found, misfit, fits_before⟩
    rw [length_eq] at before_end misfit fits_before
    have inside := Nat.lt_of_succ_lt_succ before_end
    refine ⟨same place inside ▸ found, misfit, fun earlier less other standing => ?_⟩
    exact fits_before earlier less other ((same earlier (Nat.lt_trans less inside)).trans standing)
  · rintro ⟨found, misfit, fits_before⟩
    have inside := (List.getElem?_eq_some_iff.mp found).1
    refine ⟨by simpa using inside, (same place inside).trans found, by rwa [length_eq], ?_⟩
    intro earlier less other standing
    rw [length_eq]
    exact fits_before earlier less other
      ((same earlier (Nat.lt_trans less inside)).symm.trans standing)

theorem ofCode?_concat_eq_error_iff :
    ofCode? (body ++ [.accept]) = .error fault ↔
      ∃ place instruction, FirstMisfit (body ++ [.accept]) place instruction ∧
        fault = if instruction = .accept then .earlyAccept place
          else .targetOutside instruction place := by
  have searched : ofCode? (body ++ [.accept]) = .error fault ↔
      firstFault? (body.length + 1) 0 body = some fault := by
    simp only [ofCode?, List.getLast?_concat]
    split
    next sound =>
      rw [List.dropLast_concat] at sound
      simp [sound]
    next first faulty =>
      rw [List.dropLast_concat] at faulty
      simp [faulty]
  simp only [searched, firstFault?_eq_some_iff, instructionFault?_eq_some_iff,
    firstMisfit_concat_iff, Nat.zero_add]
  constructor
  · rintro ⟨place, instruction, found, ⟨misfit, rfl⟩, before⟩
    exact ⟨place, instruction, ⟨found, misfit, before⟩, rfl⟩
  · rintro ⟨place, instruction, ⟨found, misfit, before⟩, rfl⟩
    exact ⟨place, instruction, found, ⟨misfit, rfl⟩, before⟩

/-- A list of instructions is refused with a fault if and only if this is the one to report. -/
theorem ofCode?_eq_error_iff : ofCode? code = .error fault ↔ Refutes code fault := by
  by_cases ending : code.getLast? = some .accept
  · obtain ⟨body, rfl⟩ := List.getLast?_eq_some_iff.mp ending
    rw [ofCode?_concat_eq_error_iff]
    constructor
    · rintro ⟨place, instruction, first, rfl⟩
      split
      next accepts => exact ⟨ending, accepts ▸ first⟩
      next other => exact ⟨ending, other, first⟩
    · intro refutes
      cases fault with
      | empty => cases (List.append_eq_nil_iff.mp refutes).2
      | noFinalAccept => exact absurd ending refutes.2
      | earlyAccept place => exact ⟨place, .accept, refutes.2, (if_pos rfl).symm⟩
      | targetOutside instruction place =>
          exact ⟨place, instruction, refutes.2.2, (if_neg refutes.2.1).symm⟩
  · unfold ofCode?
    split
    next none =>
      obtain rfl := List.getLast?_eq_none_iff.mp none
      cases fault <;> simp [Refutes]
    next accepts => exact absurd accepts ending
    next last other found =>
      have nonempty : code ≠ [] := by
        rintro rfl
        cases found
      cases fault <;> simp [Refutes, nonempty, ending]

theorem fits_of_getElem? {p : Program}
    (before_end : place + 1 < p.code.length) (found : p.code[place]? = some instruction) :
    instruction.Fits p.code.length := by
  have inside : place < p.body.toList.length := by
    rw [length_code, size, ← Array.length_toList] at before_end
    exact Nat.lt_of_succ_lt_succ before_end
  rw [code, List.getElem?_append_left inside] at found
  have fits := p.fits instruction (by simpa using List.mem_of_getElem? found)
  rwa [length_code]

theorem exists_ofCode?_eq_error_iff :
    (∃ fault, ofCode? code = .error fault) ↔
      code = [] ∨ code.getLast? ≠ some .accept ∨
        ∃ place instruction, place + 1 < code.length ∧ code[place]? = some instruction ∧
          (instruction = .accept ∨
            ∃ target ∈ instruction.targets, ¬ Instruction.InRange code.length target) := by
  simp only [← Instruction.not_fits_iff]
  constructor
  · rintro ⟨fault, refused⟩
    have refutes := ofCode?_eq_error_iff.mp refused
    cases fault with
    | empty => exact .inl refutes
    | noFinalAccept => exact .inr (.inl refutes.2)
    | earlyAccept place =>
        exact .inr (.inr ⟨place, _, refutes.2.before_end, refutes.2.found, refutes.2.misfit⟩)
    | targetOutside instruction place =>
        exact .inr (.inr ⟨place, instruction, refutes.2.2.before_end, refutes.2.2.found,
          refutes.2.2.misfit⟩)
  · intro broken
    cases outcome : ofCode? code with
    | error fault => exact ⟨fault, rfl⟩
    | ok p =>
        obtain rfl := ofCode?_eq_ok_iff.mp outcome
        rcases broken with empty | ending | ⟨place, instruction, before_end, found, misfit⟩
        · simp [Program.code] at empty
        · simp [Program.code] at ending
        · exact absurd (fits_of_getElem? before_end found) misfit

end Program

end PatternMachine
