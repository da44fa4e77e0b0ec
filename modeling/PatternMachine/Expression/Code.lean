import PatternMachine.Expression.Basic
import PatternMachine.Program.Basic

/-!
# Code of expressions

The code of an expression is laid out from a given offset with absolute targets, which are known
in advance because the number of instructions is. `length_code` says that this number is right,
`staysWithin_code` that every target lies in the code or directly behind it, and `code_add` that
moving the offset moves the targets and changes nothing else. Hence every expression has a
program.
-/

namespace PatternMachine.Tree

mutual

def size : Expression → Nat
  | .gap g => nomatch g
  | .literal _ => 1
  | .sequence items => totalSize items
  | .alternation branches => totalSize branches + 2 * (branches.length - 1)
  | .quantified .optional body => size body + 1
  | .quantified .oneOrMore body => size body + 1
  | .quantified .zeroOrMore body => size body + 2

def totalSize : List Expression → Nat
  | [] => 0
  | tree :: trees => size tree + totalSize trees

end

mutual

/--
The instructions of an expression whose first one stands at `offset`. A thread that has passed
the expression is directly behind its code.
-/
def code (offset : Int) : Expression → List Instruction
  | .gap g => nomatch g
  | .literal c => [.consume [c]]
  | .sequence items => codeOfItems offset items
  | .alternation branches =>
      codeOfBranches (offset + size (.alternation branches)) offset branches
  | .quantified .optional body =>
      .split (offset + 1) (offset + 1 + size body) :: code (offset + 1) body
  | .quantified .oneOrMore body =>
      code offset body ++ [.split offset (offset + size body + 1)]
  | .quantified .zeroOrMore body =>
      .split (offset + 1) (offset + size body + 2) :: code (offset + 1) body ++ [.jump offset]

def codeOfItems (offset : Int) : List Expression → List Instruction
  | [] => []
  | item :: items => code offset item ++ codeOfItems (offset + size item) items

/--
The code of branches, each but the last one behind a split that offers the next branch and
before a jump to `join`, the place directly behind all branches.
-/
def codeOfBranches (join offset : Int) : List Expression → List Instruction
  | [] => []
  | [branch] => code offset branch
  | branch :: next :: branches =>
      .split (offset + 1) (offset + 1 + size branch + 1) :: code (offset + 1) branch ++
        .jump join :: codeOfBranches join (offset + 1 + size branch + 1) (next :: branches)

end

@[simp]
theorem totalSize_nil : totalSize [] = 0 := rfl

@[simp]
theorem totalSize_cons (tree : Expression) (trees : List Expression) :
    totalSize (tree :: trees) = size tree + totalSize trees := rfl

theorem length_codeOfItems
    {items : List Expression}
    (each : ∀ item ∈ items, ∀ offset, (code offset item).length = size item) (offset : Int) :
    (codeOfItems offset items).length = totalSize items := by
  induction items generalizing offset with
  | nil => rfl
  | cons item items ih =>
      have rest := ih fun other member => each other (by simp [member])
      simp [codeOfItems, each item (by simp), rest]

theorem length_codeOfBranches
    {branches : List Expression}
    (each : ∀ branch ∈ branches, ∀ offset, (code offset branch).length = size branch)
    (join offset : Int) :
    (codeOfBranches join offset branches).length =
      totalSize branches + 2 * (branches.length - 1) := by
  induction branches generalizing offset with
  | nil => rfl
  | cons branch branches ih =>
      have first := each branch (by simp)
      cases branches with
      | nil => simp [codeOfBranches, first]
      | cons next branches =>
          have rest := ih fun other member => each other (by simp [member])
          simp only [codeOfBranches, List.length_cons, List.length_append, first, rest,
            totalSize_cons]
          omega

@[simp]
theorem length_code (offset : Int) (tree : Expression) :
    (code offset tree).length = size tree := by
  induction tree using Tree.induction generalizing offset with
  | gap g => nomatch g
  | literal c => rfl
  | sequence items ih =>
      simp [code, size, length_codeOfItems fun item member offset => ih item member offset]
  | alternation branches ih =>
      simp [code, size, length_codeOfBranches fun branch member offset => ih branch member offset]
  | quantified q body ih => cases q <;> simp [code, size, ih]

/-- Whether instructions neither accept nor continue outside of the given bounds, both included. -/
def StaysWithin (first last : Int) (instructions : List Instruction) : Prop :=
  ∀ instruction ∈ instructions, instruction ≠ .accept ∧
    ∀ target ∈ instruction.targets, first ≤ target ∧ target ≤ last

theorem StaysWithin.mono
    {first last first' last' : Int} {instructions : List Instruction}
    (within : StaysWithin first last instructions)
    (first_le : first' ≤ first) (le_last : last ≤ last') :
    StaysWithin first' last' instructions := by
  intro instruction member
  refine ⟨(within instruction member).1, fun target inside => ?_⟩
  have bounds := (within instruction member).2 target inside
  omega

theorem staysWithin_append {first last : Int} {left right : List Instruction} :
    StaysWithin first last (left ++ right) ↔
      StaysWithin first last left ∧ StaysWithin first last right := by
  simp only [StaysWithin, List.mem_append]
  grind

theorem staysWithin_cons {first last : Int} {head : Instruction} {rest : List Instruction} :
    StaysWithin first last (head :: rest) ↔
      (head ≠ .accept ∧ ∀ target ∈ head.targets, first ≤ target ∧ target ≤ last) ∧
        StaysWithin first last rest := by
  simp [StaysWithin]

theorem staysWithin_nil (first last : Int) : StaysWithin first last [] := by
  simp [StaysWithin]

theorem staysWithin_codeOfItems
    {items : List Expression}
    (each : ∀ item ∈ items, ∀ offset,
      StaysWithin offset (offset + size item) (code offset item))
    (offset : Int) :
    StaysWithin offset (offset + totalSize items) (codeOfItems offset items) := by
  induction items generalizing offset with
  | nil => exact staysWithin_nil _ _
  | cons item items ih =>
      have rest := ih (fun other member => each other (by simp [member])) (offset + size item)
      have first := each item (by simp) offset
      rw [codeOfItems, staysWithin_append]
      simp only [totalSize_cons]
      exact ⟨first.mono (by omega) (by omega), rest.mono (by omega) (by omega)⟩

theorem staysWithin_codeOfBranches
    {branches : List Expression}
    (each : ∀ branch ∈ branches, ∀ offset,
      StaysWithin offset (offset + size branch) (code offset branch))
    {join offset : Int}
    (bound : offset + (totalSize branches + 2 * (branches.length - 1) : Nat) ≤ join) :
    StaysWithin offset join (codeOfBranches join offset branches) := by
  induction branches generalizing offset with
  | nil => exact staysWithin_nil _ _
  | cons branch branches ih =>
      have first := each branch (by simp)
      simp only [totalSize_cons, List.length_cons] at bound
      cases branches with
      | nil =>
          simp only [totalSize_nil, List.length_nil] at bound
          exact (first offset).mono (by omega) (by omega)
      | cons next branches =>
          have rest := @ih (fun other member => each other (by simp [member]))
            (offset + 1 + size branch + 1) (by simp only [List.length_cons] at bound ⊢; omega)
          rw [codeOfBranches, List.cons_append, staysWithin_cons, staysWithin_append,
            staysWithin_cons]
          simp only [List.length_cons] at bound
          refine ⟨⟨by simp, ?_⟩, (first (offset + 1)).mono (by omega) (by omega),
            ⟨by simp, ?_⟩, rest.mono (by omega) (by omega)⟩
          · simp only [Instruction.targets, List.mem_cons, List.not_mem_nil, or_false]
            rintro target (rfl | rfl) <;> omega
          · simp only [Instruction.targets, List.mem_cons, List.not_mem_nil, or_false]
            rintro target rfl
            omega

theorem staysWithin_code (offset : Int) (tree : Expression) :
    StaysWithin offset (offset + size tree) (code offset tree) := by
  induction tree using Tree.induction generalizing offset with
  | gap g => nomatch g
  | literal c => simp [code, StaysWithin, Instruction.targets]
  | sequence items ih =>
      have within := staysWithin_codeOfItems (fun item member => ih item member) offset
      simpa [code, size] using within
  | alternation branches ih =>
      rw [code]
      exact staysWithin_codeOfBranches (fun branch member => ih branch member) (by simp [size])
  | quantified q body ih =>
      have inner := ih offset
      have moved := ih (offset + 1)
      cases q <;>
        simp only [code, size, staysWithin_append, staysWithin_cons, List.cons_append,
          staysWithin_nil, Instruction.targets, List.mem_cons, List.not_mem_nil, or_false,
          forall_eq_or_imp, forall_eq, ne_eq, reduceCtorEq, not_false_eq_true, true_and, and_true]
      · exact ⟨by omega, moved.mono (by omega) (by omega)⟩
      · exact ⟨inner.mono (by omega) (by omega), by omega⟩
      · exact ⟨by omega, moved.mono (by omega) (by omega), by omega⟩

theorem codeOfItems_add
    {items : List Expression} {distance : Int}
    (each : ∀ item ∈ items, ∀ offset,
      code (offset + distance) item = (code offset item).map (Instruction.shifted distance))
    (offset : Int) :
    codeOfItems (offset + distance) items =
      (codeOfItems offset items).map (Instruction.shifted distance) := by
  induction items generalizing offset with
  | nil => rfl
  | cons item items ih =>
      have rest := ih (fun other member => each other (by simp [member])) (offset + size item)
      rw [codeOfItems, codeOfItems, List.map_append, ← rest, each item (by simp),
        Int.add_right_comm]

theorem codeOfBranches_add
    {branches : List Expression} {distance : Int}
    (each : ∀ branch ∈ branches, ∀ offset,
      code (offset + distance) branch = (code offset branch).map (Instruction.shifted distance))
    (join offset : Int) :
    codeOfBranches (join + distance) (offset + distance) branches =
      (codeOfBranches join offset branches).map (Instruction.shifted distance) := by
  induction branches generalizing offset with
  | nil => rfl
  | cons branch branches ih =>
      have first := each branch (by simp)
      cases branches with
      | nil => exact first offset
      | cons next branches =>
          have rest := ih (fun other member => each other (by simp [member]))
            (offset + 1 + size branch + 1)
          have moved := first (offset + 1)
          rw [show offset + 1 + ↑(size branch) + 1 + distance =
            offset + distance + 1 + ↑(size branch) + 1 by omega] at rest
          rw [show offset + 1 + distance = offset + distance + 1 by omega] at moved
          simp only [codeOfBranches, List.cons_append, List.map_cons, List.map_append, rest,
            moved, Instruction.shifted, List.cons.injEq, Instruction.split.injEq, and_true]
          omega

/-- Moving the offset moves every target and changes nothing else. -/
theorem code_add (offset distance : Int) (tree : Expression) :
    code (offset + distance) tree = (code offset tree).map (Instruction.shifted distance) := by
  induction tree using Tree.induction generalizing offset with
  | gap g => nomatch g
  | literal c => rfl
  | sequence items ih => exact codeOfItems_add (fun item member offset => ih item member offset) _
  | alternation branches ih =>
      rw [code, code, Int.add_right_comm]
      exact codeOfBranches_add (fun branch member offset => ih branch member offset) _ _
  | quantified q body ih =>
      have moved := ih (offset + 1)
      rw [show offset + 1 + distance = offset + distance + 1 by omega] at moved
      cases q <;>
        simp only [code, List.cons_append, List.map_cons, List.map_append, List.map_nil, ih, moved,
          Instruction.shifted, List.cons.injEq, Instruction.split.injEq, and_true, true_and,
          List.append_cancel_left_eq] <;>
        omega

def program (tree : Expression) : Program where
  body := (code 0 tree).toArray
  fits instruction member := by
    have within := staysWithin_code 0 tree instruction (by simpa using member)
    refine ⟨within.1, fun target inside => ?_⟩
    have bounds := within.2 target inside
    simp only [Instruction.InRange, List.size_toArray, length_code]
    omega

@[simp]
theorem size_program (tree : Expression) : (program tree).size = size tree + 1 := by
  simp [Program.size, program]

end PatternMachine.Tree
