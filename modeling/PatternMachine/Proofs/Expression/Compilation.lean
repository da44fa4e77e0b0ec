import PatternMachine.Matching
import PatternMachine.Proofs.Expression.Constructed
import PatternMachine.Proofs.Expression.Execution

/-!
# Checked compilation

A compilation can count the instructions that it emits and check them like those of a program
written by hand. `compileChecked_eq` says that it finds nothing to object to, so that compiling
without a check is as safe. The code may be laid out at any offset, also in front of the start of a
program: moving it moves its targets and nothing else.
-/

namespace PatternMachine

/-- A program accepts at its last place and nowhere else. -/
theorem Program.getElem?_code_eq_accept_iff {p : Program} {place : Nat} :
    p.code[place]? = some .accept ↔ place + 1 = p.size := by
  rw [← at?_eq_getElem?, at?, size]
  split
  next inside =>
    have other := (p.fits p.body[place] (Array.getElem_mem inside)).not_accept
    simp only [Option.some.injEq, other, false_iff]
    omega
  next outside =>
    split
    next last => simp [last]
    next beyond =>
      simp only [reduceCtorEq, false_iff]
      omega

namespace Tree

/-- Why a compilation that checks itself stops without a program. -/
inductive CompilationFault where
  | miscounted (emitted counted : Nat)
  | code (fault : Program.CodeFault)
  deriving DecidableEq

/-- Compile an expression, count the emitted instructions and check all as a program. -/
def compileChecked (tree : Expression) : Traced CompilationFault Program :=
  let emitted := code 0 tree
  if emitted.length = size tree then do
    let instructions := emitted ++ [.accept]
    Traced.report (.compiled tree instructions.length)
    (Traced.ofExcept (Program.ofCode? instructions)).mapFault .code
  else
    .fail (.miscounted emitted.length (size tree))

theorem ofCode?_code_append_accept (tree : Expression) :
    Program.ofCode? (code 0 tree ++ [.accept]) = .ok tree.program := by
  rw [← code_program, Program.ofCode?_code]

/-- A compilation that checks itself does what one without checks does. -/
theorem compileChecked_eq (tree : Expression) : tree.compileChecked = tree.compile := by
  unfold compileChecked compile
  simp only [length_code, ofCode?_code_append_accept, List.length_append, List.length_singleton,
    size_program]
  rfl

theorem Canonical.one_le_size {tree : Expression} (canonical : tree.Canonical) :
    1 ≤ size tree := by
  have first_le : ∀ (tree : Expression) (trees : List Expression),
      size tree ≤ totalSize (tree :: trees) :=
    fun tree trees => Nat.le_add_right _ _
  induction canonical with
  | gap g => nomatch g
  | literal c => exact Nat.le_refl 1
  | @sequence items several _ _ ih =>
      match items, several with
      | item :: items, _ => exact Nat.le_trans (ih item (by simp)) (first_le item items)
  | @alternation branches several _ ih =>
      match branches, several with
      | branch :: branches, _ =>
          exact Nat.le_add_right_of_le
            (Nat.le_trans (ih branch (by simp)) (first_le branch branches))
  | quantified q _ ih => cases q <;> exact Nat.le_add_right_of_le ih

/--
The code of a constructed expression has as many instructions as its size says, at any offset. None
accepts and all targets lie in the code or directly behind it, and moving the offset moves the
targets only. So a compilation that counts and checks finds no fault, and it makes a program of one
more instruction, which is the only one that accepts.
-/
theorem compileChecked_of_constructed
    (tree : Expression) (constructed : Constructed tree) (offset distance : Int) :
    (code offset tree).length = size tree ∧ 1 ≤ size tree ∧
      (∀ instruction ∈ code offset tree, instruction ≠ .accept ∧
        ∀ target ∈ instruction.targets, offset ≤ target ∧ target ≤ offset + size tree) ∧
      code (offset + distance) tree = (code offset tree).map (Instruction.shifted distance) ∧
      tree.compileChecked = tree.compile ∧ tree.compileChecked.outcome = .ok tree.program ∧
      tree.program.code = code 0 tree ++ [.accept] ∧ tree.program.size = size tree + 1 ∧
      ∀ place : Nat, tree.program.code[place]? = some .accept ↔ place = size tree := by
  have canonical := constructed_iff_canonical.mp constructed
  refine ⟨length_code offset tree, canonical.one_le_size, staysWithin_code offset tree,
    code_add offset distance tree, compileChecked_eq tree, ?_, code_program tree,
    size_program tree, fun place => ?_⟩
  · rw [compileChecked_eq, outcome_compile]
  · rw [Program.getElem?_code_eq_accept_iff, size_program]
    exact Nat.succ_inj

/-- A repeated choice laid out in front of the start of a program and at its seventh place. -/
theorem compileChecked_repeated_choice :
    ∃ tree, Constructed tree ∧
      code (-3) tree = [.split (-2) 4, .split (-1) 1, .consume ['a'], .jump 3, .consume ['b'],
        .consume ['c'], .jump (-3)] ∧
      code 7 tree = [.split 8 14, .split 9 11, .consume ['a'], .jump 13, .consume ['b'],
        .consume ['c'], .jump 7] ∧
      tree.compileChecked.outcome = .ok tree.program ∧ tree.program.size = 8 := by
  let inner : Expression := .sequence [.literal 'b', .literal 'c']
  let tree : Expression := .quantified .zeroOrMore (.alternation [.literal 'a', inner])
  have inner_canonical : inner.Canonical :=
    .sequence (by simp) (by simpa using ⟨.literal 'b', .literal 'c'⟩) (by simp [kind])
  have choice_canonical : Canonical (.alternation [.literal 'a', inner]) :=
    .alternation (by simp) (by simpa using ⟨.literal 'a', inner_canonical⟩)
  have constructed : Constructed tree :=
    constructed_iff_canonical.mpr (.quantified .zeroOrMore choice_canonical)
  have before : code (-3) tree = [.split (-2) 4, .split (-1) 1, .consume ['a'], .jump 3,
      .consume ['b'], .consume ['c'], .jump (-3)] := by
    decide
  obtain ⟨_, _, _, moved, _, outcome, _, size_eq, _⟩ :=
    compileChecked_of_constructed tree constructed (-3) 10
  refine ⟨tree, constructed, before, ?_, outcome, size_eq⟩
  rw [before] at moved
  exact moved

end Tree

end PatternMachine
