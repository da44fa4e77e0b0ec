import PatternMachine.Expression.Code

/-!
# Emitting code

Code can be emitted instruction by instruction, each place being the offset and the number of
instructions emitted so far. Only the targets of a split or of a jump behind a branch need the size
of what is still to come. `emitted_eq_code` says that this lays out the same code.
-/

namespace PatternMachine.Tree

mutual

/-- The instructions of an expression in the order in which they are emitted from `offset` on. -/
def emitted (offset : Int) : Expression → List Instruction
  | .gap g => nomatch g
  | .literal c => [.consume [c]]
  | .sequence items => emittedItems offset [] items
  | .alternation branches =>
      emittedBranches (offset + size (.alternation branches)) offset [] branches
  | .quantified .optional body =>
      [.split (offset + 1) (offset + 1 + size body)] ++ emitted (offset + 1) body
  | .quantified .oneOrMore body =>
      let instructions := emitted offset body
      instructions ++ [.split offset (offset + instructions.length + 1)]
  | .quantified .zeroOrMore body =>
      let finish := offset + size body + 2
      [.split (offset + 1) finish] ++ emitted (offset + 1) body ++ [.jump offset]

/-- What has been emitted from `offset` on when the items are behind it. -/
def emittedItems (offset : Int) (before : List Instruction) :
    List Expression → List Instruction
  | [] => before
  | item :: items =>
      emittedItems offset (before ++ emitted (offset + before.length) item) items

def emittedBranches (join offset : Int) (before : List Instruction) :
    List Expression → List Instruction
  | [] => before
  | [branch] => before ++ emitted (offset + before.length) branch
  | branch :: next :: branches =>
      let start := offset + before.length + 1
      emittedBranches join offset
        (before ++ [.split start (start + size branch + 1)] ++ emitted start branch ++ [.jump join])
        (next :: branches)

end

theorem emittedItems_eq
    {items : List Expression}
    (each : ∀ item ∈ items, ∀ offset, emitted offset item = code offset item)
    (offset : Int) (before : List Instruction) :
    emittedItems offset before items =
      before ++ codeOfItems (offset + before.length) items := by
  induction items generalizing before with
  | nil => simp [emittedItems, codeOfItems]
  | cons item items ih =>
      have behind : offset + (before ++ code (offset + before.length) item).length =
          offset + before.length + size item := by
        simp [Int.add_assoc]
      rw [emittedItems, each item (by simp),
        ih fun other member => each other (by simp [member]), behind, codeOfItems,
        List.append_assoc]

theorem emittedBranches_eq
    {branches : List Expression}
    (each : ∀ branch ∈ branches, ∀ offset, emitted offset branch = code offset branch)
    (join offset : Int) (before : List Instruction) :
    emittedBranches join offset before branches =
      before ++ codeOfBranches join (offset + before.length) branches := by
  induction branches generalizing before with
  | nil => simp [emittedBranches, codeOfBranches]
  | cons branch branches ih =>
      have first := each branch (by simp)
      cases branches with
      | nil => rw [emittedBranches, codeOfBranches, first]
      | cons next branches =>
          have rest := ih fun other member => each other (by simp [member])
          have behind (head last : Instruction) :
              offset + (before ++ [head] ++ code (offset + before.length + 1) branch ++
                [last]).length = offset + before.length + 1 + size branch + 1 := by
            simp only [List.length_append, length_code, List.length_singleton]
            omega
          rw [emittedBranches, codeOfBranches, first, rest, behind]
          simp

/-- Emitting instructions one behind the other gives the code of an expression. -/
theorem emitted_eq_code (offset : Int) (tree : Expression) :
    emitted offset tree = code offset tree := by
  induction tree using Tree.induction generalizing offset with
  | gap g => nomatch g
  | literal c => rfl
  | sequence items ih =>
      rw [emitted, emittedItems_eq fun item member offset => ih item member offset]
      simp [code]
  | alternation branches ih =>
      rw [emitted, emittedBranches_eq fun branch member offset => ih branch member offset]
      simp [code]
  | quantified q body ih => cases q <;> simp [emitted, code, ih]

end PatternMachine.Tree
