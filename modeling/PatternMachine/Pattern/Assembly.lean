import PatternMachine.Expression.Construction
import PatternMachine.Pattern.Misread

/-!
# Assembly of branches

While the fragments of a pattern are put together, an assembly holds the finished branches and
the operands of the current branch, the newest in front. `canonical_finish?` says that what an
assembly of canonical trees finishes as is canonical.
-/

namespace PatternMachine

/-- The finished branches and the operands of the branch in work, the newest in front. -/
structure Assembly where
  branches : List Expression
  operands : List Expression

namespace Assembly

def empty : Assembly :=
  ⟨[], []⟩

def push (assembly : Assembly) (operand : Expression) : Assembly :=
  { assembly with operands := operand :: assembly.operands }

def branch (assembly : Assembly) : Expression :=
  Tree.concat assembly.operands.reverse

/-- Finish the current branch at a union, which has to have an operand in front of it. -/
def union? (assembly : Assembly) (position : Nat) : Except Misread Assembly :=
  if assembly.operands.isEmpty then
    .error (.emptyAlternative position)
  else
    .ok ⟨assembly.branch :: assembly.branches, []⟩

def quantify? (assembly : Assembly) (q : Quantifier) (position : Nat) :
    Except Misread Assembly :=
  match assembly.operands with
  | [] => .error (.misplacedOperator position)
  | operand :: operands => .ok { assembly with operands := .quantified q operand :: operands }

/-- The tree of a pattern of the given length whose fragments have all been put in. -/
def finish? (assembly : Assembly) (length : Nat) : Except Misread Expression :=
  match assembly.operands, assembly.branches with
  | [], [] => .error .emptyPattern
  | [], _ :: _ => .error (.emptyAlternative (length - 1))
  | _ :: _, branches => .ok (Tree.choice (assembly.branch :: branches).reverse)

structure Canonical (assembly : Assembly) : Prop where
  branches : ∀ tree ∈ assembly.branches, tree.Canonical
  operands : ∀ tree ∈ assembly.operands, tree.Canonical

theorem canonical_empty : Canonical empty :=
  ⟨by simp [empty], by simp [empty]⟩

namespace Canonical

variable {assembly next : Assembly}

theorem push
    (canonical : assembly.Canonical) {operand : Expression} (inner : operand.Canonical) :
    (assembly.push operand).Canonical where
  branches := canonical.branches
  operands := by
    intro tree member
    rcases List.mem_cons.mp member with rfl | member
    · exact inner
    · exact canonical.operands tree member

theorem branch (canonical : assembly.Canonical) (nonempty : assembly.operands ≠ []) :
    assembly.branch.Canonical :=
  Tree.canonical_concat (by simpa using nonempty) fun tree member =>
    canonical.operands tree (by simpa using member)

theorem union?
    (canonical : assembly.Canonical) {position : Nat}
    (closed : assembly.union? position = .ok next) :
    next.Canonical := by
  unfold Assembly.union? at closed
  split at closed
  · contradiction
  next nonempty =>
    cases closed
    refine ⟨fun tree member => ?_, by simp⟩
    rcases List.mem_cons.mp member with rfl | member
    · exact canonical.branch (by simpa using nonempty)
    · exact canonical.branches tree member

theorem quantify?
    (canonical : assembly.Canonical) {q : Quantifier} {position : Nat}
    (quantified : assembly.quantify? q position = .ok next) :
    next.Canonical := by
  unfold Assembly.quantify? at quantified
  split at quantified
  · contradiction
  next operand operands operands_eq =>
    have inner := canonical.operands
    rw [operands_eq] at inner
    cases quantified
    refine ⟨canonical.branches, fun tree member => ?_⟩
    rcases List.mem_cons.mp member with rfl | member
    · exact .quantified q (inner operand (by simp))
    · exact inner tree (by simp [member])

theorem finish?
    (canonical : assembly.Canonical) {length : Nat} {tree : Expression}
    (finished : assembly.finish? length = .ok tree) :
    tree.Canonical := by
  unfold Assembly.finish? at finished
  split at finished
  · contradiction
  · contradiction
  next operand operands operands_eq =>
    cases finished
    refine Tree.canonical_choice (by simp) fun branch member => ?_
    rcases List.mem_cons.mp (List.mem_reverse.mp member) with rfl | member
    · exact canonical.branch (by simp [operands_eq])
    · exact canonical.branches branch member

end Canonical

end Assembly

end PatternMachine
