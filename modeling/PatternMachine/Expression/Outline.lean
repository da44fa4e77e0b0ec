import PatternMachine.Expression.Written

/-!
# Outlines

The outline of an expression has an entry for each node in preorder: a tab for each level above
the node, the name of its kind, and the pattern that the node is written as. A literal stands in
its pattern as it is, so an entry may span more than one line.
-/

namespace PatternMachine.Tree

def outlineEntry (d : Dialect) (depth : Nat) (tree : Expression) : Text :=
  List.replicate depth '\t' ++ tree.kind.name ++ ':' :: ' ' :: tree.written d

mutual

/-- The entries of a tree whose root has the given depth, in preorder. -/
def outlineEntries (d : Dialect) (depth : Nat) : Expression → List Text
  | .gap g => nomatch g
  | .literal c => [outlineEntry d depth (.literal c)]
  | .sequence items =>
      outlineEntry d depth (.sequence items) :: outlineEntriesAll d (depth + 1) items
  | .alternation branches =>
      outlineEntry d depth (.alternation branches) :: outlineEntriesAll d (depth + 1) branches
  | .quantified q body =>
      outlineEntry d depth (.quantified q body) :: outlineEntries d (depth + 1) body

def outlineEntriesAll (d : Dialect) (depth : Nat) : List Expression → List Text
  | [] => []
  | tree :: trees => outlineEntries d depth tree ++ outlineEntriesAll d depth trees

end

def outline (d : Dialect) (tree : Expression) : Text :=
  Text.ofLines (outlineEntries d 0 tree)

@[simp]
theorem outlineEntriesAll_eq_flatMap (d : Dialect) (depth : Nat) (trees : List Expression) :
    outlineEntriesAll d depth trees = trees.flatMap (outlineEntries d depth) := by
  induction trees with
  | nil => rfl
  | cons tree trees ih => simp [outlineEntriesAll, ih]

theorem outlineEntries_eq (d : Dialect) (depth : Nat) (tree : Expression) :
    outlineEntries d depth tree =
      outlineEntry d depth tree :: tree.children.flatMap (outlineEntries d (depth + 1)) := by
  rcases tree with g | c | items | branches | ⟨q, body⟩
  · nomatch g
  all_goals simp [outlineEntries, children]

end PatternMachine.Tree
