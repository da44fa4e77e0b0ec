import PatternMachine.Expression.Basic
import PatternMachine.Text.Quoted

/-!
# Trees as terms

The term of a tree names its nodes and nests its operands in parentheses, the operands of a
combination as one comma-separated tuple and characters as quoted texts. It shows gaps too, so
every draft has a term.
-/

namespace PatternMachine.Tree

variable {γ : Type}

def applied (name argument : Text) : Text :=
  name ++ '(' :: argument ++ [')']

mutual

/-- A tree as a term over the names of its kinds. -/
def term : Tree γ → Text
  | .gap _ => applied Kind.gap.name []
  | .literal c => applied Kind.literal.name (Text.quoted [c])
  | .sequence items => applied Kind.sequence.name (applied [] (Text.commaSeparated (terms items)))
  | .alternation branches =>
      applied Kind.alternation.name (applied [] (Text.commaSeparated (terms branches)))
  | .quantified q body => applied q.name (term body)

def terms : List (Tree γ) → List Text
  | [] => []
  | tree :: trees => term tree :: terms trees

end

@[simp]
theorem terms_eq_map (trees : List (Tree γ)) : terms trees = trees.map term := by
  induction trees with
  | nil => rfl
  | cons tree trees ih => simp [terms, ih]

end PatternMachine.Tree
