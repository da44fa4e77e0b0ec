import PatternMachine.Dialect.Basic
import PatternMachine.Expression.Basic

/-!
# Written patterns

An expression is written as a pattern of a dialect with as few groups as its shape allows: an
alternation always stands in a group, and so does the body of a quantifier unless it is a literal
or itself quantified. A special character is escaped where it stands for itself.
-/

namespace PatternMachine.Tree

mutual

/-- An expression as a pattern in the given dialect. -/
def written (d : Dialect) : Expression → Text
  | .gap g => nomatch g
  | .literal c => d.escaped c
  | .sequence items => (writtenAll d items).flatten
  | .alternation branches => d.grouped ([d.symbol .union].intercalate (writtenAll d branches))
  | .quantified q body =>
      (if body.isAtom then written d body else d.grouped (written d body)) ++
        [d.symbol (.quantifier q)]

def writtenAll (d : Dialect) : List Expression → List Text
  | [] => []
  | tree :: trees => written d tree :: writtenAll d trees

end

@[simp]
theorem writtenAll_eq_map (d : Dialect) (trees : List Expression) :
    writtenAll d trees = trees.map (written d) := by
  induction trees with
  | nil => rfl
  | cons tree trees ih => simp [writtenAll, ih]

end PatternMachine.Tree
