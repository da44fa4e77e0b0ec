/-!
# Misreadings

Why a text is no pattern, with the position of the character to blame. A misreading inside a
group is described from the text around the group by `outward`, which shifts its position; a
group without content blames the character that opens it.
-/

namespace PatternMachine

inductive Misread where
  | emptyPattern
  | emptyGroup (position : Nat)
  | emptyAlternative (position : Nat)
  | misplacedOperator (position : Nat)
  | danglingEscape (position : Nat)
  | unmatchedParenthesis (position : Nat)
  deriving DecidableEq

namespace Misread

/-- The position of the character to blame; an empty pattern has none. -/
def position? : Misread → Option Nat
  | .emptyPattern => none
  | .emptyGroup position => some position
  | .emptyAlternative position => some position
  | .misplacedOperator position => some position
  | .danglingEscape position => some position
  | .unmatchedParenthesis position => some position

theorem position?_eq_none_iff {misread : Misread} :
    misread.position? = none ↔ misread = .emptyPattern := by
  cases misread <;> simp [position?]

/-- A misreading of the content of a group that opens at a position of the text around it. -/
def outward (opening : Nat) : Misread → Misread
  | .emptyPattern => .emptyGroup opening
  | .emptyGroup position => .emptyGroup (opening + 1 + position)
  | .emptyAlternative position => .emptyAlternative (opening + 1 + position)
  | .misplacedOperator position => .misplacedOperator (opening + 1 + position)
  | .danglingEscape position => .danglingEscape (opening + 1 + position)
  | .unmatchedParenthesis position => .unmatchedParenthesis (opening + 1 + position)

@[simp]
theorem position?_outward (opening : Nat) (misread : Misread) :
    (misread.outward opening).position? =
      some ((misread.position?.map (opening + 1 + ·)).getD opening) := by
  cases misread <;> rfl

end Misread

end PatternMachine
