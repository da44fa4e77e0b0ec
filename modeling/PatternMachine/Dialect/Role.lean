import PatternMachine.Text.Basic

/-!
# Roles of special characters

A pattern is written with seven special characters. This module names what they do, lists the
roles once in their fixed order, and makes statements about all roles decidable through
`Role.mem_all`.
-/

namespace PatternMachine

inductive Quantifier where
  | optional
  | oneOrMore
  | zeroOrMore
  deriving DecidableEq

def Quantifier.name : Quantifier → Text
  | .optional => "Optional".toList
  | .oneOrMore => "OneOrMore".toList
  | .zeroOrMore => "ZeroOrMore".toList

inductive Role where
  | escape
  | union
  | groupBegin
  | groupEnd
  | quantifier (q : Quantifier)
  deriving DecidableEq

namespace Role

/-- Every role once, in the order in which a dialect is checked and reported. -/
def all : List Role :=
  [.escape, .union, .groupBegin, .groupEnd,
    .quantifier .optional, .quantifier .oneOrMore, .quantifier .zeroOrMore]

@[simp]
theorem mem_all (role : Role) : role ∈ all := by
  rcases role with _ | _ | _ | _ | _ | _ | _ <;> decide

instance decidableForall (p : Role → Prop) [DecidablePred p] : Decidable (∀ role, p role) :=
  decidable_of_iff (∀ role ∈ all, p role)
    ⟨fun holds role => holds role (mem_all role), fun holds role _ => holds role⟩

end Role

end PatternMachine
