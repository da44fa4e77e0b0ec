import PatternMachine.Expression.Code
import PatternMachine.Proofs.Program.Walk

/-!
# Layout of code

What a program has from an offset on where it carries the code of an expression: one statement for
each way to combine expressions, with the place directly behind the code beside it.
-/

namespace PatternMachine.Tree

variable {p : Program} {offset join : Int} {item branch next body : Expression}
  {items branches : List Expression}

theorem carries_codeOfItems_cons :
    p.Carries offset (codeOfItems offset (item :: items)) ↔
      p.Carries offset (code offset item) ∧
        p.Carries (offset + size item) (codeOfItems (offset + size item) items) := by
  rw [codeOfItems, Program.carries_append, length_code]

/-- A branch before others stands between a split to both and a jump behind all of them. -/
theorem carries_codeOfBranches_cons :
    p.Carries offset (codeOfBranches join offset (branch :: next :: branches)) ↔
      p.lookup? offset = some (.split (offset + 1) (offset + 1 + size branch + 1)) ∧
        p.Carries (offset + 1) (code (offset + 1) branch) ∧
        p.lookup? (offset + 1 + size branch) = some (.jump join) ∧
        p.Carries (offset + 1 + size branch + 1)
          (codeOfBranches join (offset + 1 + size branch + 1) (next :: branches)) := by
  rw [codeOfBranches, List.cons_append, Program.Carries, Program.carries_append, length_code,
    Program.Carries]

theorem join_of_cons
    (behind : join = offset +
      (totalSize (branch :: next :: branches) +
        2 * ((branch :: next :: branches).length - 1) : Nat)) :
    join = offset + 1 + size branch + 1 +
      (totalSize (next :: branches) + 2 * ((next :: branches).length - 1) : Nat) := by
  simp only [totalSize_cons, List.length_cons] at behind ⊢
  omega

theorem carries_optional :
    p.Carries offset (code offset (.quantified .optional body)) ↔
      p.lookup? offset = some (.split (offset + 1) (offset + 1 + size body)) ∧
        p.Carries (offset + 1) (code (offset + 1) body) :=
  Iff.rfl

theorem add_size_optional (offset : Int) (body : Expression) :
    offset + size (.quantified .optional body) = offset + 1 + size body := by
  simp only [size]
  omega

theorem carries_oneOrMore :
    p.Carries offset (code offset (.quantified .oneOrMore body)) ↔
      p.Carries offset (code offset body) ∧
        p.lookup? (offset + size body) = some (.split offset (offset + size body + 1)) := by
  rw [code, Program.carries_append, length_code]
  exact and_congr_right fun _ => and_iff_left trivial

theorem add_size_oneOrMore (offset : Int) (body : Expression) :
    offset + size (.quantified .oneOrMore body) = offset + size body + 1 := by
  simp only [size]
  omega

theorem carries_zeroOrMore :
    p.Carries offset (code offset (.quantified .zeroOrMore body)) ↔
      p.lookup? offset = some (.split (offset + 1) (offset + size body + 2)) ∧
        p.Carries (offset + 1) (code (offset + 1) body) ∧
        p.lookup? (offset + 1 + size body) = some (.jump offset) := by
  rw [code, List.cons_append, Program.Carries, Program.carries_append, length_code]
  exact and_congr_right fun _ => and_congr_right fun _ => and_iff_left trivial

theorem add_size_zeroOrMore (offset : Int) (body : Expression) :
    offset + size (.quantified .zeroOrMore body) = offset + size body + 2 := by
  simp only [size]
  omega

end PatternMachine.Tree
