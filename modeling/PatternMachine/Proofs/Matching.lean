import Mathlib.Data.List.Basic
import PatternMachine.Proofs.Expression.Constructed
import PatternMachine.Proofs.Expression.Execution
import PatternMachine.Proofs.Program.Lockstep

/-!
# Matching is denotation

A compiled expression accepts the texts that it denotes. The thread list behind any number of
characters already tells whether the text up to there is denoted, and a simulation that ends
before its text does ends over a text that is not.
-/

namespace PatternMachine

open PatternMachine.Tree (Denotes Constructed)

/--
A text matches the program of a constructed expression if and only if the expression denotes it;
the list behind the first `k` characters accepts if and only if the expression denotes these; and
a text before whose end the simulation ends is not denoted.
-/
theorem accepts_program_iff_denotes
    (tree : Expression) (constructed : Constructed tree) (text : Text) :
    (tree.program.accepts text = true ↔ Denotes tree text) ∧
      (∀ k list, (tree.program.simulate text).lists[k]? = some list →
        (list.isAccepting tree.program = true ↔ Denotes tree (text.take k))) ∧
      ((tree.program.simulate text).lists.length < text.length + 1 → ¬ Denotes tree text) := by
  have canonical := Tree.constructed_iff_canonical.mp constructed
  constructor
  · rw [Program.accepts_iff_admits, Tree.admits_program_iff canonical]
  constructor
  · intro k list reached
    rw [(Program.follows_lists reached).isAccepting_iff, Tree.admits_program_iff canonical]
  · intro short denoted
    obtain ⟨last, run, _⟩ := (Tree.admits_program_iff canonical).mpr denoted
    apply Program.not_run_of_short (Nat.le_of_lt_succ short) last run

/--
A simulation tells what a repeated optional literal denotes, although the body of the repetition
may be empty: it accepts behind the first character and ends at the second.
-/
theorem denotes_repeated_optional :
    Constructed (.quantified .oneOrMore (.quantified .optional (.literal 'a'))) ∧
      Denotes (.quantified .oneOrMore (.quantified .optional (.literal 'a'))) ['a'] ∧
      ¬ Denotes (.quantified .oneOrMore (.quantified .optional (.literal 'a'))) ['a', 'b', 'a'] := by
  have constructed : Constructed (.quantified .oneOrMore (.quantified .optional (.literal 'a'))) :=
    .quantified .oneOrMore (.quantified .optional (.literal (Tree.literal?_eq_ok_iff.mpr
      ⟨'a', rfl, rfl⟩)))
  obtain ⟨_, prefixes, short⟩ := accepts_program_iff_denotes _ constructed ['a', 'b', 'a']
  refine ⟨constructed, (prefixes 1 _ (List.getElem?_eq_getElem ?_)).mp ?_, short ?_⟩
  · cbv
  · cbv
  · cbv

end PatternMachine
