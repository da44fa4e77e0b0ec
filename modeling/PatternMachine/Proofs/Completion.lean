import Mathlib.Data.List.Induction
import PatternMachine.Matching
import PatternMachine.Proofs.Expression.Constructed
import PatternMachine.Proofs.Expression.Continuation

/-!
# Matching ends when nothing can complete the text

The threads of a compiled expression die out exactly behind the first character that leaves no way
to complete the text to one that the expression denotes. This is when a match reports an early
end, once and with the position of that character.
-/

namespace PatternMachine

open PatternMachine.Tree (Completable Constructed survives_program_iff)

variable {tree : Expression} {text : Text}

/-- Where the program of an expression ends early: behind a first character too many. -/
theorem simulate_program_of_dies
    (canonical : tree.Canonical) {k : Nat} {c : Char} (found : text[k]? = some c)
    (completable : Completable tree (text.take k)) (dead : ¬ Completable tree (text.take (k + 1))) :
    (tree.program.simulate text).extinction = some (c, k) ∧
      (tree.program.simulate text).lists.length = k + 2 := by
  obtain ⟨inside, rfl⟩ := List.getElem?_eq_some_iff.mp found
  rw [← survives_program_iff canonical] at completable dead
  rw [← List.take_append_getElem inside] at dead
  have cut : text = text.take k ++ text[k] :: text.drop (k + 1) := by
    rw [← List.drop_eq_getElem_cons inside, List.take_append_drop]
  have ended := Program.simulateFrom_of_dies (Program.follows_startList tree.program) 0
    (text.drop (k + 1)) completable dead
  rw [← cut, List.length_take_of_le (Nat.le_of_lt inside), Nat.zero_add] at ended
  exact ended

theorem completable_nil (canonical : tree.Canonical) : Completable tree [] := by
  rw [← survives_program_iff canonical]
  obtain ⟨rest, last, run, accepting⟩ :=
    Tree.exists_run_to_accept tree.program.inRange_start
  have admits : tree.program.Admits ([] ++ rest) := ⟨last, run, accepting⟩
  exact admits.survives.of_append

theorem exists_last_completable (canonical : tree.Canonical) (dead : ¬ Completable tree text) :
    ∃ k c, text[k]? = some c ∧ Completable tree (text.take k) ∧
      ¬ Completable tree (text.take (k + 1)) := by
  induction text using List.reverseRecOn with
  | nil => exact absurd (completable_nil canonical) dead
  | append_singleton before c ih =>
      by_cases completable : Completable tree before
      · refine ⟨before.length, c, by simp, by simpa using completable, ?_⟩
        rwa [List.take_of_length_le (by simp)]
      · obtain ⟨k, d, found, start, more⟩ := ih completable
        have inside := (List.getElem?_eq_some_iff.mp found).1
        refine ⟨k, d, ?_, ?_, ?_⟩
        · rwa [List.getElem?_append_left inside]
        · rwa [List.take_append_of_le_length (Nat.le_of_lt inside)]
        · rwa [List.take_append_of_le_length inside]

/--
The list of the program of a constructed expression behind `k` characters is empty if and only if
no denoted text starts with these. There is a list behind every character if all that comes before
the last one can be completed; the first character that leaves nothing to complete ends the
simulation and is reported, once and with its position; and nothing is reported otherwise.
-/
theorem threads_empty_iff_not_completable
    (tree : Expression) (constructed : Constructed tree) (text : Text) :
    (∀ k list, (tree.program.simulate text).lists[k]? = some list →
      (list.threads = [] ↔ ¬ Completable tree (text.take k))) ∧
    ((∀ k < text.length, Completable tree (text.take k)) →
      (tree.program.simulate text).lists.length = text.length + 1) ∧
    (∀ k c, text[k]? = some c → Completable tree (text.take k) →
      ¬ Completable tree (text.take (k + 1)) →
      (tree.program.simulate text).lists.length = k + 2 ∧
        (tree.program.run text : Traced Fault Bool).events = [.extinct c k]) ∧
    (Completable tree text ↔ (tree.program.run text : Traced Fault Bool).events = []) ∧
    (¬ Completable tree text → ∃ k c, text[k]? = some c ∧ Completable tree (text.take k) ∧
      ¬ Completable tree (text.take (k + 1))) := by
  have canonical := Tree.constructed_iff_canonical.mp constructed
  have threads_iff : ∀ k list, (tree.program.simulate text).lists[k]? = some list →
      (list.threads = [] ↔ ¬ Completable tree (text.take k)) := by
    intro k list reached
    rw [(Program.follows_lists reached).threads_eq_nil_iff, survives_program_iff canonical]
  refine ⟨threads_iff, ?_, ?_, ?_, exists_last_completable canonical⟩
  · intro each
    refine Nat.le_antisymm (Program.length_lists_simulateFrom_le _ 0 _ text)
      (Nat.lt_of_not_le fun short => ?_)
    -- A list that comes too early to be the last one is empty.
    have dead := (threads_iff _ _ (tree.program.simulate text).getElem?_lists_final).mp
      (Program.threads_final_of_short short)
    have inside : (tree.program.simulate text).later.length < text.length := by
      simp only [Simulation.lists, List.length_cons] at short
      omega
    exact dead (each _ inside)
  · intro k c found completable dead
    obtain ⟨ended, length_eq⟩ := simulate_program_of_dies canonical found completable dead
    exact ⟨length_eq, by simp [Program.run, ended]⟩
  · constructor
    · intro completable
      have alive := Program.extinction_simulateFrom_of_survives
        (Program.follows_startList tree.program) 0
        ((survives_program_iff canonical).mpr completable)
      simp [Program.run, Program.simulate, alive]
    · intro silent
      refine Classical.byContradiction fun dead => ?_
      obtain ⟨k, c, found, completable, more⟩ := exists_last_completable canonical dead
      obtain ⟨ended, _⟩ := simulate_program_of_dies canonical found completable more
      simp [Program.run, ended] at silent

/-- Nothing can complete a text behind the `b` that ends a repetition of `a`, which is reported. -/
theorem end_behind_repetition :
    ∃ tree, Constructed tree ∧ Completable tree ['a', 'b'] ∧ ¬ Completable tree ['a', 'b', 'a'] ∧
      (tree.program.run ['a', 'b', 'a', 'b'] : Traced Fault Bool).events = [.extinct 'a' 2] := by
  let tree : Expression := .sequence [.quantified .oneOrMore (.literal 'a'), .literal 'b']
  have constructed : Constructed tree :=
    Tree.constructed_iff_canonical.mpr (.sequence (by simp)
      (by simpa using ⟨.quantified .oneOrMore (.literal 'a'), .literal 'b'⟩) (by simp [Tree.kind]))
  obtain ⟨threads_iff, _, reported, _⟩ :=
    threads_empty_iff_not_completable tree constructed ['a', 'b', 'a', 'b']
  have alive : Completable tree ['a', 'b'] :=
    Classical.not_not.mp ((not_congr (threads_iff 2 ⟨[3], [3]⟩ (by cbv))).mp (by simp))
  have dead : ¬ Completable tree ['a', 'b', 'a'] := (threads_iff 3 ⟨[], []⟩ (by cbv)).mp rfl
  exact ⟨tree, constructed, alive, dead, (reported 2 'a' rfl alive dead).2⟩

end PatternMachine
