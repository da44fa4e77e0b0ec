import PatternMachine.Proofs.Program.Lockstep

/-!
# Survival

A program survives a text if some run over the text comes to a resting place. Every list that
follows the text holds a thread then, and otherwise it holds none. So a simulation goes on as long
as the text up to there is survived (`extinction_simulateFrom_of_survives`), and the first
character behind which it is not ends it (`simulateFrom_of_dies`).
-/

namespace PatternMachine.Program

variable {p : Program} {list : ThreadList} {text before : Text}

/-- Whether some run over a text comes from the start to a resting place. -/
def Survives (p : Program) (text : Text) : Prop :=
  ∃ pointer, Run p 0 text pointer ∧ p.Rests pointer

theorem Survives.of_append {after : Text} (survives : p.Survives (before ++ after)) :
    p.Survives before := by
  obtain ⟨pointer, run, rests⟩ := survives
  cases after with
  | nil =>
      rw [List.append_nil] at run
      exact ⟨pointer, run, rests⟩
  | cons c after =>
      obtain ⟨middle, instruction, start, found, passes, _⟩ := run.split_at rfl
      exact ⟨middle, start, rests_of_passes found passes⟩

theorem Admits.survives (admits : p.Admits text) : p.Survives text := by
  obtain ⟨last, run, accepting⟩ := admits
  exact ⟨last, run, rests_of_accept accepting⟩

theorem Follows.threads_eq_nil_iff (follows : p.Follows text list) :
    list.threads = [] ↔ ¬ p.Survives text := by
  rw [List.eq_nil_iff_forall_not_mem]
  constructor
  · rintro empty ⟨pointer, reached⟩
    exact empty pointer ((follows pointer).mpr reached)
  · intro dies pointer thread
    exact dies ⟨pointer, (follows pointer).mp thread⟩

/-- A simulation of a survived text does not end early. -/
theorem extinction_simulateFrom_of_survives
    (follows : p.Follows before list) (position : Nat) (survives : p.Survives (before ++ text)) :
    (p.simulateFrom position list text).extinction = none := by
  induction text generalizing before list position with
  | nil => rfl
  | cons c rest ih =>
      have next := follows.advance c
      rw [List.append_cons] at survives
      have alive : (list.advance p c).threads ≠ [] := fun empty =>
        next.threads_eq_nil_iff.mp empty survives.of_append
      rw [simulateFrom_of_alive alive]
      exact ih next (position + 1) survives

/-- A character behind which the text is no longer survived ends a simulation. -/
theorem simulateFrom_of_dies
    (follows : p.Follows before list) (position : Nat) {inner : Text} {c : Char} (after : Text)
    (survives : p.Survives (before ++ inner)) (dies : ¬ p.Survives (before ++ inner ++ [c])) :
    (p.simulateFrom position list (inner ++ c :: after)).extinction =
        some (c, position + inner.length) ∧
      (p.simulateFrom position list (inner ++ c :: after)).lists.length = inner.length + 2 := by
  induction inner generalizing before list position with
  | nil =>
      rw [List.append_nil] at dies
      have extinct := (follows.advance c).threads_eq_nil_iff.mpr dies
      rw [List.nil_append, simulateFrom_of_extinct extinct]
      exact ⟨rfl, rfl⟩
  | cons d inner ih =>
      have next := follows.advance d
      rw [List.append_cons before d inner] at survives dies
      have alive : (list.advance p d).threads ≠ [] := fun empty =>
        next.threads_eq_nil_iff.mp empty survives.of_append
      obtain ⟨ended, length_eq⟩ := ih next (position + 1) survives dies
      rw [List.cons_append, simulateFrom_of_alive alive, List.length_cons]
      refine ⟨?_, ?_⟩
      · rw [ended]
        simp only [Option.some.injEq, Prod.mk.injEq, true_and]
        omega
      · simpa [Simulation.lists] using length_eq

end PatternMachine.Program
