import PatternMachine.Proofs.Expression.Execution
import PatternMachine.Proofs.Program.Reachability
import PatternMachine.Proofs.Program.Survival

/-!
# Continuations

No place in the code of an expression is a dead end: some text takes a run from there to the place
behind the code (`continues_code`), out of each branch and each turn of a loop. As a run through a
program stays in it, whatever a run has read can be completed to a text that the expression
denotes (`survives_program_iff`).
-/

namespace PatternMachine.Tree

open Program (Run)

variable {p : Program} {offset place : Int}

/--
Whether some text takes a run from each place in the code of an expression, wherever that stands,
to the place behind it.
-/
def Continues (p : Program) (tree : Expression) : Prop :=
  ∀ offset place, p.Carries offset (code offset tree) → offset ≤ place →
    place ≤ offset + size tree → ∃ text, Run p place text (offset + size tree)

theorem continues_codeOfItems
    {items : List Expression} (each : ∀ item ∈ items, Continues p item)
    (carried : p.Carries offset (codeOfItems offset items)) (le_place : offset ≤ place)
    (place_le : place ≤ offset + totalSize items) :
    ∃ text, Run p place text (offset + totalSize items) := by
  induction items generalizing offset place with
  | nil =>
      obtain rfl : place = offset := by
        simp only [totalSize_nil] at place_le
        omega
      exact ⟨[], by simpa using Run.stay place⟩
  | cons item items ih =>
      rw [carries_codeOfItems_cons] at carried
      rw [totalSize_cons, Int.natCast_add, ← Int.add_assoc] at place_le ⊢
      have others : ∀ place, offset + size item ≤ place →
          place ≤ offset + size item + totalSize items →
          ∃ text, Run p place text (offset + size item + totalSize items) :=
        fun place => ih (fun other member => each other (by simp [member])) carried.2
      by_cases in_item : place ≤ offset + size item
      · obtain ⟨first, run⟩ := each item (by simp) offset place carried.1 le_place in_item
        obtain ⟨rest, run'⟩ := others _ (Int.le_refl _) (by omega)
        exact ⟨first ++ rest, run.trans run'⟩
      · exact others place (by omega) place_le

theorem continues_codeOfBranches
    {branches : List Expression} (each : ∀ branch ∈ branches, Continues p branch) {join : Int}
    (behind : join = offset + (totalSize branches + 2 * (branches.length - 1) : Nat))
    (carried : p.Carries offset (codeOfBranches join offset branches)) (le_place : offset ≤ place)
    (place_le : place ≤ join) :
    ∃ text, Run p place text join := by
  induction branches generalizing offset place with
  | nil =>
      obtain rfl : place = join := by
        simp only [totalSize_nil, List.length_nil] at behind
        omega
      exact ⟨[], .stay place⟩
  | cons branch branches ih =>
      have first := each branch (by simp)
      cases branches with
      | nil =>
          obtain rfl : join = offset + size branch := by simpa using behind
          exact first offset place carried le_place place_le
      | cons next branches =>
          obtain ⟨split, inside, jump, others⟩ := carries_codeOfBranches_cons.mp carried
          -- From a place in the first branch a run ends at the jump behind this branch.
          have out : ∀ place, offset + 1 ≤ place → place ≤ offset + 1 + size branch →
              ∃ text, Run p place text join := by
            intro place le_place place_le
            obtain ⟨text, run⟩ := first (offset + 1) place inside le_place place_le
            exact ⟨_, run.trans (.jump jump (.stay join))⟩
          by_cases at_split : place = offset
          · obtain ⟨text, run⟩ := out (offset + 1) (Int.le_refl _) (by omega)
            exact ⟨text, at_split ▸ .splitLeft split run⟩
          · by_cases in_branch : place ≤ offset + 1 + size branch
            · exact out place (by omega) in_branch
            · exact ih (fun other member => each other (by simp [member])) (join_of_cons behind)
                others (by omega) place_le

theorem continues_optional {body : Expression} (inner : Continues p body) :
    Continues p (.quantified .optional body) := by
  intro offset place carried le_place place_le
  obtain ⟨split, inside⟩ := carries_optional.mp carried
  rw [add_size_optional] at place_le ⊢
  by_cases at_split : place = offset
  · subst at_split
    exact ⟨[], .splitRight split (.stay _)⟩
  · exact inner (offset + 1) place inside (by omega) place_le

theorem continues_oneOrMore {body : Expression} (inner : Continues p body) :
    Continues p (.quantified .oneOrMore body) := by
  intro offset place carried le_place place_le
  obtain ⟨inside, split⟩ := carries_oneOrMore.mp carried
  rw [add_size_oneOrMore] at place_le ⊢
  by_cases in_body : place ≤ offset + size body
  · obtain ⟨text, run⟩ := inner offset place inside le_place in_body
    exact ⟨_, run.trans (.splitRight split (.stay _))⟩
  · obtain rfl : place = offset + size body + 1 := by omega
    exact ⟨[], .stay _⟩

theorem continues_zeroOrMore {body : Expression} (inner : Continues p body) :
    Continues p (.quantified .zeroOrMore body) := by
  intro offset place carried le_place place_le
  obtain ⟨split, inside, jump⟩ := carries_zeroOrMore.mp carried
  rw [add_size_zeroOrMore] at place_le ⊢
  have leave : Run p offset [] (offset + size body + 2) := .splitRight split (.stay _)
  by_cases at_split : place = offset
  · exact ⟨[], at_split ▸ leave⟩
  · by_cases in_body : place ≤ offset + 1 + size body
    · obtain ⟨text, run⟩ := inner (offset + 1) place inside (by omega) in_body
      exact ⟨_, run.trans (.jump jump leave)⟩
    · obtain rfl : place = offset + size body + 2 := by omega
      exact ⟨[], .stay _⟩

/-- No place in the code of an expression is a dead end. -/
theorem continues_code (p : Program) (tree : Expression) : Continues p tree := by
  induction tree using Tree.induction with
  | gap g => nomatch g
  | literal c =>
      rintro offset place ⟨found, _⟩ le_place place_le
      by_cases before : place = offset
      · subst before
        exact ⟨[c], .pass found (by simp [Instruction.passes]) (.stay _)⟩
      · obtain rfl : place = offset + 1 := by
          simp only [size] at place_le
          omega
        exact ⟨[], .stay _⟩
  | sequence items ih =>
      intro offset place carried le_place place_le
      exact continues_codeOfItems ih carried le_place place_le
  | alternation branches ih =>
      intro offset place carried le_place place_le
      exact continues_codeOfBranches ih (by simp [size]) carried le_place place_le
  | quantified q body ih =>
      cases q with
      | optional => exact continues_optional ih
      | oneOrMore => exact continues_oneOrMore ih
      | zeroOrMore => exact continues_zeroOrMore ih

/-! ## Completion of texts -/

/-- Whether some text that an expression denotes starts with the given one. -/
def Completable (tree : Expression) (text : Text) : Prop :=
  ∃ rest, Denotes tree (text ++ rest)

theorem exists_run_to_accept
    {tree : Expression} (inside : Instruction.InRange tree.program.size place) :
    ∃ text last, Run tree.program place text last ∧
      tree.program.lookup? last = some .accept := by
  obtain ⟨carried, accepting⟩ := carries_program tree
  obtain ⟨le_place, place_lt⟩ := inside
  rw [size_program] at place_lt
  obtain ⟨text, run⟩ :=
    continues_code tree.program tree 0 place carried le_place (by omega)
  exact ⟨text, _, run, accepting⟩

/-- The program of an expression survives what can be completed to a text that is denoted. -/
theorem survives_program_iff {tree : Expression} (canonical : tree.Canonical) {text : Text} :
    tree.program.Survives text ↔ Completable tree text := by
  constructor
  · rintro ⟨place, run, _⟩
    obtain ⟨rest, last, run', accepting⟩ :=
      exists_run_to_accept (run.inRange tree.program.inRange_start)
    exact ⟨rest, (admits_program_iff canonical).mp ⟨last, run.trans run', accepting⟩⟩
  · rintro ⟨rest, denoted⟩
    exact ((admits_program_iff canonical).mpr denoted).survives.of_append

end PatternMachine.Tree
