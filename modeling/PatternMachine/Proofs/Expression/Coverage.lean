import PatternMachine.Matching
import PatternMachine.Proofs.Expression.Continuation
import PatternMachine.Proofs.Outcome

/-!
# Coverage of compiled code

No instruction of a compiled expression is there in vain. A run from the start of the code of an
expression reaches each place in it and the place behind it (`reaches_code`): the jump behind a
branch and the end of a loop through a completed body, the other branches past those in front of
them. As no place is a dead end either, an accepting run passes through each of them, and a
simulation of the text of this run visits it.
-/

namespace PatternMachine

namespace Tree

open Program (Run)

variable {p : Program} {offset place : Int}

/--
Whether some text takes a run from the start of the code of an expression, wherever that stands, to
each place in it and to the place behind it.
-/
def Reaches (p : Program) (tree : Expression) : Prop :=
  ∀ offset place, p.Carries offset (code offset tree) → offset ≤ place →
    place ≤ offset + size tree → ∃ text, Run p offset text place

theorem reaches_codeOfItems
    {items : List Expression} (each : ∀ item ∈ items, Reaches p item)
    (carried : p.Carries offset (codeOfItems offset items)) (le_place : offset ≤ place)
    (place_le : place ≤ offset + totalSize items) :
    ∃ text, Run p offset text place := by
  induction items generalizing offset with
  | nil =>
      obtain rfl : place = offset := by
        simp only [totalSize_nil] at place_le
        omega
      exact ⟨[], .stay place⟩
  | cons item items ih =>
      rw [carries_codeOfItems_cons] at carried
      rw [totalSize_cons] at place_le
      have first := each item (by simp) offset
      by_cases in_item : place ≤ offset + size item
      · exact first place carried.1 le_place in_item
      · obtain ⟨before, run⟩ := first (offset + size item) carried.1 (by omega) (Int.le_refl _)
        obtain ⟨after, run'⟩ :=
          ih (fun other member => each other (by simp [member])) carried.2 (by omega) (by omega)
        exact ⟨before ++ after, run.trans run'⟩

theorem reaches_codeOfBranches
    {branches : List Expression} (each : ∀ branch ∈ branches, Reaches p branch) {join : Int}
    (behind : join = offset + (totalSize branches + 2 * (branches.length - 1) : Nat))
    (carried : p.Carries offset (codeOfBranches join offset branches)) (le_place : offset ≤ place)
    (place_le : place ≤ join) :
    ∃ text, Run p offset text place := by
  induction branches generalizing offset with
  | nil =>
      obtain rfl : place = offset := by
        simp only [totalSize_nil, List.length_nil] at behind
        omega
      exact ⟨[], .stay place⟩
  | cons branch branches ih =>
      have first := each branch (by simp)
      cases branches with
      | nil =>
          obtain rfl : join = offset + size branch := by simpa using behind
          exact first offset place carried le_place place_le
      | cons next branches =>
          obtain ⟨split, inside, _, others⟩ := carries_codeOfBranches_cons.mp carried
          by_cases at_split : place = offset
          · exact ⟨[], at_split ▸ .stay place⟩
          · by_cases in_branch : place ≤ offset + 1 + size branch
            · obtain ⟨text, run⟩ := first (offset + 1) place inside (by omega) in_branch
              exact ⟨text, .splitLeft split run⟩
            · obtain ⟨text, run⟩ := ih (fun other member => each other (by simp [member]))
                (join_of_cons behind) others (by omega)
              exact ⟨text, .splitRight split run⟩

theorem reaches_optional {body : Expression} (inner : Reaches p body) :
    Reaches p (.quantified .optional body) := by
  intro offset place carried le_place place_le
  obtain ⟨split, inside⟩ := carries_optional.mp carried
  rw [add_size_optional] at place_le
  by_cases at_split : place = offset
  · exact ⟨[], at_split ▸ .stay place⟩
  · obtain ⟨text, run⟩ := inner (offset + 1) place inside (by omega) place_le
    exact ⟨text, .splitLeft split run⟩

theorem reaches_oneOrMore {body : Expression} (inner : Reaches p body) :
    Reaches p (.quantified .oneOrMore body) := by
  intro offset place carried le_place place_le
  obtain ⟨inside, split⟩ := carries_oneOrMore.mp carried
  rw [add_size_oneOrMore] at place_le
  by_cases in_body : place ≤ offset + size body
  · exact inner offset place inside le_place in_body
  · obtain rfl : place = offset + size body + 1 := by omega
    obtain ⟨text, run⟩ := inner offset _ inside (by omega) (Int.le_refl _)
    exact ⟨text ++ [], run.trans (.splitRight split (.stay _))⟩

theorem reaches_zeroOrMore {body : Expression} (inner : Reaches p body) :
    Reaches p (.quantified .zeroOrMore body) := by
  intro offset place carried le_place place_le
  obtain ⟨split, inside, _⟩ := carries_zeroOrMore.mp carried
  rw [add_size_zeroOrMore] at place_le
  by_cases at_split : place = offset
  · exact ⟨[], at_split ▸ .stay place⟩
  · by_cases in_body : place ≤ offset + 1 + size body
    · obtain ⟨text, run⟩ := inner (offset + 1) place inside (by omega) in_body
      exact ⟨text, .splitLeft split run⟩
    · obtain rfl : place = offset + size body + 2 := by omega
      exact ⟨[], .splitRight split (.stay _)⟩

/-- From the start of the code of an expression a run leads to each place in it and behind it. -/
theorem reaches_code (p : Program) (tree : Expression) : Reaches p tree := by
  induction tree using Tree.induction with
  | gap g => nomatch g
  | literal c =>
      rintro offset place ⟨found, _⟩ le_place place_le
      by_cases before : place = offset
      · exact ⟨[], before ▸ .stay place⟩
      · obtain rfl : place = offset + 1 := by
          simp only [size] at place_le
          omega
        exact ⟨[c], .pass found (by simp [Instruction.passes]) (.stay _)⟩
  | sequence items ih =>
      intro offset place carried le_place place_le
      exact reaches_codeOfItems ih carried le_place place_le
  | alternation branches ih =>
      intro offset place carried le_place place_le
      exact reaches_codeOfBranches ih (by simp [size]) carried le_place place_le
  | quantified q body ih =>
      cases q with
      | optional => exact reaches_optional ih
      | oneOrMore => exact reaches_oneOrMore ih
      | zeroOrMore => exact reaches_zeroOrMore ih

theorem exists_run_from_start
    {tree : Expression} (inside : Instruction.InRange tree.program.size place) :
    ∃ text, Run tree.program 0 text place := by
  obtain ⟨nonneg, place_lt⟩ := inside
  rw [size_program] at place_lt
  exact reaches_code tree.program tree 0 place (carries_program tree).1 nonneg (by omega)

/-- Through each place of the program of an expression a run goes from the start to acceptance. -/
theorem exists_accepting_run
    {tree : Expression} (inside : Instruction.InRange tree.program.size place) :
    ∃ before after last, Run tree.program 0 before place ∧ Run tree.program place after last ∧
      tree.program.lookup? last = some .accept := by
  obtain ⟨before, run⟩ := exists_run_from_start inside
  obtain ⟨after, last, rest, accepting⟩ := exists_run_to_accept inside
  exact ⟨before, after, last, run, rest, accepting⟩

theorem exists_accepts_program (tree : Expression) : ∃ text, tree.program.accepts text = true := by
  obtain ⟨text, last, run, accepting⟩ := exists_run_to_accept tree.program.inRange_start
  exact ⟨text, Program.accepts_iff_admits.mpr ⟨last, run, accepting⟩⟩

end Tree

/-- Where a run passes to a place of a program, the simulation of its text visits this place. -/
theorem Program.exists_visited_of_run
    {p : Program} {before after : Text} {place last : Int}
    (run : Run p 0 before place) (rest : Run p place after last) :
    ∃ list ∈ (p.simulate (before ++ after)).lists, place ∈ list.visited := by
  have complete : before.length < (p.simulate (before ++ after)).lists.length := by
    refine Nat.lt_of_not_le fun short => not_run_of_short ?_ last (run.trans rest)
    rw [List.length_append]
    omega
  have reached := List.getElem?_eq_getElem complete
  have visits := visits_lists reached
  rw [List.take_left' rfl] at visits
  exact ⟨_, List.mem_of_getElem? reached, (visits place).mpr run⟩

/--
An accepting run passes through each place of the program of an expression, so that the program
accepts some text whose simulation visits this place. In particular an expression that is read from
a pattern matches some text.
-/
theorem each_place_on_accepting_run (tree : Expression) :
    (∀ place, Instruction.InRange tree.program.size place →
      ∃ before after last, Program.Run tree.program 0 before place ∧
        Program.Run tree.program place after last ∧ tree.program.lookup? last = some .accept ∧
        tree.program.accepts (before ++ after) = true ∧
        ∃ list ∈ (tree.program.simulate (before ++ after)).lists, place ∈ list.visited) ∧
      ∀ pattern, (readPattern pattern).outcome = .ok tree →
        ∃ text, (matchPattern pattern text).outcome = .ok true := by
  constructor
  · intro place inside
    obtain ⟨before, after, last, run, rest, accepting⟩ := Tree.exists_accepting_run inside
    exact ⟨before, after, last, run, rest, accepting,
      Program.accepts_iff_admits.mpr ⟨last, run.trans rest, accepting⟩,
      Program.exists_visited_of_run run rest⟩
  · intro pattern read
    obtain ⟨text, accepted⟩ := tree.exists_accepts_program
    refine ⟨text, ?_⟩
    rw [matchPattern, compilePattern, Traced.outcome_bind, Traced.outcome_bind, read,
      Outcome.ok_bind, outcome_compile, Outcome.ok_bind, outcome_run, accepted]

/-- The jump behind the first of two branches, which is reached through a repetition. -/
theorem jump_behind_branch_on_accepting_run :
    ∃ tree : Expression,
      tree.program.code = [.split 1 5, .split 2 4, .consume ['a'], .jump 1, .jump 6,
        .consume ['b'], .accept] ∧
      Instruction.InRange tree.program.size 4 ∧
      (readPattern ['a', '*', '|', 'b']).outcome = .ok tree ∧
      (∃ text, tree.program.accepts text = true ∧
        ∃ list ∈ (tree.program.simulate text).lists, 4 ∈ list.visited) ∧
      ∃ text, (matchPattern ['a', '*', '|', 'b'] text).outcome = .ok true := by
  let tree : Expression := .alternation [.quantified .zeroOrMore (.literal 'a'), .literal 'b']
  have inside : Instruction.InRange tree.program.size 4 := by decide
  have read : (readPattern ['a', '*', '|', 'b']).outcome = .ok tree := by
    rw [readPattern, Dialect.read_eq]
    rfl
  obtain ⟨used, matched⟩ := each_place_on_accepting_run tree
  obtain ⟨before, after, last, _, _, _, accepted, visited⟩ := used 4 inside
  exact ⟨tree, rfl, inside, read, ⟨before ++ after, accepted, visited⟩, matched _ read⟩

end PatternMachine
