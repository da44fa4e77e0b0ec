import PatternMachine.Program.Run

/-!
# Walks through code

A walk is a run that counts its steps, so that a walk behind a loop is shorter than the whole. A
program carries code at an offset if its instructions from there on are those of the code.
`Walk.next` says where a walk may go from an instruction, and `carries_append` that code is
carried in parts.
-/

namespace PatternMachine.Program

/-- A run with the number of its steps. -/
inductive Walk (p : Program) : Nat → Int → Text → Int → Prop where
  | stay (pointer : Int) : Walk p 0 pointer [] pointer
  | turn {count : Nat} {pointer target last : Int} {instruction : Instruction} {text : Text}
      (found : p.lookup? pointer = some instruction)
      (offered : target ∈ instruction.targets)
      (rest : Walk p count target text last) :
      Walk p (count + 1) pointer text last
  | pass {count : Nat} {pointer last : Int} {instruction : Instruction} {c : Char} {text : Text}
      (found : p.lookup? pointer = some instruction)
      (passes : instruction.passes c = true)
      (rest : Walk p count (pointer + 1) text last) :
      Walk p (count + 1) pointer (c :: text) last

variable {p : Program} {first last offset : Int} {text : Text}

theorem Run.jump
    {target : Int} (found : p.lookup? first = some (.jump target))
    (rest : Run p target text last) :
    Run p first text last :=
  .turn found List.mem_cons_self rest

theorem Run.splitLeft
    {left right : Int} (found : p.lookup? first = some (.split left right))
    (rest : Run p left text last) :
    Run p first text last :=
  .turn found List.mem_cons_self rest

theorem Run.splitRight
    {left right : Int} (found : p.lookup? first = some (.split left right))
    (rest : Run p right text last) :
    Run p first text last :=
  .turn found (List.mem_cons_of_mem _ List.mem_cons_self) rest

theorem Run.exists_walk (run : Run p first text last) : ∃ count, Walk p count first text last := by
  induction run with
  | stay pointer => exact ⟨0, .stay pointer⟩
  | turn found offered _ ih =>
      obtain ⟨count, walk⟩ := ih
      exact ⟨count + 1, .turn found offered walk⟩
  | pass found passes _ ih =>
      obtain ⟨count, walk⟩ := ih
      exact ⟨count + 1, .pass found passes walk⟩

theorem Walk.run {count : Nat} (walk : Walk p count first text last) : Run p first text last := by
  induction walk with
  | stay pointer => exact .stay pointer
  | turn found offered _ ih => exact .turn found offered ih
  | pass found passes _ ih => exact .pass found passes ih

/-- A walk that goes on from an instruction takes one of its targets or passes over a character. -/
theorem Walk.next
    {count : Nat} {instruction : Instruction}
    (walk : Walk p count first text last)
    (found : p.lookup? first = some instruction) (moves : last ≠ first) :
    ∃ fewer, count = fewer + 1 ∧
      ((∃ target ∈ instruction.targets, Walk p fewer target text last) ∨
        ∃ c rest, text = c :: rest ∧ instruction.passes c = true ∧
          Walk p fewer (first + 1) rest last) := by
  cases walk with
  | stay pointer => exact absurd rfl moves
  | turn found' offered rest =>
      cases found.symm.trans found'
      exact ⟨_, rfl, .inl ⟨_, offered, rest⟩⟩
  | pass found' passes rest =>
      cases found.symm.trans found'
      exact ⟨_, rfl, .inr ⟨_, _, rfl, passes, rest⟩⟩

theorem Walk.next_jump
    {count : Nat} {target : Int}
    (walk : Walk p count first text last)
    (found : p.lookup? first = some (.jump target)) (moves : last ≠ first) :
    ∃ fewer < count, Walk p fewer target text last := by
  obtain ⟨fewer, rfl, ⟨_, offered, rest⟩ | ⟨_, _, _, passes, _⟩⟩ := walk.next found moves
  · obtain rfl := List.mem_singleton.mp offered
    exact ⟨fewer, Nat.lt_succ_self fewer, rest⟩
  · cases passes

theorem Walk.next_split
    {count : Nat} {left right : Int}
    (walk : Walk p count first text last)
    (found : p.lookup? first = some (.split left right)) (moves : last ≠ first) :
    ∃ fewer < count, Walk p fewer left text last ∨ Walk p fewer right text last := by
  obtain ⟨fewer, rfl, ⟨_, offered, rest⟩ | ⟨_, _, _, passes, _⟩⟩ := walk.next found moves
  · refine ⟨fewer, Nat.lt_succ_self fewer, ?_⟩
    simp only [Instruction.targets, List.mem_cons, List.not_mem_nil, or_false] at offered
    rcases offered with rfl | rfl
    · exact .inl rest
    · exact .inr rest
  · cases passes

/-- Whether the instructions of a program from an offset on are the given ones. -/
def Carries (p : Program) (offset : Int) : List Instruction → Prop
  | [] => True
  | instruction :: rest => p.lookup? offset = some instruction ∧ p.Carries (offset + 1) rest

theorem carries_append {left right : List Instruction} :
    p.Carries offset (left ++ right) ↔
      p.Carries offset left ∧ p.Carries (offset + left.length) right := by
  induction left generalizing offset with
  | nil => simp [Carries]
  | cons instruction left ih =>
      have place : offset + 1 + left.length = offset + (instruction :: left).length := by
        simp only [List.length_cons]
        omega
      simp only [List.cons_append, Carries, ih, place, and_assoc]

theorem carries_code (p : Program) : p.Carries 0 p.code := by
  have behind : ∀ after before, p.code = before ++ after → p.Carries before.length after := by
    intro after
    induction after with
    | nil => exact fun _ _ => trivial
    | cons instruction after ih =>
        intro before cut
        constructor
        · rw [lookup?_eq, Index.lookup?_ofNat, cut]
          simp
        · simpa using ih (before ++ [instruction]) (by simpa using cut)
  exact behind p.code [] rfl

end PatternMachine.Program
