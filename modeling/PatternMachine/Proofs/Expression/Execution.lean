import PatternMachine.Expression.Denotation
import PatternMachine.Proofs.Expression.Layout

/-!
# Execution of code

What a program does in the code of an expression, wherever the code stands. A text that the
expression denotes takes a run from the start of the code to the place behind it (`run_code`).
Conversely a walk that starts there and ends outside of the code has to pass the place behind it,
and what it has read by then is denoted (`leaves_code`). For loops the first is an induction on
the parts of the text and the second an induction on the steps of the walk.
-/

namespace PatternMachine.Tree

open Program (Run Walk)

variable {p : Program} {offset : Int}

/-! ## Denoted texts take runs -/

/-- Whether what an expression denotes takes a run through its code, wherever that stands. -/
def RunsThrough (p : Program) (tree : Expression) : Prop :=
  ∀ offset text, p.Carries offset (code offset tree) → Denotes tree text →
    Run p offset text (offset + size tree)

theorem run_codeOfItems
    {items : List Expression} (each : ∀ item ∈ items, RunsThrough p item)
    {text : Text} (carried : p.Carries offset (codeOfItems offset items))
    (denoted : DenotesInTurn items text) :
    Run p offset text (offset + totalSize items) := by
  induction items generalizing offset text with
  | nil =>
      cases denoted
      simpa using Run.stay offset
  | cons item items ih =>
      obtain ⟨first, rest, rfl, head, tail⟩ := denoted
      rw [carries_codeOfItems_cons] at carried
      have start := each item (by simp) offset first carried.1 head
      have others := ih (fun other member => each other (by simp [member])) carried.2 tail
      rw [Int.add_assoc] at others
      simpa using start.trans others

theorem run_codeOfBranches
    {branches : List Expression} (each : ∀ branch ∈ branches, RunsThrough p branch)
    {join : Int} {text : Text}
    (behind : join = offset + (totalSize branches + 2 * (branches.length - 1) : Nat))
    (carried : p.Carries offset (codeOfBranches join offset branches))
    (denoted : DenotesSome branches text) :
    Run p offset text join := by
  induction branches generalizing offset with
  | nil => cases denoted
  | cons branch branches ih =>
      have first := each branch (by simp)
      cases branches with
      | nil =>
          rw [denotesSome_iff] at denoted
          have run := first offset text carried (by simpa using denoted)
          simpa [behind] using run
      | cons next branches =>
          obtain ⟨split, inside, jump, others⟩ := carries_codeOfBranches_cons.mp carried
          rcases denoted with here | later
          · have run := (first (offset + 1) text inside here).trans (.jump jump (.stay join))
            rw [List.append_nil] at run
            exact .splitLeft split run
          · exact .splitRight split (ih (fun other member => each other (by simp [member]))
              (join_of_cons behind) others later)

/-- A loop that each part takes back to its start takes the parts one after the other. -/
theorem run_iterated
    {part : Text → Prop} {start : Int} (once : ∀ text, part text → Run p start text start)
    {text : Text} (iterated : Iterated part text) :
    Run p start text start := by
  induction iterated with
  | nil => exact .stay start
  | append head _ ih => exact (once _ head).trans ih

/-- What an expression denotes takes a run through its code. -/
theorem run_code (p : Program) (tree : Expression) : RunsThrough p tree := by
  induction tree using Tree.induction with
  | gap g => nomatch g
  | literal c =>
      rintro offset _ ⟨found, _⟩ rfl
      exact .pass found (by simp [Instruction.passes]) (.stay _)
  | sequence items ih =>
      intro offset text carried denoted
      simpa [size] using run_codeOfItems ih carried denoted
  | alternation branches ih =>
      intro offset text carried denoted
      exact run_codeOfBranches ih (by simp [size]) carried denoted
  | quantified q body ih =>
      intro offset text carried denoted
      cases q with
      | optional =>
          obtain ⟨split, inside⟩ := carries_optional.mp carried
          rw [add_size_optional]
          rcases denoted with rfl | denoted
          · exact .splitRight split (.stay _)
          · exact .splitLeft split (ih (offset + 1) text inside denoted)
      | oneOrMore =>
          obtain ⟨first, rest, rfl, head, tail⟩ := denoted
          obtain ⟨inside, split⟩ := carries_oneOrMore.mp carried
          rw [add_size_oneOrMore]
          -- After the first part the loop turns at the split behind the body.
          have again : Run p (offset + size body) rest (offset + size body) :=
            run_iterated (fun part denoted => .splitLeft split (ih offset part inside denoted)) tail
          have leave : Run p (offset + size body) [] (offset + size body + 1) :=
            .splitRight split (.stay _)
          simpa using ((ih offset first inside head).trans again).trans leave
      | zeroOrMore =>
          obtain ⟨split, inside, jump⟩ := carries_zeroOrMore.mp carried
          rw [add_size_zeroOrMore]
          have once : ∀ part, Denotes body part → Run p offset part offset := by
            intro part denoted
            have round := (ih (offset + 1) part inside denoted).trans (.jump jump (.stay offset))
            rw [List.append_nil] at round
            exact .splitLeft split round
          have leave : Run p offset [] (offset + size body + 2) := .splitRight split (.stay _)
          simpa using (run_iterated once denoted).trans leave

/-! ## Walks read denoted texts -/

/--
Whether a walk from the start of the code of an expression, wherever that stands, to a place
outside of it passes the place behind the code, having read a text that the expression denotes.
-/
def LeavesBehind (p : Program) (tree : Expression) : Prop :=
  ∀ offset count text last, p.Carries offset (code offset tree) →
    last < offset ∨ offset + size tree ≤ last → Walk p count offset text last →
    ∃ fewer ≤ count, ∃ first rest, text = first ++ rest ∧ Denotes tree first ∧
      Walk p fewer (offset + size tree) rest last

theorem leaves_codeOfItems
    {items : List Expression} (each : ∀ item ∈ items, LeavesBehind p item)
    {count : Nat} {text : Text} {last : Int}
    (carried : p.Carries offset (codeOfItems offset items))
    (outside : last < offset ∨ offset + totalSize items ≤ last)
    (walk : Walk p count offset text last) :
    ∃ fewer ≤ count, ∃ first rest, text = first ++ rest ∧ DenotesInTurn items first ∧
      Walk p fewer (offset + totalSize items) rest last := by
  induction items generalizing offset count text with
  | nil => exact ⟨count, Nat.le_refl count, [], text, rfl, rfl, by simpa using walk⟩
  | cons item items ih =>
      rw [carries_codeOfItems_cons] at carried
      simp only [totalSize_cons] at outside ⊢
      obtain ⟨middle, middle_le, first, rest, rfl, head, walk⟩ :=
        each item (by simp) offset count text last carried.1 (by omega) walk
      obtain ⟨fewer, fewer_le, second, rest, rfl, tail, walk⟩ :=
        ih (fun other member => each other (by simp [member])) carried.2 (by omega) walk
      refine ⟨fewer, Nat.le_trans fewer_le middle_le, first ++ second, rest, by simp,
        ⟨first, second, rfl, head, tail⟩, ?_⟩
      simpa [Int.add_assoc] using walk

theorem leaves_codeOfBranches
    {branches : List Expression} (each : ∀ branch ∈ branches, LeavesBehind p branch)
    (nonempty : branches ≠ [])
    {count : Nat} {text : Text} {join last : Int}
    (behind : join = offset + (totalSize branches + 2 * (branches.length - 1) : Nat))
    (carried : p.Carries offset (codeOfBranches join offset branches))
    (outside : last < offset ∨ join ≤ last)
    (walk : Walk p count offset text last) :
    ∃ fewer ≤ count, ∃ first rest, text = first ++ rest ∧ DenotesSome branches first ∧
      Walk p fewer join rest last := by
  induction branches generalizing offset count text with
  | nil => exact absurd rfl nonempty
  | cons branch branches ih =>
      have first_branch := each branch (by simp)
      cases branches with
      | nil =>
          have place : join = offset + size branch := by simp [behind]
          obtain ⟨fewer, fewer_le, first, rest, cut, denoted, walk⟩ :=
            first_branch offset count text last carried (by omega) walk
          exact ⟨fewer, fewer_le, first, rest, cut, .inl denoted, place ▸ walk⟩
      | cons next branches =>
          obtain ⟨split, inside, jump, others⟩ := carries_codeOfBranches_cons.mp carried
          have behind_others := join_of_cons behind
          obtain ⟨middle, middle_lt, walk | walk⟩ := walk.next_split split (by omega)
          · obtain ⟨before, before_le, first, rest, cut, denoted, walk⟩ :=
              first_branch (offset + 1) middle text last inside (by omega) walk
            obtain ⟨fewer, fewer_lt, walk⟩ := walk.next_jump jump (by omega)
            exact ⟨fewer, by omega, first, rest, cut, .inl denoted, walk⟩
          · obtain ⟨fewer, fewer_le, first, rest, cut, denoted, walk⟩ :=
              ih (fun other member => each other (by simp [member])) (by simp) behind_others
                others (by omega) walk
            exact ⟨fewer, by omega, first, rest, cut, .inr denoted, walk⟩

theorem leavesBehind_optional {body : Expression} (inner : LeavesBehind p body) :
    LeavesBehind p (.quantified .optional body) := by
  intro offset count text last carried outside walk
  obtain ⟨split, inside⟩ := carries_optional.mp carried
  rw [add_size_optional] at outside ⊢
  obtain ⟨middle, middle_lt, walk | walk⟩ := walk.next_split split (by omega)
  · obtain ⟨fewer, fewer_le, first, rest, cut, denoted, walk⟩ :=
      inner (offset + 1) middle text last inside (by omega) walk
    exact ⟨fewer, by omega, first, rest, cut, .inr denoted, walk⟩
  · exact ⟨middle, by omega, [], text, rfl, .inl rfl, walk⟩

theorem leavesBehind_oneOrMore {body : Expression} (inner : LeavesBehind p body) :
    LeavesBehind p (.quantified .oneOrMore body) := by
  intro offset count text last carried outside walk
  obtain ⟨inside, split⟩ := carries_oneOrMore.mp carried
  rw [add_size_oneOrMore] at outside ⊢
  -- The walk behind each turn at the split is shorter than the walk before it.
  induction count using Nat.strongRecOn generalizing text with
  | ind count ih =>
      obtain ⟨middle, middle_le, first, rest, rfl, head, walk⟩ :=
        inner offset count text last inside (by omega) walk
      obtain ⟨turned, turned_lt, walk | walk⟩ := walk.next_split split (by omega)
      · obtain ⟨fewer, fewer_le, again, rest, rfl, denoted, behind⟩ :=
          ih turned (by omega) rest walk
        obtain ⟨second, others, rfl, next, iterated⟩ := denoted
        exact ⟨fewer, by omega, first ++ (second ++ others), rest, by simp,
          ⟨first, second ++ others, rfl, head, .append next iterated⟩, behind⟩
      · exact ⟨turned, by omega, first, rest, rfl, ⟨first, [], by simp, head, .nil⟩, walk⟩

theorem leavesBehind_zeroOrMore {body : Expression} (inner : LeavesBehind p body) :
    LeavesBehind p (.quantified .zeroOrMore body) := by
  intro offset count text last carried outside walk
  obtain ⟨split, inside, jump⟩ := carries_zeroOrMore.mp carried
  rw [add_size_zeroOrMore] at outside ⊢
  induction count using Nat.strongRecOn generalizing text with
  | ind count ih =>
      obtain ⟨turned, turned_lt, walk | walk⟩ := walk.next_split split (by omega)
      · obtain ⟨middle, middle_le, first, rest, rfl, head, walk⟩ :=
          inner (offset + 1) turned text last inside (by omega) walk
        obtain ⟨back, back_lt, walk⟩ := walk.next_jump jump (by omega)
        obtain ⟨fewer, fewer_le, others, rest, rfl, iterated, walk⟩ := ih back (by omega) rest walk
        exact ⟨fewer, by omega, first ++ others, rest, by simp, .append head iterated, walk⟩
      · exact ⟨turned, by omega, [], text, rfl, .nil, walk⟩

/-- A walk through the code of a canonical expression reads what the expression denotes. -/
theorem leaves_code {tree : Expression} (canonical : tree.Canonical) : LeavesBehind p tree := by
  induction canonical with
  | gap g => nomatch g
  | literal c =>
      rintro offset count text last ⟨found, _⟩ outside walk
      have moves : last ≠ offset := by
        simp only [size] at outside
        omega
      obtain ⟨fewer, rfl, ⟨_, offered, _⟩ | ⟨d, rest, rfl, passes, passed⟩⟩ :=
        walk.next found moves
      · cases offered
      · obtain rfl : c = d := by simpa [Instruction.passes] using passes
        exact ⟨fewer, by omega, [c], rest, rfl, rfl, passed⟩
  | sequence _ _ _ ih =>
      intro offset count text last carried outside walk
      simpa [size, Denotes] using leaves_codeOfItems ih carried (by simpa [size] using outside) walk
  | @alternation branches several _ ih =>
      intro offset count text last carried outside walk
      exact leaves_codeOfBranches ih (by rintro rfl; simp at several) (by simp [size]) carried
        outside walk
  | quantified q _ ih =>
      cases q with
      | optional => exact leavesBehind_optional ih
      | oneOrMore => exact leavesBehind_oneOrMore ih
      | zeroOrMore => exact leavesBehind_zeroOrMore ih

/-! ## Programs of expressions -/

theorem code_program (tree : Expression) : tree.program.code = code 0 tree ++ [.accept] := by
  simp [program, Program.code]

theorem carries_program (tree : Expression) :
    tree.program.Carries 0 (code 0 tree) ∧
      tree.program.lookup? (0 + size tree) = some .accept := by
  have carried := tree.program.carries_code
  rw [code_program, Program.carries_append, length_code, Program.Carries] at carried
  exact ⟨carried.1, carried.2.1⟩

theorem outside_of_accept
    {tree : Expression} {last : Int} (accept : tree.program.lookup? last = some .accept) :
    last < 0 ∨ 0 + size tree ≤ last := by
  rcases last with place | negative
  · refine .inr (Int.not_lt.mp fun inside => ?_)
    have short : place < (code 0 tree).length := by
      rw [length_code]
      simpa using inside
    rw [Program.lookup?_eq, code_program, Int.ofNat_eq_natCast, Index.lookup?_ofNat,
      List.getElem?_append_left short] at accept
    exact (staysWithin_code 0 tree _ (List.mem_of_getElem? accept)).1 rfl
  · exact .inl (Int.negSucc_lt_zero negative)

/-- The program of a canonical expression admits the texts that the expression denotes. -/
theorem admits_program_iff {tree : Expression} (canonical : tree.Canonical) {text : Text} :
    tree.program.Admits text ↔ Denotes tree text := by
  obtain ⟨inside, accepting⟩ := carries_program tree
  constructor
  · rintro ⟨last, run, accept⟩
    obtain ⟨count, walk⟩ := run.exists_walk
    obtain ⟨_, _, first, rest, rfl, denoted, behind⟩ :=
      leaves_code canonical 0 count text last inside (outside_of_accept accept) walk
    obtain ⟨rfl, _⟩ := behind.run.eq_of_accept accepting
    simpa using denoted
  · intro denoted
    exact ⟨_, run_code tree.program tree 0 text inside denoted, accepting⟩

end PatternMachine.Tree
