import Mathlib.Data.List.Perm.Subperm
import PatternMachine.Proofs.Pattern.Blame

/-!
# Misreadings of longer texts

What becomes of a misreading when the text goes on. A pass that stops at a character stops there in
every longer text (`StopsIn.final`), since a group that more text opens begins behind the
character. A pass that comes to the end and finds something missing there goes on, and the next
character supplies it (`readable_of_passed`). Between the two stand groups that are left open: they
may be closed later, and until then the innermost of them is blamed. `misread_in_longer_texts` says
that there is nothing else, and that the three kinds exclude each other.
-/

namespace PatternMachine.Dialect

variable {d : Dialect} {text before : Text} {misread : Misread} {pass : Pass} {c : Char}

/-! ## Groups that are open behind a longer text -/

theorem mem_unclosed_append
    {rest : Text} {opening : Nat} (opened : opening ∈ d.unclosed (text ++ rest)) :
    opening ∈ d.unclosed text ∨ text.length ≤ opening := by
  unfold unclosed at opened
  rw [groups_append] at opened
  rcases Groups.mem_openings_foldl opened with earlier | later
  · exact .inl earlier
  · exact .inr (position_groups d text ▸ later)

theorem pairwise_unclosed (d : Dialect) (text : Text) :
    (d.unclosed text).Pairwise fun inner outer => outer < inner := by
  induction text using List.reverseRecOn with
  | nil => exact .nil
  | append_singleton text c ih =>
      have below : ∀ opening ∈ d.unclosed text, opening < (d.groups text).position := by
        intro opening opened
        rw [position_groups]
        exact (roleAt_of_mem_unclosed opened).lt_length
      simp only [unclosed, groups_append, List.foldl_cons, List.foldl_nil, Groups.step]
      split
      · exact ih
      · split
        · exact .cons below ih
        · exact ih.tail
        · exact ih

theorem outermost_le
    {innermost opening : Nat} {around : List Nat}
    (unclosed : d.unclosed text = innermost :: around) (opened : opening ∈ d.unclosed text) :
    around.getLastD innermost ≤ opening := by
  have sorted := pairwise_unclosed d text
  rw [unclosed] at sorted opened
  clear unclosed
  induction around generalizing innermost opening with
  | nil => exact Nat.le_of_eq (List.mem_singleton.mp opened).symm
  | cons next around ih =>
      rw [List.getLastD_cons]
      rcases List.mem_cons.mp opened with rfl | opened
      · have next_lt : next < opening := List.rel_of_pairwise_cons sorted List.mem_cons_self
        exact Nat.le_of_lt (Nat.lt_of_le_of_lt (ih List.mem_cons_self sorted.of_cons) next_lt)
      · exact ih opened sorted.of_cons

theorem head?_unclosed_append (d : Dialect) (text : Text) :
    (d.unclosed (text ++ [d.symbol .groupBegin, d.symbol .groupBegin])).head? =
      some (text.length + 1) := by
  rw [unclosed, groups_append]
  cases escaped : (d.groups text).escaped <;>
    simp [Groups.step, escaped, position_groups]

/-! ## Characters at which a pass stops -/

/-- Whether a pass stops in a text before any group that is left open. -/
def StopsIn (d : Dialect) (text : Text) (misread : Misread) : Prop :=
  ∃ before rest, text = before ++ rest ∧ d.passOver before = .error misread ∧
    ∀ opening ∈ d.unclosed text, before.length ≤ opening

theorem outcome_read_of_stopsIn (stops : d.StopsIn text misread) :
    (d.read text).outcome = .error misread := by
  obtain ⟨before, rest, rfl, stopped, behind⟩ := stops
  cases unclosed : d.unclosed (before ++ rest) with
  | nil =>
      rw [outcome_read_of_closed unclosed, readOnce, passOver_append, stopped]
      rfl
  | cons innermost around =>
      have outermost_mem : around.getLastD innermost ∈ d.unclosed (before ++ rest) := by
        rw [unclosed]
        exact List.getLastD_mem_cons
      rw [outcome_read_of_unclosed unclosed, List.take_append,
        List.take_of_length_le (behind _ outermost_mem), passOver_append, stopped]
      rfl

theorem StopsIn.append (stops : d.StopsIn text misread) (rest : Text) :
    d.StopsIn (text ++ rest) misread := by
  obtain ⟨before, between, rfl, stopped, behind⟩ := stops
  refine ⟨before, between ++ rest, List.append_assoc .., stopped, fun opening opened => ?_⟩
  rcases mem_unclosed_append opened with earlier | later
  · exact behind opening earlier
  · exact Nat.le_trans (by simp) later

theorem StopsIn.final (stops : d.StopsIn text misread) (rest : Text) :
    (d.read (text ++ rest)).outcome = .error misread :=
  outcome_read_of_stopsIn (stops.append rest)

/-! ## Passes that come to the end -/

theorem outcome_read_of_passed (passed : d.passOver text = .ok pass) (outside : pass.frames = []) :
    (d.read text).outcome = pass.finish := by
  have closed : d.unclosed text = [] := by
    rw [unclosed, ← (Pass.groups_of_passOver passed).1]
    simp [Pass.groups, outside]
  rw [outcome_read_of_closed closed, readOnce, passed]
  rfl

theorem exists_pass_of_read {tree : Expression} (read : (d.read text).outcome = .ok tree) :
    ∃ pass, d.passOver text = .ok pass ∧ pass.frames = [] ∧ pass.escaped = false ∧
      pass.assembly.operands ≠ [] := by
  obtain ⟨pass, passed, finished⟩ :=
    Outcome.bind_eq_ok_iff.mp (outcome_read_eq_ok_iff.mp read)
  unfold Pass.finish at finished
  split at finished
  · cases finished
  next outside =>
    split at finished
    · cases finished
    next plain =>
      refine ⟨pass, passed, outside, by simpa using plain, fun empty => ?_⟩
      unfold Assembly.finish? at finished
      rw [empty] at finished
      cases branches : pass.assembly.branches <;> simp [branches] at finished

/-- A character without a role supplies what is missing at the end of a pass. -/
theorem readable_of_passed
    (passed : d.passOver text = .ok pass) (outside : pass.frames = []) (plain : d.role? c = none) :
    ∃ tree, (d.read (text ++ [c])).outcome = .ok tree := by
  let next : Pass :=
    ⟨pass.position + 1, false, pass.assembly.push (.literal c), pass.frames⟩
  have stepped : pass.step d c = .ok next := by
    unfold Pass.step Pass.take
    rw [plain]
    cases escaped : pass.escaped <;> rfl
  have passed_next : d.passOver (text ++ [c]) = .ok next := by
    rw [passOver_concat, passed]
    exact stepped
  have finished : next.finish =
      .ok (Tree.choice (next.assembly.branch :: next.assembly.branches).reverse) := by
    simp only [Pass.finish, next, outside]
    rfl
  exact ⟨_, (outcome_read_of_passed passed_next outside).trans finished⟩

theorem passOver_of_read_union {front : Text}
    {tree : Expression} (read : (d.read front).outcome = .ok tree) :
    ∃ pass, d.passOver (front ++ [d.symbol .union]) = .ok pass ∧ pass.frames = [] ∧
      pass.finish = .error (.emptyAlternative front.length) := by
  obtain ⟨pass, passed, outside, plain, nonempty⟩ := exists_pass_of_read read
  have length_eq : pass.position = front.length :=
    (Pass.placed_of_passOver passed).position_eq
  have united : pass.assembly.union? pass.position =
      .ok ⟨pass.assembly.branch :: pass.assembly.branches, []⟩ :=
    if_neg (by simpa using nonempty)
  refine ⟨⟨pass.position + 1, false, ⟨pass.assembly.branch :: pass.assembly.branches, []⟩, []⟩,
    ?_, rfl, ?_⟩
  · rw [passOver_concat, passed, Outcome.ok_bind, Pass.step, Pass.take, role?_symbol]
    simp [plain, united, outside]
  · rw [← length_eq]
    rfl

/-! ## Kinds of misreadings -/

/--
Whether something is missing at the end of a text only: the whole pattern, the character that an
escape announces, or the branch behind a union.
-/
def Unfinished (d : Dialect) (text : Text) (misread : Misread) : Prop :=
  misread = .emptyPattern ∨ (∃ position, misread = .danglingEscape position) ∨
    ∃ front tree, text = front ++ [d.symbol .union] ∧ (d.read front).outcome = .ok tree

/-- Whether a group is blamed at the character that begins it for being left open. -/
def LeftOpen (d : Dialect) (text : Text) (misread : Misread) : Prop :=
  ∃ position, misread = .unmatchedParenthesis position ∧
    text[position]? = some (d.symbol .groupBegin)

/-- Whether every longer text is misread for the same reason at the same position. -/
def Final (d : Dialect) (text : Text) (misread : Misread) : Prop :=
  ∀ rest, (d.read (text ++ rest)).outcome = .error misread

/-- A misreading is final, blames a group that is left open, or is the end of a pass. -/
theorem stopsIn_or_leftOpen_or_passed (failed : (d.read text).outcome = .error misread) :
    d.StopsIn text misread ∨ d.LeftOpen text misread ∨
      ∃ pass, d.passOver text = .ok pass ∧ pass.frames = [] ∧ pass.finish = .error misread := by
  cases unclosed : d.unclosed text with
  | nil =>
      rw [outcome_read_of_closed unclosed] at failed
      rcases Outcome.bind_eq_error_iff.mp failed with stopped | ⟨pass, passed, ended⟩
      · exact .inl ⟨text, [], by simp, stopped, by simp [unclosed]⟩
      · have outside : pass.frames = [] := by
          have openings := congrArg Groups.openings (Pass.groups_of_passOver passed).1
          exact List.map_eq_nil_iff.mp (openings.trans unclosed)
        exact .inr (.inr ⟨pass, passed, outside, ended⟩)
  | cons innermost around =>
      rw [outcome_read_of_unclosed unclosed] at failed
      rcases Outcome.bind_eq_error_iff.mp failed with stopped | ⟨_, _, ended⟩
      · refine .inl ⟨_, _, (List.take_append_drop _ text).symm, stopped, fun opening opened => ?_⟩
        exact Nat.le_trans (List.length_take_le _ _) (outermost_le unclosed opened)
      · cases ended
        have begins : d.RoleAt text innermost .groupBegin :=
          roleAt_of_mem_unclosed (by simp [unclosed])
        exact .inr (.inl ⟨innermost, rfl, begins.found⟩)

theorem exists_read_of_union
    (passed : d.passOver text = .ok pass) (outside : pass.frames = [])
    (ends : d.EndsWith text .union) :
    ∃ front tree, text = front ++ [d.symbol .union] ∧ (d.read front).outcome = .ok tree := by
  obtain ⟨last, length_eq, stands⟩ := ends
  rcases List.eq_nil_or_concat' text with rfl | ⟨front, c, rfl⟩
  · cases length_eq
  obtain rfl : last = front.length := by simpa using length_eq
  obtain rfl : c = d.symbol .union := by simpa using stands.found
  have plain_groups : (d.groups front).escaped = false := by simpa using stands.plain
  rw [passOver_concat] at passed
  obtain ⟨earlier, passed_front, stepped⟩ := Outcome.bind_eq_ok_iff.mp passed
  have plain : earlier.escaped = false :=
    (Pass.placed_of_passOver passed_front).escaped_eq.symm.trans plain_groups
  obtain ⟨middle, taken, rfl⟩ := Outcome.map_eq_ok_iff.mp stepped
  simp only [Pass.take, plain, role?_symbol, Bool.false_eq_true, if_false] at taken
  obtain ⟨assembly, united, rfl⟩ := Outcome.map_eq_ok_iff.mp taken
  have earlier_outside : earlier.frames = [] := outside
  refine ⟨front, Tree.choice (earlier.assembly.branch :: earlier.assembly.branches).reverse, rfl,
    (outcome_read_of_passed passed_front earlier_outside).trans ?_⟩
  unfold Assembly.union? at united
  simp only [Pass.finish, earlier_outside, plain, Bool.false_eq_true, if_false]
  cases operands_eq : earlier.assembly.operands with
  | nil => simp [operands_eq] at united
  | cons operand operands => simp [Assembly.finish?, operands_eq]

theorem unfinished_of_finish
    (passed : d.passOver text = .ok pass) (outside : pass.frames = [])
    (failed : pass.finish = .error misread) :
    d.Unfinished text misread := by
  have placed := Pass.placed_of_passOver passed
  simp only [Pass.finish, outside] at failed
  split at failed
  · cases failed
    exact .inr (.inl ⟨_, rfl⟩)
  next plain =>
    unfold Assembly.finish? at failed
    split at failed
    · cases failed
      exact .inl rfl
    next empty branched =>
      have ends := placed.behind_union (by simpa using plain) empty (by simp [branched])
      exact .inr (.inr (exists_read_of_union passed outside ends))
    · cases failed

/-! ## The kinds exclude each other -/

theorem exists_plain (d : Dialect) : ∃ c, d.role? c = none := by
  by_contra special
  push Not at special
  have covered : ['a', 'b', 'c', 'd', 'e', 'f', 'g', 'h'] ⊆ Role.all.map d.symbol := by
    intro c _
    obtain ⟨role, found⟩ := Option.ne_none_iff_exists'.mp (special c)
    exact List.mem_map.mpr ⟨role, Role.mem_all role, role?_eq_some_iff.mp found⟩
  have few := (List.subperm_of_subset (by decide) covered).length_le
  rw [List.length_map] at few
  exact absurd few (by decide)

theorem misread_of_union {front : Text} {tree : Expression}
    (read : (d.read front).outcome = .ok tree)
    (failed : (d.read (front ++ [d.symbol .union])).outcome = .error misread) :
    misread = .emptyAlternative front.length := by
  obtain ⟨pass, passed, outside, finished⟩ := passOver_of_read_union read
  rw [outcome_read_of_passed passed outside, finished] at failed
  cases failed
  rfl

theorem Unfinished.not_final
    (unfinished : d.Unfinished text misread) (failed : (d.read text).outcome = .error misread) :
    ¬ d.Final text misread := by
  intro final
  obtain ⟨c, plain⟩ := d.exists_plain
  rcases unfinished with rfl | ⟨position, rfl⟩ | ⟨front, tree, rfl, read⟩
  · simpa using read_eq_emptyPattern_iff.mp (final [c])
  · have at_end : position + 1 = text.length := (blames_of_read failed).2
    have behind : position + 1 = (text ++ [c]).length := (blames_of_read (final [c])).2
    simp at behind
    omega
  · obtain ⟨pass, passed, outside, _⟩ := passOver_of_read_union read
    obtain ⟨tree, longer⟩ := readable_of_passed passed outside plain
    cases longer.symm.trans (final [c])

theorem Unfinished.not_leftOpen
    (unfinished : d.Unfinished text misread) (failed : (d.read text).outcome = .error misread) :
    ¬ d.LeftOpen text misread := by
  rintro ⟨opening, rfl, _⟩
  rcases unfinished with unplaced | ⟨_, dangling⟩ | ⟨front, tree, rfl, read⟩
  · cases unplaced
  · cases dangling
  · cases misread_of_union read failed

theorem LeftOpen.not_final (left_open : d.LeftOpen text misread) : ¬ d.Final text misread := by
  intro final
  obtain ⟨opening, rfl, found⟩ := left_open
  have begins : (text ++ [d.symbol .groupBegin, d.symbol .groupBegin])[opening]? =
      some (d.symbol .groupBegin) := by
    rw [List.getElem?_append_left (List.getElem?_eq_some_iff.mp found).1, found]
  rcases blames_of_read (final [d.symbol .groupBegin, d.symbol .groupBegin]) with
    ⟨ends, _⟩ | ⟨_, innermost⟩
  · have same := d.symbol_injective _ _ (Option.some.inj (begins.symm.trans ends.found))
    cases same
  · rw [head?_unclosed_append] at innermost
    have last : text.length + 1 = opening := Option.some.inj innermost
    have inside : opening < text.length := (List.getElem?_eq_some_iff.mp found).1
    omega

theorem Unfinished.passed
    (unfinished : d.Unfinished text misread) (failed : (d.read text).outcome = .error misread) :
    ∃ pass, d.passOver text = .ok pass ∧ pass.frames = [] := by
  rcases stopsIn_or_leftOpen_or_passed failed with stops | left_open | ⟨pass, passed, outside, _⟩
  · exact absurd stops.final (unfinished.not_final failed)
  · exact absurd left_open (unfinished.not_leftOpen failed)
  · exact ⟨pass, passed, outside⟩

/--
A text is misread in one of three ways. Something is missing at its end only, and any character
that stands for itself supplies it; if that is the branch behind a union, the union is blamed. Or
a group is blamed for being left open, at the character that begins it. Or every longer text is
misread for the same reason at the same position.
-/
theorem misread_in_longer_texts (failed : (d.read text).outcome = .error misread) :
    (d.Unfinished text misread ∧ ¬ d.LeftOpen text misread ∧ ¬ d.Final text misread ∨
      ¬ d.Unfinished text misread ∧ d.LeftOpen text misread ∧ ¬ d.Final text misread ∨
      ¬ d.Unfinished text misread ∧ ¬ d.LeftOpen text misread ∧ d.Final text misread) ∧
    (d.Unfinished text misread →
      ∀ c, d.role? c = none → ∃ tree, (d.read (text ++ [c])).outcome = .ok tree) ∧
    ∀ front tree, text = front ++ [d.symbol .union] → (d.read front).outcome = .ok tree →
      misread = .emptyAlternative (text.length - 1) := by
  refine ⟨?_, fun unfinished c plain => ?_, ?_⟩
  · rcases stopsIn_or_leftOpen_or_passed failed with
      stops | left_open | ⟨pass, passed, outside, ended⟩
    · exact .inr (.inr ⟨fun unfinished => unfinished.not_final failed stops.final,
        fun left_open => left_open.not_final stops.final, stops.final⟩)
    · exact .inr (.inl ⟨fun unfinished => unfinished.not_leftOpen failed left_open, left_open,
        left_open.not_final⟩)
    · have unfinished := unfinished_of_finish passed outside ended
      exact .inl ⟨unfinished, unfinished.not_leftOpen failed, unfinished.not_final failed⟩
  · obtain ⟨pass, passed, outside⟩ := unfinished.passed failed
    exact readable_of_passed passed outside plain
  · rintro front tree rfl read
    simpa using misread_of_union read failed

/-- A union that ends a text, one in a group that is left open, and one that begins a group. -/
theorem misread_in_longer_texts_of_unions :
    (standard.read ['a', '|']).outcome = .error (.emptyAlternative 1) ∧
    (∃ tree, (standard.read ['a', '|', 'b']).outcome = .ok tree) ∧
    ¬ standard.Final ['(', 'a', '|'] (.unmatchedParenthesis 0) ∧
    ∀ rest, (standard.read (['(', '|', ')'] ++ rest)).outcome = .error (.emptyAlternative 1) := by
  have unfinished : (standard.read ['a', '|']).outcome = .error (.emptyAlternative 1) := by cbv
  have front : (standard.read ['a']).outcome = .ok (.literal 'a') := by cbv
  have left_open : (standard.read ['(', 'a', '|']).outcome = .error (.unmatchedParenthesis 0) := by
    cbv
  have stopped : (standard.read ['(', '|', ')']).outcome = .error (.emptyAlternative 1) := by cbv
  refine ⟨unfinished, ?_, ?_, ?_⟩
  · obtain ⟨_, supplied, _⟩ := misread_in_longer_texts unfinished
    exact supplied (.inr (.inr ⟨['a'], _, rfl, front⟩)) 'b' (by decide)
  · intro final
    rcases (misread_in_longer_texts left_open).1 with kind | kind | kind
    · exact kind.2.2 final
    · exact kind.2.2 final
    · exact kind.2.1 ⟨0, rfl, rfl⟩
  · rcases (misread_in_longer_texts stopped).1 with ⟨kind, _⟩ | ⟨_, kind, _⟩ | ⟨_, _, final⟩
    · rcases kind with kind | ⟨_, kind⟩ | ⟨front, _, text_eq, _⟩
      · cases kind
      · cases kind
      · have last := congrArg List.getLast? text_eq
        rw [List.getLast?_concat] at last
        cases last
    · obtain ⟨_, kind, _⟩ := kind
      cases kind
    · exact final

end PatternMachine.Dialect
