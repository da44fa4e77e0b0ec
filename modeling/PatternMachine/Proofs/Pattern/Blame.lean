import PatternMachine.Proofs.Pattern.Agreement

/-!
# Blame

A misreading blames a character that really is at fault: it has the role that the misreading is
about, it is not escaped, and what stands directly in front of it or behind it makes it wrong. A
pass knows what stood last when nothing has been read in a branch (`placed_of_passOver`), so that
a character that fits nowhere is blamed rightly (`blames_of_step`), whatever follows it.
`blames_of_read` carries this over to reading.
-/

namespace PatternMachine

namespace Dialect

variable {d : Dialect} {text before : Text} {position : Nat} {role : Role} {c : Char}

/-- Whether a character of a role that is not escaped stands at a position of a text. -/
structure RoleAt (d : Dialect) (text : Text) (position : Nat) (role : Role) : Prop where
  found : text[position]? = some (d.symbol role)
  plain : (d.groups (text.take position)).escaped = false

/-- Whether a text ends with a character of a role that is not escaped. -/
def EndsWith (d : Dialect) (text : Text) (role : Role) : Prop :=
  ∃ last, last + 1 = text.length ∧ d.RoleAt text last role

/--
Whether a branch begins at a position: at the start of the text, or directly behind a character
that begins a group or another branch.
-/
def BranchBegins (d : Dialect) (text : Text) : Nat → Prop
  | 0 => True
  | previous + 1 => d.RoleAt text previous .groupBegin ∨ d.RoleAt text previous .union

/-- Whether a misreading of a text is true of it. -/
def Blames (d : Dialect) (text : Text) : Misread → Prop
  | .emptyPattern => text = []
  | .emptyGroup position =>
      d.RoleAt text position .groupBegin ∧ d.RoleAt text (position + 1) .groupEnd
  | .emptyAlternative position =>
      d.RoleAt text position .union ∧
        (d.BranchBegins text position ∨ position + 1 = text.length ∨
          d.RoleAt text (position + 1) .groupEnd)
  | .misplacedOperator position =>
      (∃ q, d.RoleAt text position (.quantifier q)) ∧ d.BranchBegins text position
  | .danglingEscape position => d.RoleAt text position .escape ∧ position + 1 = text.length
  | .unmatchedParenthesis position =>
      (d.RoleAt text position .groupEnd ∧ d.unclosed (text.take position) = []) ∨
        (d.RoleAt text position .groupBegin ∧ (d.unclosed text).head? = some position)

namespace RoleAt

theorem lt_length (stands : d.RoleAt text position role) : position < text.length :=
  (List.getElem?_eq_some_iff.mp stands.found).1

theorem append (stands : d.RoleAt text position role) (rest : Text) :
    d.RoleAt (text ++ rest) position role where
  found := (List.getElem?_append_left stands.lt_length).trans stands.found
  plain := by
    rw [List.take_append_of_le_length (Nat.le_of_lt stands.lt_length)]
    exact stands.plain

theorem of_role?
    (plain : (d.groups before).escaped = false) (found : d.role? c = some role) (rest : Text) :
    d.RoleAt (before ++ c :: rest) before.length role where
  found := by simpa using (role?_eq_some_iff.mp found).symm
  plain := by rwa [List.take_left' rfl]

theorem endsWith (stands : d.RoleAt (before ++ [c]) before.length role) :
    d.EndsWith (before ++ [c]) role :=
  ⟨before.length, by simp, stands⟩

end RoleAt

/-- A misreading that is true of a text has a position in it where nothing is escaped. -/
theorem Blames.plain_at {misread : Misread} (blames : d.Blames text misread)
    (at_position : misread.position? = some position) :
    position < text.length ∧ (d.groups (text.take position)).escaped = false := by
  have stands : ∃ role, d.RoleAt text position role := by
    cases misread <;> cases at_position
    case emptyGroup => exact ⟨_, blames.1⟩
    case emptyAlternative => exact ⟨_, blames.1⟩
    case misplacedOperator => exact blames.1.elim fun q stands => ⟨_, stands⟩
    case danglingEscape => exact ⟨_, blames.1⟩
    case unmatchedParenthesis =>
      exact blames.elim (fun ends => ⟨_, ends.1⟩) fun begins => ⟨_, begins.1⟩
  obtain ⟨role, stands⟩ := stands
  exact ⟨stands.lt_length, stands.plain⟩

theorem position_groups (d : Dialect) (text : Text) : (d.groups text).position = text.length := by
  induction text using List.reverseRecOn with
  | nil => rfl
  | append_singleton text c ih => simp [groups_append, Groups.step, ih]

theorem roleAt_of_mem_unclosed (opened : position ∈ d.unclosed text) :
    d.RoleAt text position .groupBegin := by
  induction text using List.reverseRecOn with
  | nil => cases opened
  | append_singleton text c ih =>
      simp only [unclosed, groups_append, List.foldl_cons, List.foldl_nil, Groups.step] at opened
      split at opened
      · exact (ih opened).append [c]
      next plain =>
        split at opened
        next begins =>
          rcases List.mem_cons.mp opened with rfl | opened
          · rw [position_groups]
            exact .of_role? (by simpa using plain) begins []
          · exact (ih opened).append [c]
        · exact (ih (List.mem_of_mem_tail opened)).append [c]
        · exact (ih opened).append [c]

end Dialect

namespace Pass

variable {d : Dialect} {text : Text} {pass : Pass} {c : Char} {misread : Misread}

/--
What stands last in a text over which a pass has gone, if the next character stands for itself or
nothing has been read in the current branch.
-/
structure Placed (d : Dialect) (text : Text) (pass : Pass) : Prop where
  groups : pass.groups = d.groups text
  announced : pass.escaped = true → d.EndsWith text .escape
  behind_union : pass.escaped = false → pass.assembly.operands = [] →
    pass.assembly.branches ≠ [] → d.EndsWith text .union
  outside : pass.escaped = false → pass.assembly.operands = [] →
    pass.assembly.branches = [] → pass.frames = [] → text = []
  inside : pass.escaped = false → pass.assembly.operands = [] →
    pass.assembly.branches = [] → ∀ opening around frames,
    pass.frames = (opening, around) :: frames →
    opening + 1 = text.length ∧ d.RoleAt text opening .groupBegin

namespace Placed

theorem position_eq (placed : pass.Placed d text) : pass.position = text.length :=
  (congrArg Groups.position placed.groups).trans (d.position_groups text)

theorem escaped_eq (placed : pass.Placed d text) : (d.groups text).escaped = pass.escaped :=
  (congrArg Groups.escaped placed.groups).symm

theorem roleAt_last {role : Role} (placed : pass.Placed d text) (ends : d.EndsWith text role) :
    pass.position - 1 + 1 = text.length ∧ d.RoleAt text (pass.position - 1) role := by
  obtain ⟨last, length_eq, stands⟩ := ends
  have last_eq : pass.position - 1 = last := by
    rw [placed.position_eq]
    omega
  rw [last_eq]
  exact ⟨length_eq, stands⟩

theorem of_operand
    (groups : pass.groups = d.groups text) (plain : pass.escaped = false)
    (operand : pass.assembly.operands ≠ []) :
    pass.Placed d text where
  groups := groups
  announced announced := by cases plain.symm.trans announced
  behind_union _ empty := absurd empty operand
  outside _ empty := absurd empty operand
  inside _ empty := absurd empty operand

theorem branchBegins
    (placed : pass.Placed d text) (plain : pass.escaped = false)
    (empty : pass.assembly.operands = []) (rest : Text) :
    d.BranchBegins (text ++ rest) text.length := by
  by_cases branched : pass.assembly.branches = []
  · cases framed : pass.frames with
    | nil =>
        obtain rfl := placed.outside plain empty branched framed
        trivial
    | cons frame frames =>
        obtain ⟨length_eq, begins⟩ := placed.inside plain empty branched _ _ _ framed
        rw [← length_eq]
        exact .inl (begins.append rest)
  · obtain ⟨last, length_eq, stands⟩ := placed.behind_union plain empty branched
    rw [← length_eq]
    exact .inr (stands.append rest)

end Placed

theorem placed_of_step
    {next : Pass} (groups_eq : pass.groups = d.groups text) (stepped : pass.step d c = .ok next) :
    next.Placed d (text ++ [c]) := by
  have next_groups : next.groups = d.groups (text ++ [c]) := by
    rw [groups_of_step stepped, groups_eq, Dialect.groups_append]
    rfl
  have position_eq : pass.position = text.length :=
    (congrArg Groups.position groups_eq).trans (d.position_groups text)
  have plain_eq : (d.groups text).escaped = pass.escaped := (congrArg Groups.escaped groups_eq).symm
  obtain ⟨middle, taken, rfl⟩ := Outcome.map_eq_ok_iff.mp stepped
  unfold take at taken
  split at taken
  · cases taken
    exact .of_operand next_groups rfl (by simp [Assembly.push])
  next unescaped =>
    have plain : pass.escaped = false := by simpa using unescaped
    have stands {role : Role} (found : d.role? c = some role) :
        d.RoleAt (text ++ [c]) text.length role := .of_role? (plain_eq.trans plain) found []
    split at taken
    · cases taken
      exact .of_operand next_groups plain (by simp [Assembly.push])
    next found =>
      cases taken
      exact ⟨next_groups, fun _ => (stands found).endsWith, by simp, by simp, by simp⟩
    next found =>
      cases taken
      refine ⟨next_groups, by simp [openFrame, plain], by simp [openFrame, Assembly.empty],
        by simp [openFrame], ?_⟩
      rintro _ _ _ opening around frames framed
      cases framed
      simp only [position_eq, List.length_append, List.length_singleton, true_and]
      exact stands found
    · -- What has been read in a group becomes an operand around it.
      unfold closeFrame at taken
      repeat' split at taken
      all_goals cases taken
      exact .of_operand next_groups plain (by simp [Assembly.push])
    next found =>
      obtain ⟨assembly, finished, rfl⟩ := Outcome.map_eq_ok_iff.mp taken
      unfold Assembly.union? at finished
      split at finished
      all_goals cases finished
      exact ⟨next_groups, by simp [plain], fun _ _ _ => (stands found).endsWith, by simp, by simp⟩
    next found =>
      obtain ⟨assembly, quantified, rfl⟩ := Outcome.map_eq_ok_iff.mp taken
      unfold Assembly.quantify? at quantified
      split at quantified
      all_goals cases quantified
      exact .of_operand next_groups plain (by simp)

theorem placed_of_passOver (passed : d.passOver text = .ok pass) : pass.Placed d text := by
  rcases List.eq_nil_or_concat' text with rfl | ⟨before, c, rfl⟩
  · cases passed
    exact ⟨rfl, by simp [start], by simp [start, Assembly.empty], by simp, by simp [start]⟩
  · rw [Dialect.passOver_concat] at passed
    obtain ⟨earlier, passed, stepped⟩ := Outcome.bind_eq_ok_iff.mp passed
    exact placed_of_step (groups_of_passOver passed).1 stepped

/-- A character that fits nowhere is blamed rightly, whatever follows it. -/
theorem blames_of_step
    (placed : pass.Placed d text) (stepped : pass.step d c = .error misread) (rest : Text) :
    d.Blames (text ++ c :: rest) misread := by
  have taken := Outcome.map_eq_error_iff.mp stepped
  unfold take at taken
  split at taken
  · cases taken
  next unescaped =>
    have plain : pass.escaped = false := by simpa using unescaped
    have stands {role : Role} (found : d.role? c = some role) :
        d.RoleAt (text ++ c :: rest) text.length role :=
      .of_role? (placed.escaped_eq.trans plain) found rest
    split at taken
    · cases taken
    · cases taken
    · cases taken
    next found =>
      unfold closeFrame at taken
      split at taken
      next unframed =>
        cases taken
        rw [placed.position_eq]
        refine .inl ⟨stands found, ?_⟩
        rw [List.take_left' rfl, Dialect.unclosed, ← placed.groups]
        simp [groups, unframed]
      next opening around frames framed =>
        split at taken
        next empty branched =>
          cases taken
          obtain ⟨length_eq, begins⟩ := placed.inside plain empty branched _ _ _ framed
          refine ⟨begins.append _, ?_⟩
          rw [length_eq]
          exact stands found
        next empty branched =>
          cases taken
          obtain ⟨length_eq, union⟩ :=
            placed.roleAt_last (placed.behind_union plain empty (by simp [branched]))
          -- The union stands directly in front of the character that closes the group.
          refine ⟨union.append _, .inr (.inr ?_)⟩
          rw [length_eq]
          exact stands found
        · cases taken
    next found =>
      have failed := Outcome.map_eq_error_iff.mp taken
      unfold Assembly.union? at failed
      split at failed
      next empty =>
        cases failed
        rw [placed.position_eq]
        exact ⟨stands found, .inl (placed.branchBegins plain (by simpa using empty) _)⟩
      · cases failed
    next q found =>
      have failed := Outcome.map_eq_error_iff.mp taken
      unfold Assembly.quantify? at failed
      split at failed
      next empty =>
        cases failed
        rw [placed.position_eq]
        exact ⟨⟨q, stands found⟩, placed.branchBegins plain empty _⟩
      · cases failed

/-- What stops a pass over a text is true of every longer text. -/
theorem blames_of_passOver (stopped : d.passOver text = .error misread) (rest : Text) :
    d.Blames (text ++ rest) misread := by
  induction text using List.reverseRecOn generalizing rest with
  | nil => cases stopped
  | append_singleton text c ih =>
      rw [Dialect.passOver_concat] at stopped
      rw [List.append_assoc, List.singleton_append]
      rcases Outcome.bind_eq_error_iff.mp stopped with earlier | ⟨pass, passed, stepped⟩
      · exact ih earlier (c :: rest)
      · exact blames_of_step (placed_of_passOver passed) stepped rest

theorem blames_of_finish
    (placed : pass.Placed d text) (failed : pass.finish = .error misread) :
    d.Blames text misread := by
  unfold finish at failed
  split at failed
  next opening around frames framed =>
    cases failed
    have innermost : (d.unclosed text).head? = some opening := by
      rw [Dialect.unclosed, ← placed.groups]
      simp [groups, framed]
    exact .inr ⟨Dialect.roleAt_of_mem_unclosed (List.mem_of_mem_head? innermost), innermost⟩
  next unframed =>
    split at failed
    next announced =>
      cases failed
      obtain ⟨length_eq, escape⟩ := placed.roleAt_last (placed.announced announced)
      exact ⟨escape, length_eq⟩
    next unescaped =>
      have plain : pass.escaped = false := by simpa using unescaped
      unfold Assembly.finish? at failed
      split at failed
      next empty branched =>
        cases failed
        exact placed.outside plain empty branched unframed
      next empty branched =>
        cases failed
        obtain ⟨length_eq, union⟩ :=
          placed.roleAt_last (placed.behind_union plain empty (by simp [branched]))
        exact ⟨union, .inr (.inl length_eq)⟩
      · cases failed

end Pass

namespace Dialect

variable {d : Dialect} {text : Text} {misread : Misread}

/-- A misreading is true of the text that is read. -/
theorem blames_of_read (failed : (d.read text).outcome = .error misread) :
    d.Blames text misread := by
  cases unclosed : d.unclosed text with
  | nil =>
      rw [outcome_read_of_closed unclosed] at failed
      rcases Outcome.bind_eq_error_iff.mp failed with stopped | ⟨pass, passed, ended⟩
      · simpa using Pass.blames_of_passOver stopped []
      · exact Pass.blames_of_finish (Pass.placed_of_passOver passed) ended
  | cons innermost around =>
      rw [outcome_read_of_unclosed unclosed] at failed
      rcases Outcome.bind_eq_error_iff.mp failed with stopped | ⟨_, _, ended⟩
      · have blames := Pass.blames_of_passOver stopped (text.drop (around.getLastD innermost))
        rwa [List.take_append_drop] at blames
      · cases ended
        exact .inr ⟨roleAt_of_mem_unclosed (by simp [unclosed]), by simp [unclosed]⟩

/-- Only the empty text is read as an empty pattern. -/
theorem read_eq_emptyPattern_iff : (d.read text).outcome = .error .emptyPattern ↔ text = [] := by
  constructor
  · exact blames_of_read
  · rintro rfl
    rw [outcome_read]
    rfl

end Dialect

end PatternMachine
