import PatternMachine.Proofs.Pattern.Balance

/-!
# Groups that stay open

The level of a text is by how many more of its characters begin a group than end one. The groups
that are open behind a text are those in front of which the level is lower than at every place
behind (`mem_unclosed_iff`). Of several open groups each stands one level higher than the one
around it, so that a character that ends a group comes down to the level of the innermost one.
-/

namespace PatternMachine.Dialect

variable {d : Dialect} {text : Text} {opening : Nat} {c : Char}

/-- How many characters of a text have a role and are not escaped. -/
def countRole (d : Dialect) (text : Text) (role : Role) : Nat :=
  (List.range text.length).countP (d.RoleAt text · role)

/-- By how many more characters of a text begin a group than end one. -/
def level (d : Dialect) (text : Text) : Int :=
  d.countRole text .groupBegin - d.countRole text .groupEnd

/-- Whether a group begins at a position of a text and the level stays above that in front of it. -/
structure StaysOpen (d : Dialect) (text : Text) (opening : Nat) : Prop where
  begins : d.RoleAt text opening .groupBegin
  above : ∀ place, opening < place → place ≤ text.length →
    d.level (text.take opening) < d.level (text.take place)

/-! ## One more character -/

theorem countRole_concat (d : Dialect) (text : Text) (c : Char) (role : Role) :
    d.countRole (text ++ [c]) role =
      d.countRole text role +
        if (d.groups text).escaped = false ∧ d.role? c = some role then 1 else 0 := by
  have earlier : (List.range text.length).countP (d.RoleAt (text ++ [c]) · role) =
      d.countRole text role := by
    refine List.countP_congr fun position inside => ?_
    simp only [decide_eq_true_eq]
    exact roleAt_append_iff_of_lt (List.mem_range.mp inside)
  rw [countRole, List.length_append, List.length_singleton, List.range_succ, List.countP_append,
    earlier, List.countP_singleton]
  simp only [decide_eq_true_eq, roleAt_length_iff]

/-- A character begins a group one level higher, ends the innermost one, or does neither. -/
theorem unclosed_concat_cases (d : Dialect) (text : Text) (c : Char) :
    (d.RoleAt (text ++ [c]) text.length .groupBegin ∧
        d.unclosed (text ++ [c]) = text.length :: d.unclosed text ∧
        d.level (text ++ [c]) = d.level text + 1) ∨
      ¬ d.RoleAt (text ++ [c]) text.length .groupBegin ∧
        (d.unclosed (text ++ [c]) = (d.unclosed text).tail ∧
            d.level (text ++ [c]) = d.level text - 1 ∨
          d.unclosed (text ++ [c]) = d.unclosed text ∧
            d.level (text ++ [c]) = d.level text) := by
  have unclosed_eq : d.unclosed (text ++ [c]) =
      ((d.groups text).step d c).openings := by
    rw [unclosed, groups_append]
    rfl
  simp only [unclosed_eq, level, countRole_concat, roleAt_length_iff, Groups.step,
    position_groups]
  cases (d.groups text).escaped with
  | true => simp [unclosed]
  | false =>
      cases d.role? c with
      | none => simp [unclosed]
      | some role => cases role <;> simp [unclosed] <;> omega

theorem staysOpen_concat_iff (inside : opening < text.length) :
    d.StaysOpen (text ++ [c]) opening ↔
      d.StaysOpen text opening ∧ d.level (text.take opening) < d.level (text ++ [c]) := by
  have cut {place : Nat} (inside : place ≤ text.length) :
      (text ++ [c]).take place = text.take place := List.take_append_of_le_length inside
  have length_eq : (text ++ [c]).length = text.length + 1 := List.length_append
  constructor
  · rintro ⟨begins, above⟩
    refine ⟨⟨(roleAt_append_iff_of_lt inside).mp begins, fun place behind within => ?_⟩, ?_⟩
    · have higher := above place behind (by omega)
      rwa [cut (Nat.le_of_lt inside), cut within] at higher
    · have higher := above (text ++ [c]).length (by omega) (Nat.le_refl _)
      rwa [cut (Nat.le_of_lt inside), List.take_length] at higher
  · rintro ⟨⟨begins, above⟩, last⟩
    refine ⟨(roleAt_append_iff_of_lt inside).mpr begins, fun place behind within => ?_⟩
    rw [cut (Nat.le_of_lt inside)]
    by_cases earlier : place ≤ text.length
    · rw [cut earlier]
      exact above place behind earlier
    · obtain rfl : place = (text ++ [c]).length := by omega
      rwa [List.take_length]

theorem staysOpen_length_iff :
    d.StaysOpen (text ++ [c]) text.length ↔ d.RoleAt (text ++ [c]) text.length .groupBegin := by
  refine ⟨StaysOpen.begins, fun begins => ⟨begins, fun place behind within => ?_⟩⟩
  have length_eq : (text ++ [c]).length = text.length + 1 := List.length_append
  obtain rfl : place = (text ++ [c]).length := by omega
  rw [List.take_left' rfl, List.take_length]
  rcases unclosed_concat_cases d text c with ⟨_, _, level_eq⟩ | ⟨other, _⟩
  · omega
  · exact absurd begins other

/-! ## Open groups -/

/-- An open group stands one level lower than the text for each open group from it on. -/
theorem level_eq_of_unclosed {index : Nat} (opened : (d.unclosed text)[index]? = some opening) :
    d.level text = d.level (text.take opening) + (index + 1) := by
  induction text using List.reverseRecOn generalizing index with
  | nil => simp [unclosed, groups, Groups.start] at opened
  | append_singleton text c ih =>
      have cut {opening : Nat} (inside : opening ∈ d.unclosed text) :
          (text ++ [c]).take opening = text.take opening :=
        List.take_append_of_le_length (Nat.le_of_lt (roleAt_of_mem_unclosed inside).lt_length)
      rcases unclosed_concat_cases d text c with
        ⟨_, unclosed_eq, level_eq⟩ | ⟨_, ⟨unclosed_eq, level_eq⟩ | ⟨unclosed_eq, level_eq⟩⟩
      · rw [unclosed_eq] at opened
        cases index with
        | zero =>
            obtain rfl := Option.some.inj opened
            rw [level_eq, List.take_left' rfl]
            simp
        | succ index =>
            rw [List.getElem?_cons_succ] at opened
            rw [level_eq, ih opened, cut (List.mem_of_getElem? opened)]
            omega
      · rw [unclosed_eq, List.getElem?_tail] at opened
        rw [level_eq, ih opened, cut (List.mem_of_getElem? opened)]
        omega
      · rw [unclosed_eq] at opened
        rw [level_eq, ih opened, cut (List.mem_of_getElem? opened)]

theorem level_lt_of_mem_unclosed (opened : opening ∈ d.unclosed text) :
    d.level (text.take opening) < d.level text := by
  obtain ⟨index, opened⟩ := List.mem_iff_getElem?.mp opened
  have level_eq := level_eq_of_unclosed opened
  omega

theorem mem_tail_unclosed_iff :
    opening ∈ (d.unclosed text).tail ↔
      opening ∈ d.unclosed text ∧ d.level (text.take opening) < d.level text - 1 := by
  simp only [List.mem_iff_getElem?, List.getElem?_tail]
  constructor
  · rintro ⟨index, opened⟩
    have level_eq := level_eq_of_unclosed opened
    exact ⟨⟨index + 1, opened⟩, by omega⟩
  · rintro ⟨⟨index, opened⟩, lower⟩
    have level_eq := level_eq_of_unclosed opened
    cases index with
    | zero => omega
    | succ index => exact ⟨index, opened⟩

/-- The groups that are open behind a text are those that stay open. -/
theorem mem_unclosed_iff : opening ∈ d.unclosed text ↔ d.StaysOpen text opening := by
  induction text using List.reverseRecOn with
  | nil => exact iff_of_false List.not_mem_nil fun stays => nomatch stays.begins.lt_length
  | append_singleton text c ih =>
      have length_eq : (text ++ [c]).length = text.length + 1 := List.length_append
      rcases Nat.lt_trichotomy opening text.length with inside | rfl | outside
      · rw [staysOpen_concat_iff inside, ← ih]
        rcases unclosed_concat_cases d text c with
          ⟨_, unclosed_eq, level_eq⟩ | ⟨_, ⟨unclosed_eq, level_eq⟩ | ⟨unclosed_eq, level_eq⟩⟩
        · rw [unclosed_eq, level_eq, List.mem_cons, or_iff_right (Nat.ne_of_lt inside)]
          refine (and_iff_left_of_imp fun opened => ?_).symm
          exact Int.lt_add_one_of_le (Int.le_of_lt (level_lt_of_mem_unclosed opened))
        · rw [unclosed_eq, level_eq, mem_tail_unclosed_iff]
        · rw [unclosed_eq, level_eq]
          exact (and_iff_left_of_imp level_lt_of_mem_unclosed).symm
      · rw [staysOpen_length_iff]
        refine ⟨roleAt_of_mem_unclosed, fun begins => ?_⟩
        rcases unclosed_concat_cases d text c with ⟨_, unclosed_eq, _⟩ | ⟨other, _⟩
        · rw [unclosed_eq]
          exact List.mem_cons_self
        · exact absurd begins other
      · have beyond : ¬ opening < (text ++ [c]).length := by omega
        exact iff_of_false (fun opened => beyond (roleAt_of_mem_unclosed opened).lt_length)
          fun stays => beyond stays.begins.lt_length

end PatternMachine.Dialect
