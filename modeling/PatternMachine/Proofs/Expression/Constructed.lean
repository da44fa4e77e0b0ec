import PatternMachine.Expression.Construction

/-!
# Constructed expressions

An expression is constructed if it comes out of the constructions, applied from the leaves
upwards. `constructed_iff_canonical` says that these are the expressions in canonical form.
-/

namespace PatternMachine.Tree

variable {γ : Type}

/-- Whether an expression is the result of constructions. -/
inductive Constructed : Expression → Prop where
  | literal {text : Text} {tree : Expression} (made : literal? text = .ok tree) :
      Constructed tree
  | sequence {operands : List Expression} {tree : Expression}
      (each : ∀ operand ∈ operands, Constructed operand)
      (made : sequence? operands = .ok tree) :
      Constructed tree
  | alternation {branches : List Expression} {tree : Expression}
      (each : ∀ branch ∈ branches, Constructed branch)
      (made : alternation? branches = .ok tree) :
      Constructed tree
  | quantified (q : Quantifier) {body : Expression} (inner : Constructed body) :
      Constructed (.quantified q body)

theorem literal?_eq_ok_iff {text : Text} {tree : Tree γ} :
    literal? text = .ok tree ↔ ∃ c, text = [c] ∧ tree = .literal c := by
  match text with
  | [c] => simp [literal?, eq_comm]
  | [] => simp [literal?]
  | _ :: _ :: _ => simp [literal?]

theorem sequence?_eq_ok_iff {operands : List (Tree γ)} {tree : Tree γ} :
    sequence? operands = .ok tree ↔ operands ≠ [] ∧ tree = concat operands := by
  cases operands <;> simp [sequence?, eq_comm]

theorem alternation?_eq_ok_iff {branches : List (Tree γ)} {tree : Tree γ} :
    alternation? branches = .ok tree ↔ branches ≠ [] ∧ tree = choice branches := by
  cases branches <;> simp [alternation?, eq_comm]

theorem canonical_of_literal? {text : Text} {tree : Tree γ} (made : literal? text = .ok tree) :
    tree.Canonical := by
  obtain ⟨c, _, rfl⟩ := literal?_eq_ok_iff.mp made
  exact .literal c

theorem canonical_of_sequence?
    {operands : List (Tree γ)} {tree : Tree γ} (made : sequence? operands = .ok tree)
    (each : ∀ operand ∈ operands, operand.Canonical) :
    tree.Canonical := by
  obtain ⟨nonempty, rfl⟩ := sequence?_eq_ok_iff.mp made
  exact canonical_concat nonempty each

theorem canonical_of_alternation?
    {branches : List (Tree γ)} {tree : Tree γ} (made : alternation? branches = .ok tree)
    (each : ∀ branch ∈ branches, branch.Canonical) :
    tree.Canonical := by
  obtain ⟨nonempty, rfl⟩ := alternation?_eq_ok_iff.mp made
  exact canonical_choice nonempty each

theorem items_of_kind_ne {tree : Tree γ} (other : tree.kind ≠ .sequence) :
    tree.items = [tree] := by
  cases tree with
  | sequence items => exact absurd rfl other
  | _ => rfl

theorem flatMap_items_of_flat
    {operands : List (Tree γ)} (flat : ∀ operand ∈ operands, operand.kind ≠ .sequence) :
    operands.flatMap items = operands := by
  induction operands with
  | nil => rfl
  | cons operand operands ih =>
      rw [List.flatMap_cons, items_of_kind_ne (flat operand (by simp)),
        ih fun other member => flat other (by simp [member])]
      rfl

theorem Canonical.concat_items {tree : Tree γ} (canonical : tree.Canonical) :
    concat tree.items = tree := by
  have flat : tree.items.flatMap items = [tree].flatMap items := by
    rw [flatMap_items_of_flat fun item member => canonical.kind_ne_sequence_of_mem_items member]
    simp
  calc
    concat tree.items = concat [tree] := by
      unfold concat
      rw [flat]
    _ = tree := canonical.concat_singleton

theorem concat_of_several
    {operands : List (Tree γ)} (several : 2 ≤ operands.length)
    (flat : ∀ operand ∈ operands, operand.kind ≠ .sequence) :
    concat operands = .sequence operands := by
  match operands, several with
  | first :: second :: rest, _ => simp [concat, flatMap_items_of_flat flat]

theorem choice_of_several {branches : List (Tree γ)} (several : 2 ≤ branches.length) :
    choice branches = .alternation branches := by
  match branches, several with
  | first :: second :: rest, _ => rfl

/-- The constructed expressions are those in canonical form. -/
theorem constructed_iff_canonical {tree : Expression} : Constructed tree ↔ tree.Canonical := by
  constructor
  · intro constructed
    induction constructed with
    | literal made => exact canonical_of_literal? made
    | sequence _ made ih => exact canonical_of_sequence? made ih
    | alternation _ made ih => exact canonical_of_alternation? made ih
    | quantified q _ ih => exact .quantified q ih
  · intro canonical
    induction canonical with
    | gap g => nomatch g
    | literal c => exact .literal (literal?_eq_ok_iff.mpr ⟨c, rfl, rfl⟩)
    | @sequence items several _ flat ih =>
        refine .sequence ih (sequence?_eq_ok_iff.mpr ⟨by rintro rfl; simp at several, ?_⟩)
        exact (concat_of_several several flat).symm
    | @alternation branches several _ ih =>
        refine .alternation ih (alternation?_eq_ok_iff.mpr ⟨by rintro rfl; simp at several, ?_⟩)
        exact (choice_of_several several).symm
    | quantified q _ ih => exact .quantified q ih

end PatternMachine.Tree
