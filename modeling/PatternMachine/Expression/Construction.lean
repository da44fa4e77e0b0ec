import PatternMachine.Expression.Basic
import PatternMachine.Text.Quoted

/-!
# Construction of trees

Trees are put together so that grouping leaves no trace: a sequence takes the items of its
operands that are sequences themselves, and a sequence or an alternation of one operand is that
operand. `concat_append` says that operands may be joined in parts, and `canonical_concat` and
`canonical_choice` that construction keeps the canonical form, in which every combination has at
least two operands and no sequence stands directly inside a sequence.
-/

namespace PatternMachine.Tree

variable {γ : Type}

/-- What a tree contributes to a sequence: the items of a sequence, itself otherwise. -/
def items : Tree γ → List (Tree γ)
  | .sequence items => items
  | tree => [tree]

def concat (operands : List (Tree γ)) : Tree γ :=
  match operands.flatMap items with
  | [tree] => tree
  | items => .sequence items

def choice : List (Tree γ) → Tree γ
  | [branch] => branch
  | branches => .alternation branches

inductive ConstructionFault where
  | notOneCharacter (text : Text)
  | noChildren (kind : Kind)
  deriving DecidableEq

def ConstructionFault.message : ConstructionFault → Text
  | .notOneCharacter text => "expected a single character, got ".toList ++ text.quoted
  | .noChildren kind => kind.name ++ " requires children".toList

def literal? : Text → Except ConstructionFault (Tree γ)
  | [c] => .ok (.literal c)
  | text => .error (.notOneCharacter text)

def sequence? (operands : List (Tree γ)) : Except ConstructionFault (Tree γ) :=
  if operands.isEmpty then .error (.noChildren .sequence) else .ok (concat operands)

def alternation? (branches : List (Tree γ)) : Except ConstructionFault (Tree γ) :=
  if branches.isEmpty then .error (.noChildren .alternation) else .ok (choice branches)

/-- The form that construction keeps, at every node. -/
inductive Canonical : Tree γ → Prop where
  | gap (g : γ) : Canonical (.gap g)
  | literal (c : Char) : Canonical (.literal c)
  | sequence {items : List (Tree γ)}
      (several : 2 ≤ items.length)
      (each : ∀ item ∈ items, Canonical item)
      (flat : ∀ item ∈ items, item.kind ≠ .sequence) :
      Canonical (.sequence items)
  | alternation {branches : List (Tree γ)}
      (several : 2 ≤ branches.length)
      (each : ∀ branch ∈ branches, Canonical branch) :
      Canonical (.alternation branches)
  | quantified (q : Quantifier) {body : Tree γ}
      (inner : Canonical body) :
      Canonical (.quantified q body)

namespace Canonical

theorem items_ne_nil {tree : Tree γ} (canonical : Canonical tree) : tree.items ≠ [] := by
  cases canonical <;> simp only [items] <;> try simp
  rename_i items several _ _
  rintro rfl
  simp at several

theorem of_mem_items
    {tree item : Tree γ} (canonical : Canonical tree) (member : item ∈ tree.items) :
    Canonical item := by
  cases canonical with
  | sequence several each flat => exact each item member
  | gap g => simp only [items, List.mem_singleton] at member; exact member ▸ .gap g
  | literal c => simp only [items, List.mem_singleton] at member; exact member ▸ .literal c
  | alternation several each =>
      simp only [items, List.mem_singleton] at member
      exact member ▸ .alternation several each
  | quantified q inner =>
      simp only [items, List.mem_singleton] at member
      exact member ▸ .quantified q inner

theorem kind_ne_sequence_of_mem_items
    {tree item : Tree γ} (canonical : Canonical tree) (member : item ∈ tree.items) :
    item.kind ≠ .sequence := by
  cases canonical with
  | sequence several each flat => exact flat item member
  | gap g => simp only [items, List.mem_singleton] at member; subst member; simp [kind]
  | literal c => simp only [items, List.mem_singleton] at member; subst member; simp [kind]
  | alternation several each =>
      simp only [items, List.mem_singleton] at member; subst member; simp [kind]
  | quantified q inner =>
      simp only [items, List.mem_singleton] at member; subst member; simp [kind]

theorem concat_singleton {tree : Tree γ} (canonical : Canonical tree) : concat [tree] = tree := by
  cases canonical with
  | sequence several each flat =>
      rename_i items
      match items, several with
      | first :: second :: rest, _ => simp [concat, Tree.items]
  | _ => simp [concat, items]

end Canonical

theorem flatMap_items_ne_nil
    {operands : List (Tree γ)}
    (nonempty : operands ≠ []) (each : ∀ operand ∈ operands, Canonical operand) :
    operands.flatMap items ≠ [] := by
  intro empty
  obtain ⟨operand, member⟩ := List.exists_mem_of_ne_nil operands nonempty
  exact (each operand member).items_ne_nil (List.flatMap_eq_nil_iff.mp empty operand member)

theorem items_concat
    {operands : List (Tree γ)} (each : ∀ operand ∈ operands, Canonical operand) :
    (concat operands).items = operands.flatMap items := by
  unfold concat
  split
  next tree only =>
    have member : tree ∈ operands.flatMap items := by simp [only]
    obtain ⟨operand, inside, member⟩ := List.mem_flatMap.mp member
    have other := (each operand inside).kind_ne_sequence_of_mem_items member
    rw [only]
    cases tree <;> simp_all [items, kind]
  next => simp [items]

theorem canonical_concat
    {operands : List (Tree γ)}
    (nonempty : operands ≠ []) (each : ∀ operand ∈ operands, Canonical operand) :
    Canonical (concat operands) := by
  have member_items : ∀ item ∈ operands.flatMap items,
      Canonical item ∧ item.kind ≠ .sequence := by
    intro item member
    obtain ⟨operand, inside, member⟩ := List.mem_flatMap.mp member
    exact ⟨(each operand inside).of_mem_items member,
      (each operand inside).kind_ne_sequence_of_mem_items member⟩
  have some_item := flatMap_items_ne_nil nonempty each
  unfold concat
  split
  next tree only => exact (member_items tree (by simp [only])).1
  next several =>
    refine .sequence ?_ (fun item member => (member_items item member).1)
      (fun item member => (member_items item member).2)
    match operands.flatMap items, some_item, several with
    | [tree], _, several => exact absurd rfl (several tree)
    | _ :: _ :: _, _, _ => simp

theorem canonical_choice
    {branches : List (Tree γ)}
    (nonempty : branches ≠ []) (each : ∀ branch ∈ branches, Canonical branch) :
    Canonical (choice branches) := by
  match branches, nonempty with
  | [branch], _ => exact each branch (by simp)
  | _ :: _ :: _, _ => exact .alternation (by simp) each

/-- Operands may be joined in parts. -/
theorem concat_append
    {left right : List (Tree γ)}
    (left_canonical : ∀ operand ∈ left, Canonical operand)
    (right_canonical : ∀ operand ∈ right, Canonical operand) :
    concat [concat left, concat right] = concat (left ++ right) := by
  have parts : [concat left, concat right].flatMap items = (left ++ right).flatMap items := by
    simp [items_concat left_canonical, items_concat right_canonical]
  unfold concat at parts ⊢
  rw [parts]

end PatternMachine.Tree
