import Mathlib.Algebra.BigOperators.Group.List.Basic
import Mathlib.Algebra.GroupWithZero.Nat
import PatternMachine.Expression.Code
import PatternMachine.Pattern.Reading
import PatternMachine.Proofs.Expression.Constructed

/-!
# Normal form of obtained trees

Trees are obtained from the constructions, in which operands may be left open, and by reading
patterns. Splicing is one level deep, so it makes a normal form only of operands that have it:
`Obtained.canonical` and `Canonical.of_nodeOf` carry it to every node. The code of a sequence does
not show what was spliced. It is that of the operands one after the other, and there is none if an
operand is left open, as `code?_concat` says.
-/

namespace PatternMachine.Tree

variable {γ : Type}

/-! ## Obtained trees and their nodes -/

/-- Whether a tree comes out of constructions and of reading patterns. -/
inductive Obtained : Tree γ → Prop where
  | gap (g : γ) : Obtained (.gap g)
  | literal {text : Text} {tree : Tree γ} (made : literal? text = .ok tree) : Obtained tree
  | sequence {operands : List (Tree γ)} {tree : Tree γ}
      (each : ∀ operand ∈ operands, Obtained operand)
      (made : sequence? operands = .ok tree) :
      Obtained tree
  | alternation {branches : List (Tree γ)} {tree : Tree γ}
      (each : ∀ branch ∈ branches, Obtained branch)
      (made : alternation? branches = .ok tree) :
      Obtained tree
  | quantified (q : Quantifier) {body : Tree γ} (inner : Obtained body) :
      Obtained (.quantified q body)
  | read {d : Dialect} {text : Text} {tree : Expression}
      (read : (d.read text).outcome = .ok tree) :
      Obtained (ofExpression tree)

/-- Whether a tree is a node of another one: its root, or a node of one of its children. -/
inductive NodeOf (node : Tree γ) : Tree γ → Prop where
  | root : NodeOf node node
  | child {tree child : Tree γ} (member : child ∈ tree.children) (inside : NodeOf node child) :
      NodeOf node tree

theorem ofExpressions_eq_map (trees : List Expression) :
    (ofExpressions trees : List (Tree γ)) = trees.map ofExpression := by
  induction trees with
  | nil => rfl
  | cons tree trees ih => rw [ofExpressions, ih, List.map_cons]

@[simp]
theorem kind_ofExpression (tree : Expression) : (ofExpression tree : Tree γ).kind = tree.kind := by
  rcases tree with g | _ | _ | _ | _
  · nomatch g
  all_goals rfl

namespace Canonical

theorem ofExpression {tree : Expression} (canonical : tree.Canonical) :
    (Tree.ofExpression tree : Tree γ).Canonical := by
  induction canonical with
  | gap g => nomatch g
  | literal c => exact .literal c
  | sequence several _ flat ih =>
      rw [Tree.ofExpression, ofExpressions_eq_map]
      exact .sequence (by simpa using several) (by simpa using ih) (by simpa using flat)
  | alternation several _ ih =>
      rw [Tree.ofExpression, ofExpressions_eq_map]
      exact .alternation (by simpa using several) (by simpa using ih)
  | quantified q _ ih => exact .quantified q ih

theorem of_mem_children
    {tree child : Tree γ} (canonical : tree.Canonical) (member : child ∈ tree.children) :
    child.Canonical := by
  cases canonical with
  | gap g => cases member
  | literal c => cases member
  | sequence _ each _ => exact each child member
  | alternation _ each => exact each child member
  | quantified q inner => exact List.mem_singleton.mp member ▸ inner

theorem of_nodeOf
    {tree node : Tree γ} (canonical : tree.Canonical) (inside : NodeOf node tree) :
    node.Canonical := by
  induction inside with
  | root => exact canonical
  | child member _ ih => exact ih (canonical.of_mem_children member)

end Canonical

theorem Obtained.canonical {tree : Tree γ} (obtained : Obtained tree) : tree.Canonical := by
  induction obtained with
  | gap g => exact .gap g
  | literal made => exact canonical_of_literal? made
  | sequence _ made ih => exact canonical_of_sequence? made ih
  | alternation _ made ih => exact canonical_of_alternation? made ih
  | quantified q _ ih => exact .quantified q ih
  | read read => exact (Dialect.canonical_of_read read).ofExpression

/-- Reading patterns gives no expression that constructions do not give. -/
theorem obtained_iff_constructed {tree : Expression} : Obtained tree ↔ Constructed tree := by
  constructor
  · intro obtained
    exact constructed_iff_canonical.mpr obtained.canonical
  · intro constructed
    induction constructed with
    | literal made => exact .literal made
    | sequence _ made ih => exact .sequence ih made
    | alternation _ made ih => exact .alternation ih made
    | quantified q _ ih => exact .quantified q ih

/-! ## Code of trees that could have gaps -/

def size? (tree : Tree γ) : Option Nat :=
  tree.closed?.map size

def code? (offset : Int) (tree : Tree γ) : Option (List Instruction) :=
  tree.closed?.map (code offset)

@[simp]
theorem code?_ofExpression (offset : Int) (tree : Expression) :
    code? offset (ofExpression tree : Tree γ) = some (code offset tree) := by
  rw [code?, closed?_ofExpression, Option.map_some]

theorem closedAll?_cons (tree : Tree γ) (trees : List (Tree γ)) :
    closedAll? (tree :: trees) =
      tree.closed?.bind fun first => (closedAll? trees).map (first :: ·) := by
  rw [closedAll?]
  cases closed? tree <;> cases closedAll? trees <;> rfl

theorem closedAll?_append (left right : List (Tree γ)) :
    closedAll? (left ++ right) =
      (closedAll? left).bind fun trees => (closedAll? right).map (trees ++ ·) := by
  induction left with
  | nil => simp [closedAll?]
  | cons tree left ih =>
      rw [List.cons_append, closedAll?, closedAll?, ih]
      cases closed? tree <;> cases closedAll? left <;> cases closedAll? right <;> rfl

theorem closedAll?_items (tree : Tree γ) : closedAll? tree.items = tree.closed?.map items := by
  cases tree with
  | sequence trees => simp [items, closed?, Function.comp_def]
  | gap g => rfl
  | literal c => rfl
  | alternation branches =>
      simp only [items, closedAll?, closed?]
      cases closedAll? branches <;> rfl
  | quantified q body =>
      simp only [items, closedAll?, closed?]
      cases closed? body <;> rfl

theorem closedAll?_flatMap_items (operands : List (Tree γ)) :
    closedAll? (operands.flatMap items) = (closedAll? operands).map (·.flatMap items) := by
  induction operands with
  | nil => rfl
  | cons operand operands ih =>
      rw [List.flatMap_cons, closedAll?_append, closedAll?_items, ih, closedAll?]
      cases closed? operand <;> cases closedAll? operands <;> rfl

def ofItems : List (Tree γ) → Tree γ
  | [tree] => tree
  | items => .sequence items

theorem concat_eq_ofItems (operands : List (Tree γ)) :
    concat operands = ofItems (operands.flatMap items) :=
  rfl

theorem closed?_ofItems (trees : List (Tree γ)) :
    closed? (ofItems trees) = (closedAll? trees).map ofItems := by
  match trees with
  | [] => rfl
  | [tree] =>
      rw [ofItems, closedAll?, closedAll?]
      cases closed? tree <;> rfl
  | first :: second :: rest =>
      rw [ofItems, closed?, closedAll?, closedAll?]
      · cases closed? first <;> cases closed? second <;> cases closedAll? rest <;> rfl
      · simp

theorem closed?_concat (operands : List (Tree γ)) :
    closed? (concat operands) = (closedAll? operands).map concat := by
  rw [concat_eq_ofItems, closed?_ofItems, closedAll?_flatMap_items, Option.map_map]
  rfl

theorem size_ofItems (trees : List Expression) : size (ofItems trees) = totalSize trees := by
  match trees with
  | [] => rfl
  | [tree] => rfl
  | _ :: _ :: _ => rfl

theorem code_ofItems (offset : Int) (trees : List Expression) :
    code offset (ofItems trees) = codeOfItems offset trees := by
  match trees with
  | [] => rfl
  | [tree] => simp [ofItems, codeOfItems]
  | _ :: _ :: _ => rfl

theorem totalSize_eq_sum (trees : List Expression) : totalSize trees = (trees.map size).sum := by
  induction trees with
  | nil => rfl
  | cons tree trees ih => rw [totalSize_cons, ih, List.map_cons, List.sum_cons]

theorem totalSize_append (left right : List Expression) :
    totalSize (left ++ right) = totalSize left + totalSize right := by
  simp only [totalSize_eq_sum, List.map_append, List.sum_append]

theorem codeOfItems_append (offset : Int) (left right : List Expression) :
    codeOfItems offset (left ++ right) =
      codeOfItems offset left ++ codeOfItems (offset + totalSize left) right := by
  induction left generalizing offset with
  | nil => simp [codeOfItems]
  | cons tree left ih => simp [codeOfItems, ih, Int.add_assoc]

theorem totalSize_items (tree : Expression) : totalSize tree.items = size tree := by
  cases tree <;> simp [items, size]

theorem codeOfItems_items (offset : Int) (tree : Expression) :
    codeOfItems offset tree.items = code offset tree := by
  cases tree <;> simp [items, codeOfItems, code]

theorem totalSize_flatMap_items (operands : List Expression) :
    totalSize (operands.flatMap items) = totalSize operands := by
  induction operands with
  | nil => rfl
  | cons operand operands ih =>
      rw [List.flatMap_cons, totalSize_append, totalSize_items, ih, totalSize_cons]

/-- Items take the places of the operand that they are spliced from. -/
theorem codeOfItems_flatMap_items (offset : Int) (operands : List Expression) :
    codeOfItems offset (operands.flatMap items) = codeOfItems offset operands := by
  induction operands generalizing offset with
  | nil => rfl
  | cons operand operands ih =>
      rw [List.flatMap_cons, codeOfItems_append, codeOfItems_items, totalSize_items, ih,
        codeOfItems]

theorem size_concat (operands : List Expression) : size (concat operands) = totalSize operands := by
  rw [concat_eq_ofItems, size_ofItems, totalSize_flatMap_items]

theorem code_concat (offset : Int) (operands : List Expression) :
    code offset (concat operands) = codeOfItems offset operands := by
  rw [concat_eq_ofItems, code_ofItems, codeOfItems_flatMap_items]

theorem mapM_size? (trees : List (Tree γ)) :
    trees.mapM size? = (closedAll? trees).map (List.map size) := by
  induction trees with
  | nil => rfl
  | cons tree trees ih =>
      rw [List.mapM_cons, ih, closedAll?_cons, size?]
      cases closed? tree <;> cases closedAll? trees <;> rfl

theorem size?_concat (operands : List (Tree γ)) :
    size? (concat operands) = (operands.mapM size?).map List.sum := by
  rw [size?, closed?_concat, mapM_size?, Option.map_map, Option.map_map]
  congr 1
  funext trees
  exact (size_concat trees).trans (totalSize_eq_sum trees)

/-- The operands are laid out in turn, each behind what was emitted before. -/
theorem foldlM_code? (offset : Int) (emitted : List Instruction) (operands : List (Tree γ)) :
    operands.foldlM (fun emitted operand =>
        (code? (offset + emitted.length) operand).map (emitted ++ ·)) emitted =
      (closedAll? operands).map fun trees =>
        emitted ++ codeOfItems (offset + emitted.length) trees := by
  induction operands generalizing emitted with
  | nil => simp [closedAll?, codeOfItems]
  | cons operand operands ih =>
      rw [List.foldlM_cons, closedAll?_cons, code?]
      cases closed? operand with
      | none => rfl
      | some first =>
          have behind : offset + (emitted ++ code (offset + emitted.length) first).length =
              offset + emitted.length + size first := by
            simp [Int.add_assoc]
          simp only [Option.map_some, Option.bind_some, Option.bind_eq_bind, ih, behind,
            Option.map_map, Function.comp_def, codeOfItems, List.append_assoc]

theorem code?_concat (offset : Int) (operands : List (Tree γ)) :
    code? offset (concat operands) =
      operands.foldlM (fun emitted operand =>
        (code? (offset + emitted.length) operand).map (emitted ++ ·)) [] := by
  rw [foldlM_code?, code?, closed?_concat, Option.map_map]
  congr 1
  funext trees
  simp [code_concat]

theorem Canonical.at_root {tree : Tree γ} (canonical : tree.Canonical) :
    (tree.kind = .sequence →
      2 ≤ tree.children.length ∧ ∀ child ∈ tree.children, child.kind ≠ .sequence) ∧
    (tree.kind = .alternation → 2 ≤ tree.children.length) := by
  cases canonical with
  | sequence several _ flat => exact ⟨fun _ => ⟨several, flat⟩, nofun⟩
  | alternation several _ => exact ⟨nofun, fun _ => several⟩
  | _ => exact ⟨nofun, nofun⟩

/--
At every node of an obtained tree, a sequence has at least two items, none of which is a sequence,
and an alternation has at least two branches. Obtained operands may be put in sequence in parts.
Operands in sequence have the code that they have in turn, each laid out behind what was emitted
before, and as many instructions as they have together, whichever of them are spliced.
-/
theorem sequences_normal_and_laid_out :
    (∀ tree : Tree γ, Obtained tree → ∀ node, NodeOf node tree →
      (node.kind = .sequence →
        2 ≤ node.children.length ∧ ∀ child ∈ node.children, child.kind ≠ .sequence) ∧
      (node.kind = .alternation → 2 ≤ node.children.length)) ∧
    (∀ left right : List (Tree γ), left ≠ [] → right ≠ [] →
      (∀ operand ∈ left ++ right, Obtained operand) →
      ∃ first second whole, sequence? left = .ok first ∧ sequence? right = .ok second ∧
        sequence? [first, second] = .ok whole ∧ sequence? (left ++ right) = .ok whole) ∧
    (∀ operands : List (Tree γ), operands ≠ [] → ∃ tree, sequence? operands = .ok tree ∧
      tree.size? = (operands.mapM size?).map List.sum ∧
      ∀ offset, tree.code? offset =
        operands.foldlM (fun emitted operand =>
          (operand.code? (offset + emitted.length)).map (emitted ++ ·)) []) := by
  refine ⟨?_, ?_, ?_⟩
  · intro tree obtained node inside
    exact (obtained.canonical.of_nodeOf inside).at_root
  · intro left right left_nonempty right_nonempty obtained
    have canonical : ∀ operand ∈ left ++ right, operand.Canonical :=
      fun operand member => (obtained operand member).canonical
    refine ⟨concat left, concat right, concat (left ++ right),
      sequence?_eq_ok_iff.mpr ⟨left_nonempty, rfl⟩, sequence?_eq_ok_iff.mpr ⟨right_nonempty, rfl⟩,
      sequence?_eq_ok_iff.mpr ⟨by simp, ?_⟩, sequence?_eq_ok_iff.mpr ⟨by simp [left_nonempty], rfl⟩⟩
    exact (concat_append (fun operand member => canonical operand (by simp [member]))
      (fun operand member => canonical operand (by simp [member]))).symm
  · intro operands nonempty
    exact ⟨concat operands, sequence?_eq_ok_iff.mpr ⟨nonempty, rfl⟩, size?_concat operands,
      fun offset => code?_concat offset operands⟩

/-- Two sequences in sequence, the second with a repetition, laid out from the seventh place on. -/
theorem sequences_spliced_at_seventh_place :
    ∃ first second whole : Draft,
      sequence? [.literal 'a', .literal 'b'] = .ok first ∧
      sequence? [.literal 'c', .quantified .oneOrMore (.literal 'd')] = .ok second ∧
      sequence? [first, second] = .ok whole ∧
      (∀ node, NodeOf node whole →
        node.kind = .sequence → ∀ child ∈ node.children, child.kind ≠ .sequence) ∧
      whole.size? = some 5 ∧
      whole.code? 7 = some [.consume ['a'], .consume ['b'], .consume ['c'], .consume ['d'],
        .split 10 12] := by
  obtain ⟨normal, in_parts, laid_out⟩ := sequences_normal_and_laid_out (γ := Unit)
  have literal : ∀ c, Obtained (.literal c : Draft) := fun c =>
    .literal (literal?_eq_ok_iff.mpr ⟨c, rfl, rfl⟩)
  have obtained : ∀ operand ∈ [.literal 'a', .literal 'b'] ++
      [.literal 'c', .quantified .oneOrMore (.literal 'd')], Obtained (operand : Draft) := by
    simpa using ⟨literal 'a', literal 'b', literal 'c', .quantified .oneOrMore (literal 'd')⟩
  obtain ⟨first, second, whole, first_eq, second_eq, whole_eq, same⟩ :=
    in_parts _ _ (by simp) (by simp) obtained
  obtain ⟨tree, tree_eq, size_eq, code_eq⟩ := laid_out _ (List.cons_ne_nil _ _)
  cases same.symm.trans tree_eq
  refine ⟨first, second, whole, first_eq, second_eq, whole_eq, fun node inside sequence => ?_,
    size_eq, code_eq 7⟩
  exact ((normal whole (.sequence obtained same) node inside).1 sequence).2

end PatternMachine.Tree
