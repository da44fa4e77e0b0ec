import Mathlib.Algebra.BigOperators.Group.List.Basic
import Mathlib.Algebra.GroupWithZero.Nat
import Mathlib.Data.List.Perm.Basic
import PatternMachine.Pattern.Grammar
import PatternMachine.Proofs.Expression.Execution

/-!
# Inventories of expressions

What an expression consists of, counted node by node, and its marks, which are the tokens of its
text without those of groups. `marks_perm` says that every node has its share in the marks and
`literals_eq_filterMap` that the literals keep their order. The program of an expression consumes
the same literals in the same order, and has as many instructions as its marks cost.
-/

namespace PatternMachine

namespace Token

def character? : Token → Option Char
  | .literal c => some c
  | _ => none

/-- Whether a token is left when groups are taken away. -/
def isMark : Token → Bool
  | .groupBegin => false
  | .groupEnd => false
  | _ => true

/-- The number of instructions that a token takes in a program. -/
def cost : Token → Nat
  | .literal _ => 1
  | .union => 2
  | .groupBegin => 0
  | .groupEnd => 0
  | .quantifier .optional => 1
  | .quantifier .oneOrMore => 1
  | .quantifier .zeroOrMore => 2

theorem sum_map_cost (tokens : List Token) :
    (tokens.map cost).sum =
      (tokens.filterMap character?).length + tokens.count (.quantifier .optional) +
        tokens.count (.quantifier .oneOrMore) + 2 * tokens.count (.quantifier .zeroOrMore) +
        2 * tokens.count .union := by
  induction tokens with
  | nil => rfl
  | cons token tokens ih =>
      rw [List.map_cons, List.sum_cons, ih]
      rcases token with c | _ | _ | _ | (_ | _ | _) <;>
        simp [cost, character?, List.filterMap_cons] <;> omega

theorem filterMap_filter_isMark (tokens : List Token) :
    (tokens.filter isMark).filterMap character? = tokens.filterMap character? := by
  rw [List.filterMap_filter]
  congr 1
  funext token
  cases token <;> rfl

theorem sum_map_cost_filter_isMark (tokens : List Token) :
    ((tokens.filter isMark).map cost).sum = (tokens.map cost).sum := by
  induction tokens with
  | nil => rfl
  | cons token tokens ih =>
      cases token with
      | groupBegin => simpa [isMark, cost] using ih
      | groupEnd => simpa [isMark, cost] using ih
      | _ => rw [List.filter_cons_of_pos rfl, List.map_cons, List.map_cons, List.sum_cons, ih,
          List.sum_cons]

end Token

def Instruction.expected? : Instruction → Option Text
  | .consume expected => some expected
  | _ => none

namespace Tree

/-! ## Nodes -/

mutual

/-- All nodes of an expression, each in front of what is below it. -/
def nodes : Expression → List Expression
  | .gap g => nomatch g
  | .literal c => [.literal c]
  | .sequence items => .sequence items :: nodesOf items
  | .alternation branches => .alternation branches :: nodesOf branches
  | .quantified q body => .quantified q body :: nodes body

def nodesOf : List Expression → List Expression
  | [] => []
  | tree :: trees => nodes tree ++ nodesOf trees

end

theorem nodesOf_eq_flatMap (trees : List Expression) : nodesOf trees = trees.flatMap nodes := by
  induction trees with
  | nil => rfl
  | cons tree trees ih => rw [nodesOf, ih, List.flatMap_cons]

theorem nodes_eq (tree : Expression) : nodes tree = tree :: tree.children.flatMap nodes := by
  rcases tree with g | c | items | branches | ⟨q, body⟩
  · nomatch g
  · rfl
  · rw [nodes, nodesOf_eq_flatMap, children]
  · rw [nodes, nodesOf_eq_flatMap, children]
  · rw [nodes, children, List.flatMap_singleton]

def character? : Expression → Option Char
  | .literal c => some c
  | _ => none

def literals (tree : Expression) : Text :=
  tree.nodes.filterMap character?

/-- The number of nodes of an expression that a quantifier makes. -/
def occurrences (q : Quantifier) (tree : Expression) : Nat :=
  tree.nodes.countP fun node => node.kind = .quantified q

/-- By how many all alternations of an expression have more branches than one each. -/
def unions (tree : Expression) : Nat :=
  ((tree.nodes.filter fun node => node.kind = .alternation).map fun node =>
    node.children.length - 1).sum

theorem literals_eq (tree : Expression) :
    tree.literals = tree.character?.toList ++ tree.children.flatMap literals := by
  rw [literals, nodes_eq, List.filterMap_cons, List.filterMap_flatMap]
  cases tree.character? <;> rfl

/-! ## Marks -/

mutual

/-- The tokens of an expression in the order of its text, without those of groups. -/
def marks : Expression → List Token
  | .gap g => nomatch g
  | .literal c => [.literal c]
  | .sequence items => (marksOf items).flatten
  | .alternation branches => [.union].intercalate (marksOf branches)
  | .quantified q body => marks body ++ [.quantifier q]

def marksOf : List Expression → List (List Token)
  | [] => []
  | tree :: trees => marks tree :: marksOf trees

end

@[simp]
theorem marksOf_eq_map (trees : List Expression) : marksOf trees = trees.map marks := by
  induction trees with
  | nil => rfl
  | cons tree trees ih => rw [marksOf, ih, List.map_cons]

/-- The marks that a node has beside those of its children. -/
def ownMarks : Expression → List Token
  | .literal c => [.literal c]
  | .alternation branches => List.replicate (branches.length - 1) .union
  | .quantified q _ => [.quantifier q]
  | _ => []

theorem intercalate_perm {α : Type} (separator : α) (parts : List (List α)) :
    ([separator].intercalate parts).Perm
      (List.replicate (parts.length - 1) separator ++ parts.flatten) := by
  induction parts with
  | nil => simp
  | cons part parts ih =>
      cases parts with
      | nil => simp
      | cons next parts =>
          rw [List.intercalate_cons_cons, List.append_assoc]
          refine ((ih.cons separator).append_left part).trans ?_
          exact List.perm_append_comm_assoc part (List.replicate (parts.length + 1) separator) _

/-- Each node has its share in the marks of an expression. -/
theorem marks_perm (tree : Expression) : tree.marks.Perm (tree.nodes.flatMap ownMarks) := by
  have below : ∀ trees : List Expression,
      (∀ tree ∈ trees, tree.marks.Perm (tree.nodes.flatMap ownMarks)) →
      (trees.map marks).flatten.Perm ((trees.flatMap nodes).flatMap ownMarks) := by
    intro trees each
    rw [List.flatMap_assoc, ← List.flatMap_def]
    exact List.Perm.flatMap_left trees each
  induction tree using Tree.induction with
  | gap g => nomatch g
  | literal c => exact List.Perm.refl _
  | sequence items ih =>
      rw [nodes_eq, marks, marksOf_eq_map]
      exact below items ih
  | alternation branches ih =>
      -- Taken out from between the branches, the unions are the marks of the node itself.
      rw [nodes_eq, marks, marksOf_eq_map]
      refine (intercalate_perm Token.union _).trans ?_
      rw [List.length_map]
      exact (below branches ih).append_left _
  | quantified q body ih =>
      rw [nodes_eq, marks]
      exact List.perm_append_comm.trans (by simpa [children, ownMarks] using ih)

theorem occurrences_eq_count (q : Quantifier) (tree : Expression) :
    tree.occurrences q = tree.marks.count (.quantifier q) := by
  have own : ∀ node : Expression,
      node.ownMarks.count (.quantifier q) = if node.kind = .quantified q then 1 else 0 := by
    intro node
    rcases node with g | c | items | branches | ⟨r, body⟩
    · nomatch g
    all_goals simp [ownMarks, kind, List.count_replicate, List.count_cons]
  rw [tree.marks_perm.count_eq, List.count_flatMap, occurrences]
  induction tree.nodes with
  | nil => rfl
  | cons node nodes ih => simp [List.countP_cons, ih, own, Nat.add_comm]

theorem unions_eq_count (tree : Expression) : tree.unions = tree.marks.count .union := by
  have own : ∀ node : Expression, node.ownMarks.count .union =
      if node.kind = .alternation then node.children.length - 1 else 0 := by
    intro node
    rcases node with g | c | items | branches | ⟨q, body⟩
    · nomatch g
    all_goals simp [ownMarks, kind, children]
  rw [tree.marks_perm.count_eq, List.count_flatMap, unions]
  induction tree.nodes with
  | nil => rfl
  | cons node nodes ih =>
      by_cases alternates : node.kind = .alternation <;> simp [alternates, ih, own]

theorem literals_eq_filterMap (tree : Expression) :
    tree.literals = tree.marks.filterMap Token.character? := by
  have separated : ∀ parts : List (List Token),
      ([Token.union].intercalate parts).filterMap Token.character? =
        parts.flatMap (List.filterMap Token.character?) := by
    intro parts
    induction parts with
    | nil => rfl
    | cons part parts ih =>
        cases parts with
        | nil => simp
        | cons next parts =>
            rw [List.intercalate_cons_cons, List.filterMap_append, ih]
            simp [Token.character?]
  induction tree using Tree.induction with
  | gap g => nomatch g
  | literal c => rfl
  | sequence items ih =>
      rw [literals_eq, marks, marksOf_eq_map, List.filterMap_flatten, List.map_map]
      exact List.flatMap_congr ih
  | alternation branches ih =>
      rw [literals_eq, marks, marksOf_eq_map, separated, List.flatMap_map]
      exact List.flatMap_congr ih
  | quantified q body ih =>
      rw [literals_eq, marks, List.filterMap_append, ← ih]
      simp [character?, Token.character?, children]

/-! ## Code -/

/-- A program has as many instructions as the marks of its expression cost. -/
theorem size_eq_sum_cost (tree : Expression) : size tree = (tree.marks.map Token.cost).sum := by
  have total : ∀ trees : List Expression,
      (∀ tree ∈ trees, size tree = (tree.marks.map Token.cost).sum) →
      totalSize trees = ((trees.map marks).flatten.map Token.cost).sum := by
    intro trees each
    induction trees with
    | nil => rfl
    | cons tree trees ih =>
        rw [totalSize_cons, each tree (by simp),
          ih fun other member => each other (by simp [member])]
        simp
  induction tree using Tree.induction with
  | gap g => nomatch g
  | literal c => rfl
  | sequence items ih => rw [size, marks, marksOf_eq_map, total items ih]
  | alternation branches ih =>
      have separators : ∀ n, ((List.replicate n Token.union).map Token.cost).sum = 2 * n := by
        intro n
        simp [Token.cost, Nat.mul_comm]
      rw [size, marks, marksOf_eq_map, ((intercalate_perm Token.union _).map _).sum_eq,
        total branches ih, List.length_map, List.map_append, List.sum_append, separators,
        Nat.add_comm]
  | quantified q body ih => cases q <;> simp [size, marks, ih, Token.cost]

theorem filterMap_codeOfItems
    {items : List Expression}
    (each : ∀ item ∈ items, ∀ offset,
      (code offset item).filterMap Instruction.expected? = item.literals.map fun c => [c])
    (offset : Int) :
    (codeOfItems offset items).filterMap Instruction.expected? =
      (items.flatMap literals).map fun c => [c] := by
  induction items generalizing offset with
  | nil => rfl
  | cons item items ih =>
      rw [codeOfItems, List.filterMap_append, each item (by simp),
        ih fun other member => each other (by simp [member])]
      simp

theorem filterMap_codeOfBranches
    {branches : List Expression}
    (each : ∀ branch ∈ branches, ∀ offset,
      (code offset branch).filterMap Instruction.expected? = branch.literals.map fun c => [c])
    (join offset : Int) :
    (codeOfBranches join offset branches).filterMap Instruction.expected? =
      (branches.flatMap literals).map fun c => [c] := by
  induction branches generalizing offset with
  | nil => rfl
  | cons branch branches ih =>
      have first := each branch (by simp)
      cases branches with
      | nil => simp [codeOfBranches, first]
      | cons next branches =>
          rw [codeOfBranches, List.cons_append, List.filterMap_cons_none rfl,
            List.filterMap_append, first, List.filterMap_cons_none rfl,
            ih fun other member => each other (by simp [member]), ← List.map_append,
            ← List.flatMap_cons]

/-- The code of an expression consumes its literals in their order. -/
theorem filterMap_code (offset : Int) (tree : Expression) :
    (code offset tree).filterMap Instruction.expected? = tree.literals.map fun c => [c] := by
  induction tree using Tree.induction generalizing offset with
  | gap g => nomatch g
  | literal c => rfl
  | sequence items ih =>
      rw [literals_eq]
      exact filterMap_codeOfItems (fun item member offset => ih item member offset) offset
  | alternation branches ih =>
      rw [literals_eq, code]
      exact filterMap_codeOfBranches (fun branch member offset => ih branch member offset) _ offset
  | quantified q body ih =>
      have body_literals : (quantified q body).literals = body.literals := by
        rw [literals_eq, children, List.flatMap_singleton]
        rfl
      cases q <;> simp [code, body_literals, ih, Instruction.expected?, List.filterMap_cons]

end Tree

end PatternMachine
