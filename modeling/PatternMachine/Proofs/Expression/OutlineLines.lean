import Mathlib.Algebra.Order.BigOperators.Group.List
import Mathlib.Algebra.Order.Group.Nat
import PatternMachine.Dialect.Spelling
import PatternMachine.Expression.Outline
import PatternMachine.Proofs.Expression.Constructed
import PatternMachine.Proofs.Expression.Inventory
import PatternMachine.Proofs.Text.Lines

/-!
# Lines of outlines

An outline has an entry for each node (`outlineEntries_eq_map`), and an entry has as many line feeds
as the pattern of its node. So the lines of an outline are its entries as long as no pattern holds a
line feed. The patterns of all nodes are parts of that of the root, and one that is written without
line feeds as special characters holds those of its literals (`mem_written_iff_mem_literals`).
-/

namespace PatternMachine.Tree

variable {d : Dialect} {depth : Nat} {tree child node : Expression} {c : Char}

/-! ## Nodes with their depths -/

mutual

/-- All nodes of an expression in preorder with their depths, where the root has the given one. -/
def nodesFrom (depth : Nat) : Expression → List (Nat × Expression)
  | .gap g => nomatch g
  | .literal c => [(depth, .literal c)]
  | .sequence items => (depth, .sequence items) :: nodesFromOf (depth + 1) items
  | .alternation branches => (depth, .alternation branches) :: nodesFromOf (depth + 1) branches
  | .quantified q body => (depth, .quantified q body) :: nodesFrom (depth + 1) body

def nodesFromOf (depth : Nat) : List Expression → List (Nat × Expression)
  | [] => []
  | tree :: trees => nodesFrom depth tree ++ nodesFromOf depth trees

end

theorem nodesFromOf_eq_flatMap (depth : Nat) (trees : List Expression) :
    nodesFromOf depth trees = trees.flatMap (nodesFrom depth) := by
  induction trees with
  | nil => rfl
  | cons tree trees ih => rw [nodesFromOf, ih, List.flatMap_cons]

theorem nodesFrom_eq (depth : Nat) (tree : Expression) :
    nodesFrom depth tree = (depth, tree) :: tree.children.flatMap (nodesFrom (depth + 1)) := by
  rcases tree with g | c | items | branches | ⟨q, body⟩
  · nomatch g
  all_goals simp [nodesFrom, nodesFromOf_eq_flatMap, children]

theorem map_snd_nodesFrom (depth : Nat) (tree : Expression) :
    (tree.nodesFrom depth).map Prod.snd = tree.nodes := by
  induction tree using induction_on_children generalizing depth with
  | step tree ih =>
      rw [nodesFrom_eq, nodes_eq, List.map_cons, List.map_flatMap]
      congr 1
      exact List.flatMap_congr fun child member => ih child member (depth + 1)

/-- An outline has an entry for each node, in preorder. -/
theorem outlineEntries_eq_map (d : Dialect) (depth : Nat) (tree : Expression) :
    outlineEntries d depth tree =
      (tree.nodesFrom depth).map fun (depth, node) => outlineEntry d depth node := by
  induction tree using induction_on_children generalizing depth with
  | step tree ih =>
      rw [nodesFrom_eq, outlineEntries_eq, List.map_cons, List.map_flatMap]
      congr 1
      exact List.flatMap_congr fun child member => ih child member (depth + 1)

/-! ## Line feeds -/

theorem Kind.newline_not_mem_name (kind : Kind) : '\n' ∉ kind.name := by
  rcases kind with _ | _ | _ | _ | _ | _ | _ <;> decide

theorem count_newline_outlineEntry (d : Dialect) (depth : Nat) (node : Expression) :
    (outlineEntry d depth node).count '\n' = (node.written d).count '\n' := by
  simp [outlineEntry, List.count_append, List.count_replicate,
    List.count_eq_zero.mpr node.kind.newline_not_mem_name]

/-- What stands in branches with unions between them is a union or in one of the branches. -/
theorem mem_intercalate_written {branches : List Expression} :
    c ∈ [d.symbol .union].intercalate (branches.map (written d)) ↔
      c ∈ List.replicate (branches.length - 1) (d.symbol .union) ∨
        ∃ branch ∈ branches, c ∈ branch.written d := by
  rw [(intercalate_perm _ _).mem_iff, List.length_map, List.mem_append, ← List.flatMap_def,
    List.mem_flatMap]

theorem mem_written_of_mem_children
    (member : child ∈ tree.children) (inside : c ∈ child.written d) :
    c ∈ tree.written d := by
  rcases tree with g | _ | items | branches | ⟨q, body⟩
  · nomatch g
  · nomatch member
  · rw [written, writtenAll_eq_map]
    exact List.mem_flatten_of_mem (List.mem_map_of_mem member) inside
  · rw [written, writtenAll_eq_map, Dialect.grouped]
    refine List.mem_cons_of_mem _ (List.mem_append_left _ ?_)
    exact mem_intercalate_written.mpr (.inr ⟨child, member, inside⟩)
  · obtain rfl := List.mem_singleton.mp member
    rw [written]
    split <;> simp [Dialect.grouped, inside]

theorem mem_written_of_mem_nodes (below : node ∈ tree.nodes) (inside : c ∈ node.written d) :
    c ∈ tree.written d := by
  induction tree using induction_on_children with
  | step tree ih =>
      rw [nodes_eq, List.mem_cons] at below
      rcases below with rfl | below
      · exact inside
      · obtain ⟨child, member, below⟩ := List.mem_flatMap.mp below
        exact mem_written_of_mem_children member (ih child member below)

/-- A character that is not special stands in a pattern where it is a literal. -/
theorem mem_written_iff_mem_literals (plain : ∀ role, d.symbol role ≠ c) :
    c ∈ tree.written d ↔ c ∈ tree.literals := by
  have other : ∀ role, c ≠ d.symbol role := fun role => (plain role).symm
  induction tree using Tree.induction with
  | gap g => nomatch g
  | literal e =>
      rw [written, Dialect.escaped, literals_eq]
      split <;> simp [other, character?, children]
  | sequence items ih =>
      rw [written, writtenAll_eq_map, literals_eq, ← List.flatMap_def]
      simp only [character?, children, Option.toList_none, List.nil_append, List.mem_flatMap]
      exact exists_congr fun item => and_congr_right (ih item)
  | alternation branches ih =>
      rw [written, writtenAll_eq_map, literals_eq]
      simp only [Dialect.grouped, List.mem_append, List.mem_cons, mem_intercalate_written, other,
        List.mem_replicate, and_false, false_or, List.not_mem_nil, or_false, character?, children,
        Option.toList_none, List.nil_append, List.mem_flatMap]
      exact exists_congr fun branch => and_congr_right (ih branch)
  | quantified q body ih =>
      rw [written, literals_eq]
      split <;> simp [Dialect.grouped, other, character?, children, ih]

/-! ## Lines -/

theorem splitOn_outline (d : Dialect) (tree : Expression) :
    (tree.outline d).splitOn '\n' =
      (tree.nodesFrom 0).flatMap fun (depth, node) =>
        (outlineEntry d depth node).splitOn '\n' := by
  have nonempty : outlineEntries d 0 tree ≠ [] := by simp [outlineEntries_eq]
  rw [outline, Text.splitOn_ofLines_eq_flatMap nonempty, outlineEntries_eq_map, List.flatMap_map]

/-- Beside a line for each node, an outline has one for each line feed in the pattern of a node. -/
theorem length_splitOn_outline (d : Dialect) (tree : Expression) :
    ((tree.outline d).splitOn '\n').length =
      tree.nodes.length + (tree.nodes.map fun node => (node.written d).count '\n').sum := by
  rw [splitOn_outline, List.length_flatMap, ← map_snd_nodesFrom 0 tree, List.length_map,
    List.map_map]
  induction tree.nodesFrom 0 with
  | nil => rfl
  | cons entry entries ih =>
      simp only [List.map_cons, List.sum_cons, List.length_cons, Function.comp_apply,
        Text.length_splitOn, count_newline_outlineEntry] at ih ⊢
      omega

theorem length_splitOn_outline_iff (d : Dialect) (tree : Expression) :
    ((tree.outline d).splitOn '\n').length = tree.nodes.length ↔ '\n' ∉ tree.written d := by
  rw [length_splitOn_outline, Nat.add_eq_left, List.sum_eq_zero_iff]
  constructor
  · intro none inside
    have root : (tree.written d).count '\n' = 0 :=
      none _ (List.mem_map.mpr ⟨tree, by simp [nodes_eq tree], rfl⟩)
    exact List.count_eq_zero.mp root inside
  · intro absent total counted
    obtain ⟨node, below, rfl⟩ := List.mem_map.mp counted
    exact List.count_eq_zero.mpr fun inside => absent (mem_written_of_mem_nodes below inside)

/--
The lines of an outline are its nodes with their depths, kinds and patterns if and only if the
pattern of the root holds no line feed, and otherwise there are more lines than nodes.
-/
theorem outline_lines_are_nodes_iff (d : Dialect) (tree : Expression) :
    ((tree.outline d).splitOn '\n' = ((tree.nodesFrom 0).map fun (depth, node) =>
        List.replicate depth '\t' ++ node.kind.name ++ ':' :: ' ' :: node.written d) ↔
      '\n' ∉ tree.written d) ∧
    (((tree.outline d).splitOn '\n').length = tree.nodes.length ↔ '\n' ∉ tree.written d) ∧
    ((tree.outline d).splitOn '\n').length =
      tree.nodes.length + (tree.nodes.map fun node => (node.written d).count '\n').sum ∧
    ((∀ role, d.symbol role ≠ '\n') → ('\n' ∈ tree.written d ↔ '\n' ∈ tree.literals)) := by
  have counted := length_splitOn_outline_iff d tree
  refine ⟨⟨fun lines => counted.mp ?_, fun absent => ?_⟩, counted, length_splitOn_outline d tree,
    mem_written_iff_mem_literals⟩
  · rw [lines, List.length_map, ← map_snd_nodesFrom 0 tree, List.length_map]
  · rw [splitOn_outline, List.map_eq_flatMap]
    refine List.flatMap_congr fun (depth, node) below => List.splitOn_eq_singleton ?_
    have node_below : node ∈ tree.nodes :=
      map_snd_nodesFrom 0 tree ▸ List.mem_map_of_mem (f := Prod.snd) below
    rw [← List.count_eq_zero, count_newline_outlineEntry]
    exact List.count_eq_zero.mpr fun inside => absent (mem_written_of_mem_nodes node_below inside)

/-- The outline of the literal line feed has two lines for one node. -/
theorem lines_of_line_feed :
    Constructed (.literal '\n') ∧
    ((Tree.literal '\n' : Expression).outline .standard).splitOn '\n' =
      ["Literal: ".toList, []] ∧
    (Tree.literal '\n' : Expression).nodes = [.literal '\n'] :=
  ⟨.literal (literal?_eq_ok_iff.mpr ⟨'\n', rfl, rfl⟩), by decide, rfl⟩

end PatternMachine.Tree
