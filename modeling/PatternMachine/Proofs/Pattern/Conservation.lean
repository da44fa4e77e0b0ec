import PatternMachine.Proofs.Expression.Inventory
import PatternMachine.Proofs.Pattern.Acceptance

/-!
# Reading conserves what a pattern consists of

A reader moves operands around: it folds branches, takes sequences apart and gives up groups. The
tokens that are no groups come out as the marks of the tree, in their order, so that none is lost,
doubled or moved.
-/

namespace PatternMachine

namespace Tree

theorem marks_concat (operands : List Expression) :
    marks (concat operands) = operands.flatMap marks := by
  have of_items : ∀ operand : Expression, operand.items.flatMap marks = operand.marks := by
    intro operand
    cases operand with
    | sequence items => rw [marks, marksOf_eq_map, ← List.flatMap_def, Tree.items]
    | _ => exact List.flatMap_singleton _ _
  have joined : (operands.flatMap items).flatMap marks = operands.flatMap marks := by
    rw [List.flatMap_assoc]
    simp only [of_items]
  rw [← joined]
  unfold concat
  split
  next tree only => rw [only, List.flatMap_singleton]
  next => rw [marks, marksOf_eq_map, ← List.flatMap_def]

theorem marks_choice (branches : List Expression) :
    marks (choice branches) = [.union].intercalate (branches.map marks) := by
  unfold choice
  split
  next branch => rw [List.map_singleton, List.intercalate_singleton]
  next => rw [marks, marksOf_eq_map]

theorem marks_foldl_quantified (quantifiers : List Quantifier) (tree : Expression) :
    marks (quantifiers.foldl (fun body q => .quantified q body) tree) =
      tree.marks ++ quantifiers.map .quantifier := by
  induction quantifiers generalizing tree with
  | nil => simp
  | cons q quantifiers ih => rw [List.foldl_cons, ih, marks, List.append_assoc, List.map_cons,
      List.singleton_append]

end Tree

/-- The marks of the trees that a part lists: only alternatives have unions between them. -/
def Part.marks : Part → List Expression → List Token
  | .alternatives, trees => [.union].intercalate (trees.map Tree.marks)
  | _, trees => trees.flatMap Tree.marks

/-- The marks of a derived part are its tokens without those of groups. -/
theorem Derivation.filter_tokens {part : Part} (derivation : Derivation part) :
    derivation.tokens.filter Token.isMark = part.marks derivation.trees := by
  induction derivation with
  | literal c => rfl
  | group inner ih =>
      rw [tokens, List.filter_append, List.filter_cons_of_neg (by decide), ih, trees]
      simp only [Part.marks, List.flatMap_singleton, Tree.marks_choice]
      exact List.append_nil _
  | quantified atom quantifiers ih =>
      obtain ⟨tree, only⟩ := atom.exists_trees_atom
      have all_marks : (quantifiers.map Token.quantifier).filter Token.isMark =
          quantifiers.map .quantifier :=
        List.filter_eq_self.mpr (by simp [Token.isMark])
      rw [tokens, List.filter_append, all_marks, ih, trees, only]
      simp only [Part.marks, List.map_singleton, List.flatMap_singleton,
        Tree.marks_foldl_quantified]
  | lastItem item ih => exact ih
  | items item others item_ih others_ih =>
      rw [tokens, List.filter_append, item_ih, others_ih, trees]
      exact List.flatMap_append.symm
  | lastBranch branch ih =>
      rw [tokens, ih, trees]
      simp only [Part.marks, List.map_singleton, List.intercalate_singleton, Tree.marks_concat]
  | branches branch others branch_ih others_ih =>
      rw [tokens, List.filter_append, List.filter_cons_of_pos rfl, branch_ih, others_ih, trees]
      -- Alternatives list at least one tree, so there is a union in front of the others.
      have some_other : others.trees.map Tree.marks ≠ [] := by simpa using others.canonical.1
      simp only [Part.marks, List.map_cons, List.intercalate_cons_of_ne_nil some_other,
        Tree.marks_concat, List.append_assoc, List.singleton_append]

/--
An expression that is read has the literals of its text, in the order of the text, and its program
consumes them in this order. It has as many nodes of each quantifier as the text has of that
quantifier, and all its alternations together have as many branches beyond their first ones as the
text has unions. So the tokens of the text tell the size of the program.
-/
theorem Dialect.read_conserves
    (d : Dialect) (text : Text) (tree : Expression)
    (read : (d.read text).outcome = .ok tree) :
    ∃ tokens, d.tokens? text = some tokens ∧
      tree.literals = tokens.filterMap Token.character? ∧
      tree.program.code.filterMap Instruction.expected? =
        (tokens.filterMap Token.character?).map (fun c => [c]) ∧
      (∀ q, tree.occurrences q = tokens.count (.quantifier q)) ∧
      tree.unions = tokens.count .union ∧
      tree.program.size =
        1 + (tokens.filterMap Token.character?).length + tokens.count (.quantifier .optional) +
          tokens.count (.quantifier .oneOrMore) + 2 * tokens.count (.quantifier .zeroOrMore) +
          2 * tokens.count .union := by
  obtain ⟨tokens, spelled, derivation, rfl, rfl⟩ := outcome_read_eq_ok_iff_derives.mp read
  have marks_eq : derivation.tree.marks = derivation.tokens.filter Token.isMark := by
    rw [derivation.filter_tokens, Derivation.tree, Tree.marks_choice, Part.marks]
  have literals_eq :
      derivation.tree.literals = derivation.tokens.filterMap Token.character? := by
    rw [Tree.literals_eq_filterMap, marks_eq, Token.filterMap_filter_isMark]
  refine ⟨derivation.tokens, spelled, literals_eq, ?_, fun q => ?_, ?_, ?_⟩
  · rw [Tree.code_program, List.filterMap_append, Tree.filterMap_code, literals_eq]
    exact List.append_nil _
  · rw [Tree.occurrences_eq_count, marks_eq, List.count_filter rfl]
  · rw [Tree.unions_eq_count, marks_eq, List.count_filter rfl]
  · rw [Tree.size_program, Tree.size_eq_sum_cost, marks_eq, Token.sum_map_cost_filter_isMark,
      Token.sum_map_cost]
    omega

/-- A pattern with nested groups, an escaped bar and two quantifiers in a row. -/
theorem Dialect.read_conserves_nested_groups :
    ∃ tree,
      (standard.read
        ['(', 'a', '|', '(', 'b', '\\', '|', ')', '*', 'c', ')', '+', '?', '|', 'd']).outcome =
        .ok tree ∧
      tree.literals = ['a', 'b', '|', 'c', 'd'] ∧
      tree.program.code.filterMap Instruction.expected? = [['a'], ['b'], ['|'], ['c'], ['d']] ∧
      (∀ q, tree.occurrences q = 1) ∧ tree.unions = 2 ∧ tree.program.size = 14 := by
  let pattern : Text :=
    ['(', 'a', '|', '(', 'b', '\\', '|', ')', '*', 'c', ')', '+', '?', '|', 'd']
  let repeated : Expression :=
    .quantified .zeroOrMore (.sequence [.literal 'b', .literal '|'])
  let group : Expression := .alternation [.literal 'a', .sequence [repeated, .literal 'c']]
  let tree : Expression :=
    .alternation [.quantified .optional (.quantified .oneOrMore group), .literal 'd']
  have read : (standard.read pattern).outcome = .ok tree := by cbv
  have spelled : standard.tokens? pattern = some [.groupBegin, .literal 'a', .union, .groupBegin,
      .literal 'b', .literal '|', .groupEnd, .quantifier .zeroOrMore, .literal 'c', .groupEnd,
      .quantifier .oneOrMore, .quantifier .optional, .union, .literal 'd'] := by
    cbv
  obtain ⟨tokens, same, literals, consumed, quantifiers, unions, size⟩ :=
    standard.read_conserves pattern tree read
  obtain rfl := Option.some.inj (spelled.symm.trans same)
  exact ⟨tree, read, literals, consumed, fun q => by cases q <;> exact quantifiers _, unions, size⟩

end PatternMachine
