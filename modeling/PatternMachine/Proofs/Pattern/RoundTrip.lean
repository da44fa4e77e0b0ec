import PatternMachine.Expression.Written
import PatternMachine.Proofs.Expression.Constructed
import PatternMachine.Proofs.Pattern.Acceptance

/-!
# Reading undoes writing

A written expression is read back as itself. The written text spells the tokens of a derivation
whose tree is the expression: `exists_item` and `exists_branch` give the derivation of an operand
that can be quantified and of one that stands in a sequence.
-/

namespace PatternMachine

namespace Dialect

variable {d : Dialect} {text other : Text} {tokens others : List Token}

/-- Whether a text has the given tokens, whatever follows it. -/
def Spells (d : Dialect) (text : Text) (tokens : List Token) : Prop :=
  ∀ rest, d.tokens? (text ++ rest) = (d.tokens? rest).map (tokens ++ ·)

theorem Spells.tokens?_eq (spells : d.Spells text tokens) : d.tokens? text = some tokens := by
  have whole := spells []
  simpa [tokens?] using whole

theorem spells_of_tokens? (whole : d.tokens? text = some tokens) : d.Spells text tokens := by
  intro rest
  induction text using tokens?.induct d generalizing tokens with
  | case1 =>
      cases whole
      simp
  | case2 c escape =>
      -- An escape that is left over would take the first character of what follows.
      simp [tokens?, escape] at whole
  | case3 c escape e text ih =>
      rw [tokens?_cons_escape escape, Option.map_eq_some_iff] at whole
      obtain ⟨others, spelled, rfl⟩ := whole
      rw [List.cons_append, List.cons_append, tokens?_cons_escape escape, ih spelled,
        Option.map_map]
      rfl
  | case4 c text plain ih =>
      rw [tokens?_cons plain, Option.map_eq_some_iff] at whole
      obtain ⟨others, spelled, rfl⟩ := whole
      rw [List.cons_append, tokens?_cons plain, ih spelled, Option.map_map]
      rfl

theorem Spells.append (first : d.Spells text tokens) (second : d.Spells other others) :
    d.Spells (text ++ other) (tokens ++ others) := by
  intro rest
  rw [List.append_assoc, first, second, Option.map_map]
  congr 1
  funext more
  simp

/-- A character that is no escape spells the token of its role. -/
theorem spells_plain {c : Char} (other : d.role? c ≠ some .escape) :
    d.Spells [c] [.ofRole c (d.role? c)] :=
  fun rest => tokens?_cons other rest

theorem spells_announced (d : Dialect) (c : Char) :
    d.Spells [d.symbol .escape, c] [.literal c] :=
  fun rest => tokens?_cons_escape (role?_symbol d .escape) c rest

theorem spells_symbol (d : Dialect) {role : Role} (other : role ≠ .escape) :
    d.Spells [d.symbol role] [.ofRole (d.symbol role) (some role)] := by
  have plain : d.role? (d.symbol role) ≠ some .escape := by simpa using other
  have spelled := spells_plain plain
  rwa [role?_symbol] at spelled

theorem spells_quantifiers (d : Dialect) (quantifiers : List Quantifier) :
    d.Spells (quantifiers.map fun q => d.symbol (.quantifier q))
      (quantifiers.map .quantifier) := by
  induction quantifiers with
  | nil => exact spells_of_tokens? rfl
  | cons q quantifiers ih =>
      have quantifier : d.Spells [d.symbol (.quantifier q)] [.quantifier q] :=
        d.spells_symbol (by simp)
      exact quantifier.append ih

theorem spells_escaped (d : Dialect) (c : Char) : d.Spells (d.escaped c) [.literal c] := by
  unfold escaped isSpecial
  cases found : d.role? c with
  | some role => exact d.spells_announced c
  | none =>
      have plain : d.role? c ≠ some .escape := by simp [found]
      have spelled := spells_plain plain
      rwa [found] at spelled

theorem Spells.grouped (inner : d.Spells text tokens) :
    d.Spells (d.grouped text) (.groupBegin :: tokens ++ [.groupEnd]) := by
  have begun : d.Spells [d.symbol .groupBegin] [.groupBegin] := d.spells_symbol (by simp)
  have ended : d.Spells [d.symbol .groupEnd] [.groupEnd] := d.spells_symbol (by simp)
  exact (begun.append inner).append ended

end Dialect

namespace Tree

open PatternMachine.Derivation (tokens trees)

variable {d : Dialect}

/-- Whether the written expression spells a derivation of an item with this one tree. -/
def WrittenAsItem (d : Dialect) (tree : Expression) : Prop :=
  ∃ item : Derivation .item, d.Spells (tree.written d) item.tokens ∧ item.trees = [tree]

/-- Whether the written expression spells a derivation of a branch with its items. -/
def WrittenAsBranch (d : Dialect) (tree : Expression) : Prop :=
  ∃ branch : Derivation .branch, d.Spells (tree.written d) branch.tokens ∧ branch.trees = tree.items

theorem WrittenAsItem.branch
    {tree : Expression} (writes : WrittenAsItem d tree) (single : tree.kind ≠ .sequence) :
    WrittenAsBranch d tree := by
  obtain ⟨item, spells, trees_eq⟩ := writes
  refine ⟨.lastItem item, spells, trees_eq.trans ?_⟩
  cases tree <;> simp_all [items, kind]

theorem writtenAsItem_literal (c : Char) : WrittenAsItem d (.literal c) :=
  ⟨.quantified (.literal c) [], d.spells_escaped c, rfl⟩

theorem exists_branch_of_items
    {items : List Expression} (nonempty : items ≠ [])
    (each : ∀ item ∈ items, WrittenAsItem d item) :
    ∃ branch : Derivation .branch,
      d.Spells (items.map (written d)).flatten branch.tokens ∧ branch.trees = items := by
  induction items with
  | nil => exact absurd rfl nonempty
  | cons item items ih =>
      obtain ⟨first, spells, trees_eq⟩ := each item (by simp)
      cases items with
      | nil => exact ⟨.lastItem first, by simpa [tokens] using spells, trees_eq⟩
      | cons second items =>
          obtain ⟨others, others_spell, others_eq⟩ :=
            ih (by simp) fun other member => each other (by simp [member])
          refine ⟨.items first others, spells.append others_spell, ?_⟩
          simp [trees, trees_eq, others_eq]

theorem exists_alternatives_of_branches
    {branches : List Expression} (nonempty : branches ≠ [])
    (canonical : ∀ branch ∈ branches, branch.Canonical)
    (each : ∀ branch ∈ branches, WrittenAsBranch d branch) :
    ∃ whole : Derivation .alternatives,
      d.Spells ([d.symbol .union].intercalate (branches.map (written d))) whole.tokens ∧
        whole.trees = branches := by
  induction branches with
  | nil => exact absurd rfl nonempty
  | cons branch branches ih =>
      obtain ⟨first, spells, trees_eq⟩ := each branch (by simp)
      have first_eq : concat first.trees = branch := by
        rw [trees_eq, (canonical branch (by simp)).concat_items]
      cases branches with
      | nil =>
          refine ⟨.lastBranch first, by simpa [List.intercalate, tokens] using spells, ?_⟩
          simp [trees, first_eq]
      | cons second branches =>
          obtain ⟨others, others_spell, others_eq⟩ :=
            ih (by simp) (fun other member => canonical other (by simp [member]))
              fun other member => each other (by simp [member])
          have united : d.Spells [d.symbol .union] [.union] := d.spells_symbol (by simp)
          refine ⟨.branches first others, ?_, by simp [trees, first_eq, others_eq]⟩
          have spelled := spells.append (united.append others_spell)
          simpa [List.intercalate, tokens] using spelled

/-- A quantifier follows those that its body already has, or a group around the body. -/
theorem writtenAsItem_quantified
    {body : Expression} (canonical : body.Canonical) (q : Quantifier)
    (branch_written : WrittenAsBranch d body)
    (item_written : body.kind ≠ .sequence → WrittenAsItem d body) :
    WrittenAsItem d (.quantified q body) := by
  have quantifier : d.Spells [d.symbol (.quantifier q)] [.quantifier q] :=
    d.spells_symbol (by simp)
  by_cases atom : body.isAtom = true
  · have single : body.kind ≠ .sequence := by cases body <;> simp_all [isAtom, kind]
    obtain ⟨item, spells, trees_eq⟩ := item_written single
    cases item with
    | quantified innermost quantifiers =>
        obtain ⟨tree, only⟩ := innermost.exists_trees_atom
        refine ⟨.quantified innermost (quantifiers ++ [q]), ?_, ?_⟩
        · simpa [written, atom, tokens] using spells.append quantifier
        · simpa [trees, only] using trees_eq
  · obtain ⟨branch, spells, trees_eq⟩ := branch_written
    refine ⟨.quantified (.group (.lastBranch branch)) [q], ?_, ?_⟩
    · simpa [written, atom, tokens] using spells.grouped.append quantifier
    · simp [trees, trees_eq, choice, canonical.concat_items]

/-- A canonical expression spells a branch, and an item unless it is a sequence. -/
theorem Canonical.writes {tree : Expression} (canonical : tree.Canonical) :
    WrittenAsBranch d tree ∧ (tree.kind ≠ .sequence → WrittenAsItem d tree) := by
  induction canonical with
  | gap g => nomatch g
  | literal c =>
      have item : WrittenAsItem d (.literal c) := writtenAsItem_literal c
      exact ⟨item.branch (by simp [kind]), fun _ => item⟩
  | @sequence items several each flat ih =>
      have nonempty : items ≠ [] := by
        rintro rfl
        simp at several
      obtain ⟨branch, spells, trees_eq⟩ :=
        exists_branch_of_items nonempty fun item member => (ih item member).2 (flat item member)
      refine ⟨⟨branch, by simpa [written] using spells, trees_eq⟩, fun single => ?_⟩
      exact absurd rfl single
  | @alternation branches several each ih =>
      have nonempty : branches ≠ [] := by
        rintro rfl
        simp at several
      obtain ⟨whole, spells, trees_eq⟩ :=
        exists_alternatives_of_branches nonempty each fun branch member => (ih branch member).1
      have item : WrittenAsItem d (.alternation branches) := by
        refine ⟨.quantified (.group whole) [], ?_, ?_⟩
        · simpa [written, tokens] using spells.grouped
        · simp [trees, trees_eq, choice_of_several several]
      exact ⟨item.branch (by simp [kind]), fun _ => item⟩
  | @quantified q body inner ih =>
      have item : WrittenAsItem d (.quantified q body) :=
        writtenAsItem_quantified inner q ih.1 ih.2
      exact ⟨item.branch (by simp [kind]), fun _ => item⟩

end Tree

/-- Reading a written expression gives the expression. -/
theorem read_written
    (d : Dialect) (tree : Expression) (constructed : Tree.Constructed tree) :
    (d.read (tree.written d)).outcome = .ok tree := by
  have canonical := Tree.constructed_iff_canonical.mp constructed
  obtain ⟨branch, spells, trees_eq⟩ := (canonical.writes (d := d)).1
  refine Dialect.outcome_read_eq_ok_iff_derives.mpr
    ⟨branch.tokens, spells.tokens?_eq, .lastBranch branch, rfl, ?_⟩
  simp [Derivation.tree, Derivation.trees, Tree.choice, trees_eq, canonical.concat_items]

/-- A repeated choice between special characters is written in two groups and read back. -/
theorem read_written_repeated_choice :
    Tree.Constructed (.quantified .zeroOrMore (.alternation
        [.literal '(', .quantified .optional (.sequence [.literal '|', .literal 'a'])])) ∧
      (Dialect.standard.read
        ['(', '(', '\\', '(', '|', '(', '\\', '|', 'a', ')', '?', ')', ')', '*']).outcome =
        .ok (.quantified .zeroOrMore (.alternation
          [.literal '(', .quantified .optional (.sequence [.literal '|', .literal 'a'])])) := by
  have items : Tree.Canonical (.sequence [.literal '|', .literal 'a'] : Expression) :=
    .sequence (by simp) (by simpa using ⟨.literal '|', .literal 'a'⟩) (by simp [Tree.kind])
  have choice : Tree.Canonical (.alternation [.literal '(',
      .quantified .optional (.sequence [.literal '|', .literal 'a'])] : Expression) :=
    .alternation (by simp) (by simpa using ⟨.literal '(', .quantified .optional items⟩)
  have constructed := Tree.constructed_iff_canonical.mpr (.quantified .zeroOrMore choice)
  exact ⟨constructed, read_written .standard _ constructed⟩

end PatternMachine
