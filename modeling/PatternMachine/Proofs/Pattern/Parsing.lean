import PatternMachine.Proofs.Pattern.TokenStack

/-!
# Tokens that are read are derived

A stack reads tokens to a tree if and only if they have a derivation of this tree.
`Derivation.reads` follows a derivation and says what each part leaves on the stack. Conversely,
`Held` says which derivations stand behind a stack, and every token that fits extends them.
-/

namespace PatternMachine

namespace Derivation

theorem exists_trees_atom (atom : Derivation .atom) : ∃ tree, atom.trees = [tree] := by
  cases atom with
  | literal c => exact ⟨.literal c, rfl⟩
  | group inner => exact ⟨Tree.choice inner.trees, rfl⟩

theorem foldlM_feed_quantifiers
    (quantifiers : List Quantifier) (branches operands : List Expression) (tree : Expression)
    (around : List Assembly) :
    (quantifiers.map Token.quantifier).foldlM TokenStack.feed
        ⟨⟨branches, tree :: operands⟩, around⟩ =
      some ⟨⟨branches,
        quantifiers.foldl (fun body q => .quantified q body) tree :: operands⟩, around⟩ := by
  induction quantifiers generalizing tree with
  | nil => rfl
  | cons q quantifiers ih => exact ih (.quantified q tree)

/--
What reading the tokens of a part does to a stack: alternatives make the branches of an empty
assembly, and every other part adds operands to the current branch.
-/
def Reads : Part → List Token → List Expression → Prop
  | .alternatives, tokens, trees =>
      ∀ branches around, ∃ assembly : Assembly,
        tokens.foldlM TokenStack.feed ⟨⟨branches, []⟩, around⟩ = some ⟨assembly, around⟩ ∧
          assembly.operands ≠ [] ∧
          (assembly.branch :: assembly.branches).reverse = branches.reverse ++ trees
  | _, tokens, trees =>
      ∀ branches operands around,
        tokens.foldlM TokenStack.feed ⟨⟨branches, operands⟩, around⟩ =
          some ⟨⟨branches, trees.reverse ++ operands⟩, around⟩

theorem reads {part : Part} (derivation : Derivation part) :
    Reads part derivation.tokens derivation.trees := by
  induction derivation with
  | literal c => exact fun branches operands around => rfl
  | group inner ih =>
      intro branches operands around
      obtain ⟨assembly, read, nonempty, trees_eq⟩ := ih [] (⟨branches, operands⟩ :: around)
      have closed : TokenStack.feed ⟨assembly, ⟨branches, operands⟩ :: around⟩ .groupEnd =
          some ⟨⟨branches, Tree.choice inner.trees :: operands⟩, around⟩ := by
        refine TokenStack.feed_groupEnd_eq_some_iff.mpr ⟨_, _, rfl, nonempty, ?_⟩
        rw [trees_eq]
        rfl
      calc
        (tokens (.group inner)).foldlM TokenStack.feed ⟨⟨branches, operands⟩, around⟩ =
            (inner.tokens ++ [Token.groupEnd]).foldlM TokenStack.feed
              ⟨⟨[], []⟩, ⟨branches, operands⟩ :: around⟩ := rfl
        _ = some ⟨⟨branches, Tree.choice inner.trees :: operands⟩, around⟩ := by
            rw [List.foldlM_append, read]
            simpa using closed
  | quantified atom quantifiers ih =>
      intro branches operands around
      obtain ⟨tree, single⟩ := atom.exists_trees_atom
      have read := ih branches operands around
      rw [tokens, List.foldlM_append, read, trees, single]
      exact foldlM_feed_quantifiers quantifiers branches operands tree around
  | lastItem item ih => exact ih
  | items item others item_ih others_ih =>
      intro branches operands around
      have read := item_ih branches operands around
      rw [tokens, List.foldlM_append, read, trees, List.reverse_append, List.append_assoc]
      exact others_ih branches (item.trees.reverse ++ operands) around
  | lastBranch branch ih =>
      intro branches around
      refine ⟨⟨branches, branch.trees.reverse ++ []⟩, ih branches [] around, ?_, ?_⟩
      · simpa using branch.canonical.1
      · simp [trees, Assembly.branch]
  | branches branch others branch_ih others_ih =>
      intro branches around
      have read := branch_ih branches [] around
      obtain ⟨assembly, others_read, nonempty, trees_eq⟩ :=
        others_ih (Tree.concat branch.trees :: branches) around
      refine ⟨assembly, ?_, nonempty, by simpa [trees] using trees_eq⟩
      have united : TokenStack.feed ⟨⟨branches, branch.trees.reverse ++ []⟩, around⟩ .union =
          some ⟨⟨Tree.concat branch.trees :: branches, []⟩, around⟩ := by
        refine TokenStack.feed_union_eq_some_iff.mpr ⟨by simpa using branch.canonical.1, ?_⟩
        simp [Assembly.branch]
      rw [tokens, List.foldlM_append, read]
      simp only [Option.bind_eq_bind, Option.bind_some, List.foldlM_cons, united]
      exact others_read

theorem read_tokens (whole : Derivation .alternatives) :
    TokenStack.read whole.tokens = some whole.tree := by
  obtain ⟨assembly, read, nonempty, trees_eq⟩ := whole.reads [] []
  unfold TokenStack.read
  apply (congrArg (Option.bind · TokenStack.finish) read).trans
  refine TokenStack.finish_eq_some_iff.mpr ⟨rfl, nonempty, ?_⟩
  rw [trees_eq]
  rfl

/-! ## Derivations that are extended at their end -/

def addItem : Derivation .branch → Derivation .item → Derivation .branch
  | .lastItem first, item => .items first (.lastItem item)
  | .items first others, item => .items first (others.addItem item)

@[simp]
theorem tokens_addItem :
    (branch : Derivation .branch) → (item : Derivation .item) →
      (branch.addItem item).tokens = branch.tokens ++ item.tokens
  | .lastItem _, _ => by simp [addItem, tokens]
  | .items first others, item => by simp [addItem, tokens, tokens_addItem others item]

@[simp]
theorem trees_addItem :
    (branch : Derivation .branch) → (item : Derivation .item) →
      (branch.addItem item).trees = branch.trees ++ item.trees
  | .lastItem _, _ => by simp [addItem, trees]
  | .items first others, item => by simp [addItem, trees, trees_addItem others item]

def addQuantifier : Derivation .branch → Quantifier → Derivation .branch
  | .lastItem (.quantified atom quantifiers), q => .lastItem (.quantified atom (quantifiers ++ [q]))
  | .items first others, q => .items first (others.addQuantifier q)

@[simp]
theorem tokens_addQuantifier :
    (branch : Derivation .branch) → (q : Quantifier) →
      (branch.addQuantifier q).tokens = branch.tokens ++ [.quantifier q]
  | .lastItem (.quantified _ _), _ => by simp [addQuantifier, tokens]
  | .items first others, q => by simp [addQuantifier, tokens, tokens_addQuantifier others q]

theorem trees_addQuantifier :
    (branch : Derivation .branch) → (q : Quantifier) → ∃ earlier tree,
      branch.trees = earlier ++ [tree] ∧
        (branch.addQuantifier q).trees = earlier ++ [.quantified q tree]
  | .lastItem (.quantified atom quantifiers), q => by
      obtain ⟨tree, single⟩ := atom.exists_trees_atom
      exact ⟨[], quantifiers.foldl (fun body q => .quantified q body) tree,
        by simp [trees, single], by simp [addQuantifier, trees, single]⟩
  | .items first others, q => by
      obtain ⟨earlier, tree, trees_eq, wrapped⟩ := others.trees_addQuantifier q
      exact ⟨first.trees ++ earlier, tree, by simp [trees, trees_eq],
        by simp [addQuantifier, trees, wrapped]⟩

def addBranch : Derivation .alternatives → Derivation .branch → Derivation .alternatives
  | .lastBranch first, branch => .branches first (.lastBranch branch)
  | .branches first others, branch => .branches first (others.addBranch branch)

@[simp]
theorem tokens_addBranch :
    (whole : Derivation .alternatives) → (branch : Derivation .branch) →
      (whole.addBranch branch).tokens = whole.tokens ++ .union :: branch.tokens
  | .lastBranch _, _ => by simp [addBranch, tokens]
  | .branches first others, branch => by simp [addBranch, tokens, tokens_addBranch others branch]

@[simp]
theorem trees_addBranch :
    (whole : Derivation .alternatives) → (branch : Derivation .branch) →
      (whole.addBranch branch).trees = whole.trees ++ [Tree.concat branch.trees]
  | .lastBranch _, _ => by simp [addBranch, trees]
  | .branches first others, branch => by simp [addBranch, trees, trees_addBranch others branch]

end Derivation

/-! ## What stands behind a stack -/

def Items (tokens : List Token) (operands : List Expression) : Prop :=
  tokens = [] ∧ operands = [] ∨
    ∃ branch : Derivation .branch, branch.tokens = tokens ∧ branch.trees = operands.reverse

def Finished (tokens : List Token) (branches : List Expression) : Prop :=
  tokens = [] ∧ branches = [] ∨
    ∃ whole : Derivation .alternatives,
      whole.tokens ++ [.union] = tokens ∧ whole.trees = branches.reverse

def Assembled (tokens : List Token) (assembly : Assembly) : Prop :=
  ∃ finished current, finished ++ current = tokens ∧
    Finished finished assembly.branches ∧ Items current assembly.operands

/-- Whether tokens make a stack: those of the open groups stand between beginnings of groups. -/
inductive Held : List Token → TokenStack → Prop where
  | outside {tokens : List Token} {assembly : Assembly}
      (assembled : Assembled tokens assembly) :
      Held tokens ⟨assembly, []⟩
  | inside {before inner : List Token} {outer assembly : Assembly} {around : List Assembly}
      (held : Held before ⟨outer, around⟩) (assembled : Assembled inner assembly) :
      Held (before ++ .groupBegin :: inner) ⟨assembly, outer :: around⟩

theorem assembled_empty : Assembled [] .empty :=
  ⟨[], [], rfl, .inl ⟨rfl, rfl⟩, .inl ⟨rfl, rfl⟩⟩

namespace Items

variable {tokens : List Token} {operands : List Expression}

theorem push
    (items : Items tokens operands) {item : Derivation .item} {tree : Expression}
    (single : item.trees = [tree]) :
    Items (tokens ++ item.tokens) (tree :: operands) := by
  rcases items with ⟨rfl, rfl⟩ | ⟨branch, rfl, trees_eq⟩
  · exact .inr ⟨.lastItem item, rfl, single⟩
  · exact .inr ⟨branch.addItem item, by simp, by simp [trees_eq, single]⟩

theorem quantify
    {operand : Expression} (items : Items tokens (operand :: operands)) (q : Quantifier) :
    Items (tokens ++ [.quantifier q]) (.quantified q operand :: operands) := by
  rcases items with ⟨_, impossible⟩ | ⟨branch, rfl, trees_eq⟩
  · cases impossible
  · obtain ⟨earlier, tree, cut, wrapped⟩ := branch.trees_addQuantifier q
    rw [cut, List.reverse_cons] at trees_eq
    obtain ⟨rfl, last⟩ := List.append_inj' trees_eq rfl
    cases last
    exact .inr ⟨branch.addQuantifier q, by simp, by simp [wrapped]⟩

end Items

namespace Assembled

variable {tokens : List Token} {assembly : Assembly}

theorem push
    (assembled : Assembled tokens assembly) {item : Derivation .item} {tree : Expression}
    (single : item.trees = [tree]) :
    Assembled (tokens ++ item.tokens) (assembly.push tree) := by
  obtain ⟨finished, current, rfl, done, items⟩ := assembled
  exact ⟨finished, current ++ item.tokens, by simp, done, items.push single⟩

theorem quantify
    {branches operands : List Expression} {operand : Expression}
    (assembled : Assembled tokens ⟨branches, operand :: operands⟩) (q : Quantifier) :
    Assembled (tokens ++ [.quantifier q]) ⟨branches, .quantified q operand :: operands⟩ := by
  obtain ⟨finished, current, rfl, done, items⟩ := assembled
  exact ⟨finished, current ++ [.quantifier q], by simp, done, items.quantify q⟩

theorem exists_derivation
    (assembled : Assembled tokens assembly) (nonempty : assembly.operands ≠ []) :
    ∃ whole : Derivation .alternatives, whole.tokens = tokens ∧
      whole.trees = (assembly.branch :: assembly.branches).reverse := by
  obtain ⟨finished, current, rfl, done, items⟩ := assembled
  rcases items with ⟨_, empty⟩ | ⟨branch, rfl, trees_eq⟩
  · exact absurd empty nonempty
  · rcases done with ⟨rfl, none_finished⟩ | ⟨whole, rfl, branches_eq⟩
    · refine ⟨.lastBranch branch, rfl, ?_⟩
      simp [Derivation.trees, trees_eq, none_finished, Assembly.branch]
    · refine ⟨whole.addBranch branch, by simp, ?_⟩
      simp [trees_eq, branches_eq, Assembly.branch]

theorem union (assembled : Assembled tokens assembly) (nonempty : assembly.operands ≠ []) :
    Assembled (tokens ++ [.union]) ⟨assembly.branch :: assembly.branches, []⟩ := by
  obtain ⟨whole, rfl, trees_eq⟩ := assembled.exists_derivation nonempty
  exact ⟨whole.tokens ++ [.union], [], by simp, .inr ⟨whole, rfl, trees_eq⟩, .inl ⟨rfl, rfl⟩⟩

end Assembled

namespace Held

variable {tokens : List Token} {assembly : Assembly} {around : List Assembly}

/-- The tokens of the innermost open group can be exchanged for others. -/
theorem exists_innermost (held : Held tokens ⟨assembly, around⟩) :
    ∃ before inner, before ++ inner = tokens ∧ Assembled inner assembly ∧
      ∀ {other : List Token} {replaced : Assembly}, Assembled other replaced →
        Held (before ++ other) ⟨replaced, around⟩ := by
  cases held with
  | outside assembled => exact ⟨[], tokens, rfl, assembled, .outside⟩
  | @inside before inner outer _ _ held assembled =>
      refine ⟨before ++ [.groupBegin], inner, by simp, assembled, fun {other _} replacing => ?_⟩
      rw [List.append_assoc]
      exact .inside held replacing

/-- A token that fits extends what stands behind the stack. -/
theorem feed
    {token : Token} {next : TokenStack} (held : Held tokens ⟨assembly, around⟩)
    (fed : TokenStack.feed ⟨assembly, around⟩ token = some next) :
    Held (tokens ++ [token]) next := by
  cases token with
  | literal c =>
      cases fed
      obtain ⟨before, inner, rfl, assembled, exchange⟩ := held.exists_innermost
      rw [List.append_assoc]
      have single : (Derivation.quantified (.literal c) []).trees = [.literal c] := rfl
      exact exchange (assembled.push single)
  | union =>
      obtain ⟨nonempty, rfl⟩ := TokenStack.feed_union_eq_some_iff.mp fed
      obtain ⟨before, inner, rfl, assembled, exchange⟩ := held.exists_innermost
      rw [List.append_assoc]
      exact exchange (assembled.union nonempty)
  | quantifier q =>
      obtain ⟨operand, operands, operands_eq, rfl⟩ := TokenStack.feed_quantifier_eq_some_iff.mp fed
      obtain ⟨before, inner, rfl, assembled, exchange⟩ := held.exists_innermost
      obtain ⟨branches, _⟩ := assembly
      subst operands_eq
      rw [List.append_assoc]
      exact exchange (assembled.quantify q)
  | groupBegin =>
      cases fed
      exact .inside held assembled_empty
  | groupEnd =>
      obtain ⟨outer, rest, rfl, nonempty, rfl⟩ := TokenStack.feed_groupEnd_eq_some_iff.mp fed
      cases held with
      | @inside front inner _ _ _ held assembled =>
          obtain ⟨whole, rfl, trees_eq⟩ := assembled.exists_derivation nonempty
          obtain ⟨before, inner, rfl, assembled, exchange⟩ := held.exists_innermost
          have single : (Derivation.quantified (.group whole) []).trees =
              [Tree.choice (assembly.branch :: assembly.branches).reverse] := by
            rw [← trees_eq]
            rfl
          have pushed := exchange (assembled.push single)
          simpa [Derivation.tokens] using pushed

theorem foldlM_feed
    {stack next : TokenStack} {others : List Token} (held : Held tokens stack)
    (read : others.foldlM TokenStack.feed stack = some next) :
    Held (tokens ++ others) next := by
  induction others generalizing tokens stack with
  | nil =>
      cases read
      simpa using held
  | cons token others ih =>
      rw [List.foldlM_cons] at read
      obtain ⟨middle, fed, read⟩ := Option.bind_eq_some_iff.mp read
      simpa using ih (held.feed fed) read

end Held

/-- Tokens are read to a tree if and only if they are those of a pattern with this tree. -/
theorem TokenStack.read_eq_some_iff {tokens : List Token} {tree : Expression} :
    TokenStack.read tokens = some tree ↔ Derives tokens tree := by
  constructor
  · intro read
    obtain ⟨⟨assembly, around⟩, fed, finished⟩ := Option.bind_eq_some_iff.mp read
    obtain ⟨rfl, nonempty, rfl⟩ := TokenStack.finish_eq_some_iff.mp finished
    have held : Held tokens ⟨assembly, []⟩ := (Held.outside assembled_empty).foldlM_feed fed
    cases held with
    | outside assembled =>
        obtain ⟨whole, tokens_eq, trees_eq⟩ := assembled.exists_derivation nonempty
        exact ⟨whole, tokens_eq, congrArg Tree.choice trees_eq⟩
  · rintro ⟨whole, rfl, rfl⟩
    exact whole.read_tokens

end PatternMachine
