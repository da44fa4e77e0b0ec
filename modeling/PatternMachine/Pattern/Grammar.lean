import PatternMachine.Dialect.Basic
import PatternMachine.Expression.Construction

/-!
# Grammar of patterns

A pattern is a list of tokens: an escape and the character behind it are one literal token, and
every other character is a token by its role. Over tokens, alternatives are branches with unions
between them, a branch is at least one item, an item is an atom with any number of quantifiers
behind it, and an atom is a literal or a group. A derivation shows how tokens make a part of a
pattern and what trees the part stands for; `Derives.canonical` says that the tree of a whole
pattern is in canonical form.
-/

namespace PatternMachine

inductive Token where
  | literal (c : Char)
  | union
  | groupBegin
  | groupEnd
  | quantifier (q : Quantifier)
  deriving DecidableEq

def Token.ofRole (c : Char) : Option Role → Token
  | some .union => .union
  | some .groupBegin => .groupBegin
  | some .groupEnd => .groupEnd
  | some (.quantifier q) => .quantifier q
  | _ => .literal c

/-- The tokens of a text, unless an escape is left over at its end. -/
def Dialect.tokens? (d : Dialect) : Text → Option (List Token)
  | [] => some []
  | c :: rest =>
      if d.role? c = some .escape then
        match rest with
        | [] => none
        | e :: rest => (d.tokens? rest).map (.literal e :: ·)
      else
        (d.tokens? rest).map (Token.ofRole c (d.role? c) :: ·)

inductive Part where
  /-- Branches with unions between them. -/
  | alternatives
  /-- Items one after the other. -/
  | branch
  /-- An atom with the quantifiers behind it. -/
  | item
  /-- A literal or a group. -/
  | atom
  deriving DecidableEq

/-- A derivation of a part of a pattern. -/
inductive Derivation : Part → Type where
  | literal (c : Char) : Derivation .atom
  | group (inner : Derivation .alternatives) : Derivation .atom
  | quantified (atom : Derivation .atom) (quantifiers : List Quantifier) : Derivation .item
  | lastItem (item : Derivation .item) : Derivation .branch
  | items (item : Derivation .item) (others : Derivation .branch) : Derivation .branch
  | lastBranch (branch : Derivation .branch) : Derivation .alternatives
  | branches (branch : Derivation .branch) (others : Derivation .alternatives) :
      Derivation .alternatives

namespace Derivation

def tokens : {part : Part} → Derivation part → List Token
  | _, .literal c => [.literal c]
  | _, .group inner => .groupBegin :: inner.tokens ++ [.groupEnd]
  | _, .quantified atom quantifiers => atom.tokens ++ quantifiers.map .quantifier
  | _, .lastItem item => item.tokens
  | _, .items item others => item.tokens ++ others.tokens
  | _, .lastBranch branch => branch.tokens
  | _, .branches branch others => branch.tokens ++ .union :: others.tokens

/--
The trees of what a part lists: the items of a branch, the branches of alternatives, and one tree
for an atom or an item. The quantifiers of an item wrap its atom from the first to the last.
-/
def trees : {part : Part} → Derivation part → List Expression
  | _, .literal c => [.literal c]
  | _, .group inner => [Tree.choice inner.trees]
  | _, .quantified atom quantifiers =>
      atom.trees.map fun tree => quantifiers.foldl (fun body q => .quantified q body) tree
  | _, .lastItem item => item.trees
  | _, .items item others => item.trees ++ others.trees
  | _, .lastBranch branch => [Tree.concat branch.trees]
  | _, .branches branch others => Tree.concat branch.trees :: others.trees

def tree (whole : Derivation .alternatives) : Expression :=
  Tree.choice whole.trees

theorem canonical {part : Part} (derivation : Derivation part) :
    derivation.trees ≠ [] ∧ ∀ tree ∈ derivation.trees, tree.Canonical := by
  induction derivation with
  | literal c => exact ⟨by simp [trees], by simpa [trees] using .literal c⟩
  | group inner ih =>
      have canonical := Tree.canonical_choice ih.1 ih.2
      exact ⟨by simp [trees], by simpa [trees] using canonical⟩
  | quantified atom quantifiers ih =>
      refine ⟨by simpa [trees] using ih.1, fun tree member => ?_⟩
      obtain ⟨body, inside, rfl⟩ := List.mem_map.mp member
      have canonical := ih.2 body inside
      clear member inside
      induction quantifiers generalizing body with
      | nil => exact canonical
      | cons q quantifiers step => exact step _ (.quantified q canonical)
  | lastItem item ih => exact ih
  | items item others item_ih others_ih =>
      refine ⟨by simp [trees, item_ih.1], fun tree member => ?_⟩
      rcases List.mem_append.mp member with member | member
      · exact item_ih.2 tree member
      · exact others_ih.2 tree member
  | lastBranch branch ih =>
      have canonical := Tree.canonical_concat ih.1 ih.2
      exact ⟨by simp [trees], by simpa [trees] using canonical⟩
  | branches branch others branch_ih others_ih =>
      have canonical := Tree.canonical_concat branch_ih.1 branch_ih.2
      exact ⟨by simp [trees], by simpa [trees] using ⟨canonical, others_ih.2⟩⟩

end Derivation

/-- Whether tokens are those of a pattern with the given tree. -/
def Derives (tokens : List Token) (tree : Expression) : Prop :=
  ∃ derivation : Derivation .alternatives, derivation.tokens = tokens ∧ derivation.tree = tree

theorem Derives.canonical
    {tokens : List Token} {tree : Expression} (derives : Derives tokens tree) :
    tree.Canonical := by
  obtain ⟨derivation, _, rfl⟩ := derives
  exact Tree.canonical_choice derivation.canonical.1 derivation.canonical.2

end PatternMachine
