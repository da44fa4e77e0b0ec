import PatternMachine.Dialect.Role

/-!
# Pattern trees

A pattern denotes a tree of literals, sequences, alternations and quantified operands. A tree
may have gaps, which stand for an operand that is left open: an `Expression` has none, a `Draft`
may have some. `Tree.induction` is the induction principle over trees, in which the hypothesis
for a node covers all its children. `agrees_iff_eq` says that comparing two expressions decides
their equality, and `closed?_ofExpression` that an expression is a draft without gaps.
-/

namespace PatternMachine

/-- A pattern tree with characters and gaps of type `γ` at its leaves. -/
inductive Tree (γ : Type) where
  | gap (g : γ)
  | literal (c : Char)
  | sequence (items : List (Tree γ))
  | alternation (branches : List (Tree γ))
  | quantified (q : Quantifier) (body : Tree γ)

abbrev Expression := Tree Empty

/-- A pattern tree in which operands may be left open. -/
abbrev Draft := Tree Unit

namespace Tree

variable {γ δ : Type}

/-- Induction over trees with one hypothesis for all children of a node. -/
@[elab_as_elim, induction_eliminator]
theorem induction
    {motive : Tree γ → Prop}
    (gap : ∀ g, motive (.gap g))
    (literal : ∀ c, motive (.literal c))
    (sequence : ∀ items, (∀ item ∈ items, motive item) → motive (.sequence items))
    (alternation :
      ∀ branches, (∀ branch ∈ branches, motive branch) → motive (.alternation branches))
    (quantified : ∀ q body, motive body → motive (.quantified q body))
    (tree : Tree γ) :
    motive tree :=
  Tree.rec (motive_2 := fun trees => ∀ tree ∈ trees, motive tree)
    gap literal sequence alternation quantified
    (fun _ member => nomatch member)
    (fun _ _ first rest _ member => by
      rcases List.mem_cons.mp member with rfl | member
      · exact first
      · exact rest _ member)
    tree

inductive Kind where
  | gap
  | literal
  | sequence
  | alternation
  | quantified (q : Quantifier)
  deriving DecidableEq

def Kind.name : Kind → Text
  | .gap => "Regex".toList
  | .literal => "Literal".toList
  | .sequence => "Sequence".toList
  | .alternation => "Alternation".toList
  | .quantified q => q.name

def kind : Tree γ → Kind
  | .gap _ => .gap
  | .literal _ => .literal
  | .sequence _ => .sequence
  | .alternation _ => .alternation
  | .quantified q _ => .quantified q

def children : Tree γ → List (Tree γ)
  | .gap _ => []
  | .literal _ => []
  | .sequence items => items
  | .alternation branches => branches
  | .quantified _ body => [body]

@[elab_as_elim]
theorem induction_on_children
    {motive : Tree γ → Prop}
    (step : ∀ tree, (∀ child ∈ tree.children, motive child) → motive tree) (tree : Tree γ) :
    motive tree := by
  induction tree using Tree.induction with
  | gap g => exact step _ fun child member => nomatch member
  | literal c => exact step _ fun child member => nomatch member
  | sequence items ih => exact step _ ih
  | alternation branches ih => exact step _ ih
  | quantified q body ih => exact step _ fun child member => List.mem_singleton.mp member ▸ ih

/-- Whether a quantifier may follow the written tree without a group around it. -/
def isAtom : Tree γ → Bool
  | .literal _ => true
  | .quantified _ _ => true
  | _ => false

mutual

/-- Whether two trees are the same up to gaps: a gap agrees with every tree. -/
def agrees : Tree γ → Tree δ → Bool
  | .gap _, _ => true
  | _, .gap _ => true
  | .literal c, .literal d => c = d
  | .sequence items, .sequence others => agreesAll items others
  | .alternation branches, .alternation others => agreesAll branches others
  | .quantified q body, .quantified r other => q = r && agrees body other
  | _, _ => false

def agreesAll : List (Tree γ) → List (Tree δ) → Bool
  | [], [] => true
  | tree :: trees, other :: others => agrees tree other && agreesAll trees others
  | _, _ => false

end

mutual

def closed? : Tree γ → Option Expression
  | .gap _ => none
  | .literal c => some (.literal c)
  | .sequence items => (closedAll? items).map .sequence
  | .alternation branches => (closedAll? branches).map .alternation
  | .quantified q body => (closed? body).map (.quantified q)

def closedAll? : List (Tree γ) → Option (List Expression)
  | [] => some []
  | tree :: trees => do
      let tree ← closed? tree
      let trees ← closedAll? trees
      return tree :: trees

end

mutual

def ofExpression : Expression → Tree γ
  | .gap g => nomatch g
  | .literal c => .literal c
  | .sequence items => .sequence (ofExpressions items)
  | .alternation branches => .alternation (ofExpressions branches)
  | .quantified q body => .quantified q (ofExpression body)

def ofExpressions : List Expression → List (Tree γ)
  | [] => []
  | tree :: trees => ofExpression tree :: ofExpressions trees

end

theorem agreesAll_iff_eq
    {trees others : List Expression}
    (each : ∀ tree ∈ trees, ∀ other, agrees tree other = true ↔ tree = other) :
    agreesAll trees others = true ↔ trees = others := by
  induction trees generalizing others with
  | nil => cases others <;> simp [agreesAll]
  | cons tree trees ih =>
      cases others with
      | nil => simp [agreesAll]
      | cons other others =>
          have first := each tree (by simp) other
          have rest := @ih others fun tree member => each tree (by simp [member])
          simp [agreesAll, first, rest]

theorem agrees_iff_eq {tree other : Expression} : agrees tree other = true ↔ tree = other := by
  induction tree using Tree.induction generalizing other with
  | gap g => nomatch g
  | literal c =>
      rcases other with g | _ | _ | _ | _
      · nomatch g
      all_goals simp [agrees]
  | sequence items ih =>
      rcases other with g | _ | _ | _ | _
      · nomatch g
      all_goals simp [agrees, agreesAll_iff_eq fun item member _ => ih item member]
  | alternation branches ih =>
      rcases other with g | _ | _ | _ | _
      · nomatch g
      all_goals simp [agrees, agreesAll_iff_eq fun branch member _ => ih branch member]
  | quantified q body ih =>
      rcases other with g | _ | _ | _ | _
      · nomatch g
      all_goals simp [agrees, ih]

theorem closedAll?_ofExpressions
    {trees : List Expression}
    (each : ∀ tree ∈ trees, closed? (ofExpression tree : Tree γ) = some tree) :
    closedAll? (ofExpressions trees : List (Tree γ)) = some trees := by
  induction trees with
  | nil => rfl
  | cons tree trees ih =>
      have first := each tree (by simp)
      have rest := ih fun other member => each other (by simp [member])
      simp [ofExpressions, closedAll?, first, rest]

@[simp]
theorem closed?_ofExpression (tree : Expression) :
    closed? (ofExpression tree : Tree γ) = some tree := by
  induction tree using Tree.induction with
  | gap g => nomatch g
  | literal c => rfl
  | sequence items ih => simp [ofExpression, closed?, closedAll?_ofExpressions ih]
  | alternation branches ih => simp [ofExpression, closed?, closedAll?_ofExpressions ih]
  | quantified q body ih => simp [ofExpression, closed?, ih]

instance : DecidableEq Expression := fun tree other =>
  decidable_of_iff (agrees tree other = true) agrees_iff_eq

end Tree

end PatternMachine
