import Mathlib.Algebra.Order.BigOperators.Group.List
import Mathlib.Algebra.Order.Group.Nat
import PatternMachine.Expression.Outline
import PatternMachine.Proofs.Pattern.Beginnings
import PatternMachine.Proofs.Text.Lines

/-!
# Outlines determine expressions

Literals stand in an outline as they are, so a line feed does not tell where the pattern of the
root ends and the lines below it begin. If the patterns of two expressions with the same outline
were different, one would begin with the other. Then the shorter pattern has no more lines below it
than the longer one (`length_blocksBelow_le_of_begins`), which leaves the longer outline too long.
-/

namespace PatternMachine.Tree

theorem Kind.name_injective {kind other : Kind} (same : kind.name = other.name) : kind = other := by
  rcases kind with _ | _ | _ | _ | _ | _ | _ <;> rcases other with _ | _ | _ | _ | _ | _ | _ <;>
    first | rfl | exact absurd same (by decide)

theorem Kind.colon_not_mem_name (kind : Kind) : ':' ∉ kind.name := by
  rcases kind with _ | _ | _ | _ | _ | _ | _ <;> decide

variable {d : Dialect} {depth deeper : Nat} {tree other : Expression}

/-- The lines of an outline that stand for a subtree, each behind a line feed. -/
def block (d : Dialect) (depth : Nat) (tree : Expression) : Text :=
  (outlineEntries d depth tree).flatMap ('\n' :: ·)

def blocksBelow (d : Dialect) (depth : Nat) (tree : Expression) : Text :=
  tree.children.flatMap (block d (depth + 1))

theorem block_eq (d : Dialect) (depth : Nat) (tree : Expression) :
    block d depth tree = '\n' :: (outlineEntry d depth tree ++ blocksBelow d depth tree) := by
  rw [block, outlineEntries_eq, List.flatMap_cons, List.flatMap_assoc]
  rfl

theorem outline_eq (d : Dialect) (tree : Expression) :
    tree.outline d = tree.kind.name ++ ':' :: ' ' :: (tree.written d ++ blocksBelow d 0 tree) := by
  rw [outline, outlineEntries_eq, Text.ofLines_cons, List.flatMap_assoc, outlineEntry,
    List.replicate_zero, List.nil_append, List.append_assoc]
  rfl

/-! ## Lengths of blocks -/

theorem length_flatMap_le {f g : Expression → Text} {trees : List Expression}
    (each : ∀ tree ∈ trees, (f tree).length ≤ (g tree).length) :
    (trees.flatMap f).length ≤ (trees.flatMap g).length := by
  rw [List.length_flatMap, List.length_flatMap]
  exact List.sum_le_sum each

/-- A subtree takes more room the deeper it stands. -/
theorem length_block_le_of_le (deep : depth ≤ deeper) (tree : Expression) :
    (block d depth tree).length ≤ (block d deeper tree).length := by
  induction tree using induction_on_children generalizing depth deeper with
  | step tree ih =>
      have entry : (outlineEntry d depth tree).length ≤ (outlineEntry d deeper tree).length := by
        simp only [outlineEntry, List.length_append, List.length_replicate]
        omega
      have children : (blocksBelow d depth tree).length ≤ (blocksBelow d deeper tree).length :=
        length_flatMap_le fun child member => ih child member (Nat.succ_le_succ deep)
      simp only [block_eq, List.length_cons, List.length_append]
      omega

theorem length_blocksBelow_le_block (tree : Expression) :
    (blocksBelow d depth tree).length ≤ (block d depth tree).length := by
  simp only [block_eq, List.length_cons, List.length_append]
  omega

theorem blocksBelow_quantified (q : Quantifier) (body : Expression) :
    blocksBelow d depth (.quantified q body) = block d (depth + 1) body := by
  simp [blocksBelow, children]

theorem le_quantifiedBy
    (measure : Expression → Nat) (grows : ∀ q tree, measure tree ≤ measure (.quantified q tree))
    (quantifiers : List Quantifier) (tree : Expression) :
    measure tree ≤ measure (quantifiedBy quantifiers tree) := by
  induction quantifiers generalizing tree with
  | nil => exact Nat.le_refl _
  | cons q quantifiers ih => exact Nat.le_trans (grows q tree) (ih (.quantified q tree))

theorem length_block_le_quantified (q : Quantifier) (tree : Expression) :
    (block d depth tree).length ≤ (block d depth (.quantified q tree)).length :=
  calc
    (block d depth tree).length ≤ (block d (depth + 1) tree).length :=
      length_block_le_of_le (Nat.le_succ depth) tree
    _ = (blocksBelow d depth (.quantified q tree)).length := by rw [blocksBelow_quantified]
    _ ≤ (block d depth (.quantified q tree)).length := length_blocksBelow_le_block _

theorem length_blocksBelow_le_quantified (q : Quantifier) (tree : Expression) :
    (blocksBelow d depth tree).length ≤ (blocksBelow d depth (.quantified q tree)).length :=
  calc
    (blocksBelow d depth tree).length ≤ (block d depth tree).length :=
      length_blocksBelow_le_block tree
    _ ≤ (block d (depth + 1) tree).length := length_block_le_of_le (Nat.le_succ depth) tree
    _ = (blocksBelow d depth (.quantified q tree)).length := by rw [blocksBelow_quantified]

theorem Begins.length_blocks_le
    {items others : List Expression} (begins : Begins items others) :
    (items.flatMap (block d depth)).length ≤ (others.flatMap (block d depth)).length := by
  induction begins with
  | last tree quantifiers more =>
      have grown := le_quantifiedBy (fun tree => (block d depth tree).length)
        length_block_le_quantified quantifiers tree
      simp only [List.flatMap_cons, List.flatMap_nil, List.length_append, List.length_nil]
      omega
  | item tree _ ih =>
      simp only [List.flatMap_cons, List.length_append]
      omega

/-- An expression whose pattern begins that of another of its kind has no more lines below it. -/
theorem length_blocksBelow_le_of_begins
    (kind_eq : tree.kind = other.kind) (begins : Begins tree.items other.items) :
    (blocksBelow d 0 tree).length ≤ (blocksBelow d 0 other).length := by
  by_cases several : tree.kind = .sequence
  · cases tree with
    | sequence items =>
        cases other with
        | sequence others => exact begins.length_blocks_le
        | _ => cases kind_eq
    | _ => cases several
  · rw [items_of_kind_ne several, items_of_kind_ne (kind_eq ▸ several)] at begins
    cases begins with
    | last _ quantifiers _ =>
        exact le_quantifiedBy (fun tree => (blocksBelow d 0 tree).length)
          length_blocksBelow_le_quantified quantifiers tree
    | item _ behind => cases behind

/-! ## One expression for an outline -/

/-- A pattern with lines behind it that begins another one with its lines is the other one. -/
theorem Canonical.written_eq_of_begins
    (canonical : tree.Canonical) (other_canonical : other.Canonical)
    (kind_eq : tree.kind = other.kind) (begins : tree.written d <+: other.written d)
    (same : tree.written d ++ blocksBelow d 0 tree = other.written d ++ blocksBelow d 0 other) :
    tree.written d = other.written d := by
  have fewer := length_blocksBelow_le_of_begins (d := d) kind_eq
    (canonical.begins_of_written other_canonical begins)
  have lengths := congrArg List.length same
  rw [List.length_append, List.length_append] at lengths
  exact begins.eq_of_length_le (by omega)

theorem kind_eq_of_outline_eq (same : tree.outline d = other.outline d) :
    tree.kind = other.kind := by
  rw [outline_eq, outline_eq] at same
  have parts := congrArg (List.splitOn ':') same
  rw [List.splitOn_append_cons_self_of_not_mem tree.kind.colon_not_mem_name,
    List.splitOn_append_cons_self_of_not_mem other.kind.colon_not_mem_name] at parts
  exact Kind.name_injective (List.cons.inj parts).1

/-- Constructed expressions have the same outline only if they are equal. -/
theorem outline_determines_expression
    (d : Dialect) (tree other : Expression)
    (constructed : Constructed tree) (other_constructed : Constructed other) :
    tree.outline d = other.outline d ↔ tree = other := by
  have canonical := constructed_iff_canonical.mp constructed
  have other_canonical := constructed_iff_canonical.mp other_constructed
  constructor
  · intro same
    have kind_eq := kind_eq_of_outline_eq same
    rw [outline_eq, outline_eq, kind_eq] at same
    have texts_eq :
        tree.written d ++ blocksBelow d 0 tree = other.written d ++ blocksBelow d 0 other :=
      (List.cons.inj (List.cons.inj (List.append_cancel_left same)).2).2
    refine canonical.written_injective other_canonical (d := d) ?_
    -- of two beginnings of one text, one is the beginning of the other
    rcases List.prefix_or_prefix_of_prefix (texts_eq ▸ List.prefix_append _ _)
      (List.prefix_append (other.written d) _) with begins | begins
    · exact canonical.written_eq_of_begins other_canonical kind_eq begins texts_eq
    · exact (other_canonical.written_eq_of_begins canonical kind_eq.symm begins texts_eq.symm).symm
  · rintro rfl
    rfl

/-- The pattern of a quantified line feed begins that of one quantified twice. -/
theorem outlines_of_quantified_line_feeds :
    (Tree.quantified .optional (.literal '\n') : Expression).outline .standard ≠
      (Tree.quantified .optional (.quantified .optional (.literal '\n')) : Expression).outline
        .standard := by
  have line_feed : Constructed (.literal '\n') :=
    .literal (literal?_eq_ok_iff.mpr ⟨'\n', rfl, rfl⟩)
  have once : Constructed (.quantified .optional (.literal '\n')) := .quantified .optional line_feed
  have determined :=
    outline_determines_expression .standard _ _ once (.quantified .optional once)
  exact fun same => absurd (determined.mp same) (by decide)

end PatternMachine.Tree
