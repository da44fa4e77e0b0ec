import PatternMachine.Proofs.Pattern.Parsing
import PatternMachine.Proofs.Pattern.Readability
import PatternMachine.Proofs.Pattern.RoundTrip

/-!
# Beginnings of patterns

If one written expression is the beginning of another, both have the same items up to the last item
of the first, which may have further quantifiers in the second, and more items may follow
(`Canonical.begins_of_written`). In particular a written expression has one reading.
-/

namespace PatternMachine

namespace Tree

def quantifiedBy (quantifiers : List Quantifier) (tree : Expression) : Expression :=
  quantifiers.foldl (fun body q => .quantified q body) tree

/-- Whether items are the beginning of others, of which the last may go on with quantifiers. -/
inductive Begins : List Expression → List Expression → Prop where
  | last (tree : Expression) (quantifiers : List Quantifier) (more : List Expression) :
      Begins [tree] (quantifiedBy quantifiers tree :: more)
  | item (tree : Expression) {items others : List Expression} (behind : Begins items others) :
      Begins (tree :: items) (tree :: others)

end Tree

namespace Derivation

open PatternMachine.Tree (quantifiedBy Begins)

theorem exists_append_of_quantifiers
    {quantifiers others : List Quantifier} {rest rest' : List Token}
    (same : quantifiers.map Token.quantifier ++ rest = others.map Token.quantifier ++ rest')
    (ends' : EndsBefore .item rest') :
    ∃ more, others = quantifiers ++ more := by
  induction quantifiers generalizing others with
  | nil => exact ⟨others, rfl⟩
  | cons q quantifiers ih =>
      cases others with
      | nil =>
          subst same
          exact absurd rfl (ends' (.quantifier q) rfl q)
      | cons r others =>
          simp only [List.map_cons, List.cons_append, List.cons.injEq,
            Token.quantifier.injEq] at same
          obtain ⟨more, rfl⟩ := ih same.2
          exact ⟨more, by rw [same.1, List.cons_append]⟩

theorem exists_quantifiedBy_of_append_eq
    {first second : Derivation .item} {rest rest' : List Token}
    (same : first.tokens ++ rest = second.tokens ++ rest') (ends' : EndsBefore .item rest') :
    ∃ tree quantifiers, first.trees = [tree] ∧ second.trees = [quantifiedBy quantifiers tree] := by
  cases first with
  | quantified atom quantifiers =>
      cases second with
      | quantified other others =>
          simp only [tokens, List.append_assoc] at same
          obtain ⟨rfl, behind⟩ := eq_of_append_eq same (fun _ _ => trivial) (fun _ _ => trivial)
          obtain ⟨more, rfl⟩ := exists_append_of_quantifiers behind ends'
          obtain ⟨tree, only⟩ := atom.exists_trees_atom
          refine ⟨quantifiedBy quantifiers tree, more, ?_, ?_⟩
          · simp [trees, only, quantifiedBy]
          · simp [trees, only, quantifiedBy, List.foldl_append]

theorem exists_trees_item (item : Derivation .item) : ∃ tree, item.trees = [tree] := by
  cases item with
  | quantified atom quantifiers =>
      obtain ⟨tree, only⟩ := atom.exists_trees_atom
      exact ⟨_, by rw [trees, only]; rfl⟩

theorem endsBefore_tokens {part : Part} (next : Derivation part) :
    EndsBefore .item next.tokens := by
  simpa using endsBefore_tokens_append next []

/-- The items of a branch begin those of a branch that goes on behind its tokens. -/
theorem begins_of_append_eq :
    (first second : Derivation .branch) → (rest : List Token) →
      first.tokens ++ rest = second.tokens → Begins first.trees second.trees
  | .lastItem item, .lastItem other, rest, same => by
      have same : item.tokens ++ rest = other.tokens ++ [] := by simpa [tokens] using same
      obtain ⟨tree, quantifiers, tree_eq, other_eq⟩ :=
        exists_quantifiedBy_of_append_eq same (by simp [EndsBefore])
      rw [trees, trees, tree_eq, other_eq]
      exact .last tree quantifiers []
  | .lastItem item, .items other others, rest, same => by
      obtain ⟨tree, quantifiers, tree_eq, other_eq⟩ :=
        exists_quantifiedBy_of_append_eq same others.endsBefore_tokens
      rw [trees, trees, tree_eq, other_eq]
      exact .last tree quantifiers others.trees
  | .items item next, .lastItem other, rest, same => by
      have same : item.tokens ++ (next.tokens ++ rest) = other.tokens ++ [] := by
        simpa [tokens] using same
      obtain ⟨_, behind⟩ :=
        eq_of_append_eq same (endsBefore_tokens_append next rest) (by simp [EndsBefore])
      -- the only item of the second branch would leave nothing for the other items of the first
      have nothing : EndsBefore .branch (next.tokens ++ rest) := by simp [behind, EndsBefore]
      exact absurd nothing (not_endsBefore_tokens_append next rest)
  | .items item next, .items other others, rest, same => by
      have same : item.tokens ++ (next.tokens ++ rest) = other.tokens ++ others.tokens := by
        simpa [tokens] using same
      obtain ⟨rfl, behind⟩ :=
        eq_of_append_eq same (endsBefore_tokens_append next rest) others.endsBefore_tokens
      obtain ⟨tree, only⟩ := item.exists_trees_item
      rw [trees, trees, only]
      exact .item tree (begins_of_append_eq next others rest behind)

end Derivation

namespace Tree

variable {d : Dialect} {tree other : Expression}

/-- The items of a written expression begin those of a written expression that goes on with it. -/
theorem Canonical.begins_of_written
    (canonical : tree.Canonical) (other_canonical : other.Canonical)
    (begins : tree.written d <+: other.written d) :
    Begins tree.items other.items := by
  obtain ⟨rest, whole⟩ := begins
  obtain ⟨branch, spells, trees_eq⟩ := (canonical.writes (d := d)).1
  obtain ⟨longer, other_spells, others_eq⟩ := (other_canonical.writes (d := d)).1
  have tokens_eq := (spells rest).symm.trans (whole ▸ other_spells.tokens?_eq)
  obtain ⟨behind, _, extended⟩ := Option.map_eq_some_iff.mp tokens_eq
  rw [← trees_eq, ← others_eq]
  exact Derivation.begins_of_append_eq branch longer behind extended

theorem Canonical.written_injective
    (canonical : tree.Canonical) (other_canonical : other.Canonical)
    (same : tree.written d = other.written d) :
    tree = other := by
  obtain ⟨branch, spells, trees_eq⟩ := (canonical.writes (d := d)).1
  obtain ⟨second, other_spells, others_eq⟩ := (other_canonical.writes (d := d)).1
  have tokens_eq := spells.tokens?_eq.symm.trans (same ▸ other_spells.tokens?_eq)
  have branch_eq := Derivation.eq_of_tokens_eq (Option.some.inj tokens_eq)
  rw [← canonical.concat_items, ← trees_eq, branch_eq, others_eq, other_canonical.concat_items]

end Tree

end PatternMachine
