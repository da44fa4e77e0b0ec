import PatternMachine.Dialect.Spelling
import PatternMachine.Proofs.Pattern.Agreement
import PatternMachine.Proofs.Pattern.Parsing
import PatternMachine.Proofs.Pattern.Readability

/-!
# Reading accepts the grammar

A text is read as a pattern if and only if its tokens have a derivation, and what is read is the
tree of the derivation, of which there is only one.
-/

namespace PatternMachine.Dialect

variable {d : Dialect} {text : Text}

theorem outcome_read_eq_ok_iff_derives {tree : Expression} :
    (d.read text).outcome = .ok tree ↔
      ∃ tokens, d.tokens? text = some tokens ∧ Derives tokens tree := by
  have same_option : d.readOnce text = .ok tree ↔ (d.readOnce text).toOption = some tree := by
    cases d.readOnce text <;> simp [Except.toOption]
  rw [outcome_read_eq_ok_iff, same_option, toOption_readOnce, Option.bind_eq_some_iff]
  simp only [TokenStack.read_eq_some_iff]

/--
A text is read if and only if its tokens have a derivation; then the derivation is unique, and its
tree is what is read.
-/
theorem read_iff_exists_derivation (d : Dialect) (text : Text) :
    ((∃ tree, (d.read text).outcome = .ok tree) ↔
        ∃ whole : Derivation .alternatives, d.tokens? text = some whole.tokens) ∧
      ∀ whole : Derivation .alternatives, d.tokens? text = some whole.tokens →
        (d.read text).outcome = .ok whole.tree ∧
          ∀ other : Derivation .alternatives,
            d.tokens? text = some other.tokens → other = whole := by
  constructor
  · constructor
    · rintro ⟨tree, read⟩
      obtain ⟨_, tokens_eq, whole, rfl, _⟩ := outcome_read_eq_ok_iff_derives.mp read
      exact ⟨whole, tokens_eq⟩
    · rintro ⟨whole, tokens_eq⟩
      exact ⟨whole.tree, outcome_read_eq_ok_iff_derives.mpr ⟨_, tokens_eq, whole, rfl, rfl⟩⟩
  · intro whole tokens_eq
    constructor
    · exact outcome_read_eq_ok_iff_derives.mpr ⟨_, tokens_eq, whole, rfl, rfl⟩
    · intro other other_eq
      exact Derivation.eq_of_tokens_eq (Option.some.inj (other_eq.symm.trans tokens_eq))

/-- An escaped union is a literal, and the first of two quantifiers wraps its group first. -/
theorem read_escaped_union_and_group :
    (standard.read ['a', '\\', '|', '(', 'b', '|', 'c', ')', '*', '?']).outcome =
      .ok (.sequence [.literal 'a', .literal '|', .quantified .optional
        (.quantified .zeroOrMore (.alternation [.literal 'b', .literal 'c']))]) := by
  let single (c : Char) : Derivation .item := .quantified (.literal c) []
  let group : Derivation .atom :=
    .group (.branches (.lastItem (single 'b')) (.lastBranch (.lastItem (single 'c'))))
  let whole : Derivation .alternatives := .lastBranch (.items (single 'a') (.items (single '|')
    (.lastItem (.quantified group [.zeroOrMore, .optional]))))
  have tokens_eq : standard.tokens? ['a', '\\', '|', '(', 'b', '|', 'c', ')', '*', '?'] =
      some whole.tokens := by
    cbv
  exact ((read_iff_exists_derivation standard _).2 whole tokens_eq).1

end PatternMachine.Dialect
