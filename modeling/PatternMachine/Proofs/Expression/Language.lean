import Mathlib.Computability.Language
import PatternMachine.Expression.Denotation

/-!
# Languages of expressions

The texts that an expression denotes are a language, and what constructs an expression acts on
languages: operands joined one after the other multiply, a choice adds, and quantifiers are
`Quantifier.applied`.
-/

namespace PatternMachine

open scoped Computability

/-- The texts that a quantifier makes of the texts of its operand. -/
def Quantifier.applied (q : Quantifier) (operand : Language Char) : Language Char :=
  match q with
  | .optional => 1 + operand
  | .oneOrMore => operand * operand∗
  | .zeroOrMore => operand∗

namespace Tree

/-- The texts that an expression denotes. -/
def language (tree : Expression) : Language Char :=
  {text | Denotes tree text}

@[simp]
theorem mem_language {tree : Expression} {text : Text} :
    text ∈ tree.language ↔ Denotes tree text := Iff.rfl

theorem language_literal (c : Char) : language (.literal c) = {[c]} := rfl

theorem iterated_iff_mem_kstar {tree : Expression} {text : Text} :
    Iterated (Denotes tree) text ↔ text ∈ tree.language∗ := by
  rw [Language.mem_kstar]
  constructor
  · intro iterated
    induction iterated with
    | nil => exact ⟨[], rfl, by simp⟩
    | @append first rest head tail ih =>
        obtain ⟨parts, rfl, each⟩ := ih
        exact ⟨first :: parts, rfl, by simpa using ⟨head, each⟩⟩
  · rintro ⟨parts, rfl, each⟩
    induction parts with
    | nil => exact .nil
    | cons first parts ih =>
        exact .append (each first (by simp)) (ih fun part member => each part (by simp [member]))

theorem denotesInTurn_iff_mem_prod {items : List Expression} {text : Text} :
    DenotesInTurn items text ↔ text ∈ (items.map language).prod := by
  induction items generalizing text with
  | nil => exact Iff.rfl
  | cons item items ih =>
      rw [List.map_cons, List.prod_cons, Language.mem_mul]
      constructor
      · rintro ⟨first, rest, rfl, head, tail⟩
        exact ⟨first, head, rest, ih.mp tail, rfl⟩
      · rintro ⟨first, head, rest, tail, rfl⟩
        exact ⟨first, rest, rfl, head, ih.mpr tail⟩

theorem language_concat (operands : List Expression) :
    language (concat operands) = (operands.map language).prod := by
  ext text
  rw [mem_language, denotes_concat_iff, denotesInTurn_iff_mem_prod]

theorem language_choice (branches : List Expression) :
    language (choice branches) = (branches.map language).sum := by
  ext text
  rw [mem_language, denotes_choice_iff]
  induction branches with
  | nil => simp [Language.notMem_zero]
  | cons branch branches ih =>
      rw [List.map_cons, List.sum_cons, Language.mem_add, mem_language, ← ih]
      exact List.exists_mem_cons_iff _ branch branches

theorem language_quantified (q : Quantifier) (body : Expression) :
    language (.quantified q body) = q.applied body.language := by
  ext text
  cases q with
  | optional => exact Iff.rfl
  | zeroOrMore => exact iterated_iff_mem_kstar
  | oneOrMore =>
      simp only [mem_language, Denotes, Quantifier.applied, Language.mem_mul,
        iterated_iff_mem_kstar]
      constructor
      · rintro ⟨first, rest, rfl, head, tail⟩
        exact ⟨first, head, rest, tail, rfl⟩
      · rintro ⟨first, head, rest, tail, rfl⟩
        exact ⟨first, rest, rfl, head, tail⟩

/-- Quantifiers around an expression act on what it denotes, from the innermost to the outermost. -/
theorem language_foldl_quantified (quantifiers : List Quantifier) (tree : Expression) :
    language (quantifiers.foldl (fun body q => .quantified q body) tree) =
      quantifiers.foldl (fun operand q => q.applied operand) tree.language := by
  induction quantifiers generalizing tree with
  | nil => rfl
  | cons q quantifiers ih => rw [List.foldl_cons, ih, language_quantified, List.foldl_cons]

theorem language_concat_literals (text : Text) :
    language (concat (text.map .literal)) = {text} := by
  rw [language_concat]
  induction text with
  | nil => rfl
  | cons c text ih =>
      ext other
      rw [List.map_cons, List.map_cons, List.prod_cons, ih, language_literal, Language.mem_mul]
      constructor
      · rintro ⟨_, rfl, _, rfl, rfl⟩
        rfl
      · rintro rfl
        exact ⟨[c], rfl, text, rfl, rfl⟩

end Tree

end PatternMachine
