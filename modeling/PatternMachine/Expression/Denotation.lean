import PatternMachine.Expression.Construction

/-!
# Denotations

The texts that an expression stands for: a literal for its character, a sequence for texts of its
items one after the other, an alternation for the texts of each branch, and a quantified operand
for as many of its texts as the quantifier allows. `denotes_concat_iff` and `denotes_choice_iff`
say that the collapse of sequences and alternations in construction does not change what is
denoted.
-/

namespace PatternMachine.Tree

/-- A text cut into any number of parts that all have a property. -/
inductive Iterated (p : Text → Prop) : Text → Prop where
  | nil : Iterated p []
  | append {first rest : Text} (head : p first) (tail : Iterated p rest) :
      Iterated p (first ++ rest)

mutual

/-- Whether a text belongs to the texts that an expression stands for. -/
def Denotes : Expression → Text → Prop
  | .gap g, _ => nomatch g
  | .literal c, text => text = [c]
  | .sequence items, text => DenotesInTurn items text
  | .alternation branches, text => DenotesSome branches text
  | .quantified .optional body, text => text = [] ∨ Denotes body text
  | .quantified .oneOrMore body, text =>
      ∃ first rest, text = first ++ rest ∧ Denotes body first ∧ Iterated (Denotes body) rest
  | .quantified .zeroOrMore body, text => Iterated (Denotes body) text

/-- Whether a text consists of texts of the given expressions, one after the other. -/
def DenotesInTurn : List Expression → Text → Prop
  | [], text => text = []
  | item :: items, text =>
      ∃ first rest, text = first ++ rest ∧ Denotes item first ∧ DenotesInTurn items rest

def DenotesSome : List Expression → Text → Prop
  | [], _ => False
  | branch :: branches, text => Denotes branch text ∨ DenotesSome branches text

end

theorem denotesSome_iff {branches : List Expression} {text : Text} :
    DenotesSome branches text ↔ ∃ branch ∈ branches, Denotes branch text := by
  induction branches with
  | nil => simp [DenotesSome]
  | cons branch branches ih => simp [DenotesSome, ih]

theorem denotesInTurn_singleton_iff {item : Expression} {text : Text} :
    DenotesInTurn [item] text ↔ Denotes item text := by
  simp [DenotesInTurn]

theorem denotesInTurn_append_iff {left right : List Expression} {text : Text} :
    DenotesInTurn (left ++ right) text ↔
      ∃ first rest,
        text = first ++ rest ∧ DenotesInTurn left first ∧ DenotesInTurn right rest := by
  induction left generalizing text with
  | nil =>
      constructor
      · exact fun turn => ⟨[], text, rfl, rfl, turn⟩
      · rintro ⟨_, rest, rfl, rfl, turn⟩
        exact turn
  | cons item left ih =>
      simp only [List.cons_append, DenotesInTurn, ih]
      constructor
      · rintro ⟨first, _, rfl, head, middle, rest, rfl, turn, tail⟩
        exact ⟨first ++ middle, rest, by simp, ⟨first, middle, rfl, head, turn⟩, tail⟩
      · rintro ⟨_, rest, rfl, ⟨first, middle, rfl, head, turn⟩, tail⟩
        exact ⟨first, middle ++ rest, by simp, head, middle, rest, rfl, turn, tail⟩

/-- The items that an expression contributes to a sequence denote what it denotes. -/
theorem denotesInTurn_items_iff {tree : Expression} {text : Text} :
    DenotesInTurn tree.items text ↔ Denotes tree text := by
  cases tree with
  | sequence parts => exact Iff.rfl
  | _ => exact denotesInTurn_singleton_iff

theorem denotes_concat_iff {operands : List Expression} {text : Text} :
    Denotes (concat operands) text ↔ DenotesInTurn operands text := by
  have in_turn : DenotesInTurn (operands.flatMap items) text ↔ DenotesInTurn operands text := by
    induction operands generalizing text with
    | nil => simp [DenotesInTurn]
    | cons operand operands ih =>
        rw [List.flatMap_cons, denotesInTurn_append_iff]
        simp only [DenotesInTurn, denotesInTurn_items_iff, ih]
  rw [← in_turn]
  unfold concat
  split
  next tree only => rw [only, denotesInTurn_singleton_iff]
  next => simp [Denotes]

theorem denotes_choice_iff {branches : List Expression} {text : Text} :
    Denotes (choice branches) text ↔ ∃ branch ∈ branches, Denotes branch text := by
  rw [← denotesSome_iff]
  unfold choice
  split
  · simp [DenotesSome]
  · simp [Denotes]

end PatternMachine.Tree
