import PatternMachine.Pattern.Grammar

/-!
# Unique readability

Tokens have at most one derivation. Two derivations are compared with the tokens that follow them:
a part ends where the next token cannot belong to it, so its end is determined by the tokens and
`eq_of_append_eq` compares the parts constructor by constructor.
-/

namespace PatternMachine

/-- Whether a part that has come to an end could not have gone on with the given token. -/
def Part.endsBefore : Part → Token → Prop
  | .alternatives, next => next = .groupEnd
  | .branch, next => next = .groupEnd ∨ next = .union
  | .item, next => ∀ q, next ≠ .quantifier q
  | .atom, _ => True

namespace Derivation

def EndsBefore (part : Part) (rest : List Token) : Prop :=
  ∀ next ∈ rest.head?, part.endsBefore next

theorem head_tokens {part : Part} (derivation : Derivation part) :
    (∃ c rest, derivation.tokens = .literal c :: rest) ∨
      ∃ rest, derivation.tokens = .groupBegin :: rest := by
  induction derivation with
  | literal c => exact .inl ⟨c, [], rfl⟩
  | group inner _ => exact .inr ⟨_, rfl⟩
  | quantified atom quantifiers ih =>
      rcases ih with ⟨c, rest, head⟩ | ⟨rest, head⟩
      · exact .inl ⟨c, rest ++ quantifiers.map .quantifier, by simp [tokens, head]⟩
      · exact .inr ⟨rest ++ quantifiers.map .quantifier, by simp [tokens, head]⟩
  | lastItem item ih => exact ih
  | items item others ih _ =>
      rcases ih with ⟨c, rest, head⟩ | ⟨rest, head⟩
      · exact .inl ⟨c, rest ++ others.tokens, by simp [tokens, head]⟩
      · exact .inr ⟨rest ++ others.tokens, by simp [tokens, head]⟩
  | lastBranch branch ih => exact ih
  | branches branch others ih _ =>
      rcases ih with ⟨c, rest, head⟩ | ⟨rest, head⟩
      · exact .inl ⟨c, rest ++ .union :: others.tokens, by simp [tokens, head]⟩
      · exact .inr ⟨rest ++ .union :: others.tokens, by simp [tokens, head]⟩

theorem quantifiers_eq_of_append_eq
    {quantifiers others : List Quantifier} {rest rest' : List Token}
    (same : quantifiers.map Token.quantifier ++ rest = others.map Token.quantifier ++ rest')
    (ends : EndsBefore .item rest) (ends' : EndsBefore .item rest') :
    quantifiers = others ∧ rest = rest' := by
  induction quantifiers generalizing others with
  | nil =>
      cases others with
      | nil => exact ⟨rfl, same⟩
      | cons q others =>
          subst same
          exact absurd rfl (ends (.quantifier q) rfl q)
  | cons q quantifiers ih =>
      cases others with
      | nil =>
          subst same
          exact absurd rfl (ends' (.quantifier q) rfl q)
      | cons r others =>
          simp only [List.map_cons, List.cons_append, List.cons.injEq,
            Token.quantifier.injEq] at same
          obtain ⟨rfl, rfl⟩ := ih same.2
          exact ⟨by rw [same.1], rfl⟩

theorem EndsBefore.branch {rest : List Token} (ends : EndsBefore .alternatives rest) :
    EndsBefore .branch rest :=
  fun next head => .inl (ends next head)

theorem EndsBefore.item {rest : List Token} (ends : EndsBefore .branch rest) :
    EndsBefore .item rest := by
  intro next head q
  rcases ends next head with rfl | rfl <;> simp

theorem endsBefore_tokens_append {part : Part} (next : Derivation part) (rest : List Token) :
    EndsBefore .item (next.tokens ++ rest) := by
  intro token head q
  rcases next.head_tokens with ⟨c, others, cut⟩ | ⟨others, cut⟩ <;> rw [cut] at head <;>
    cases head <;> simp

theorem not_endsBefore_tokens_append
    {part : Part} (next : Derivation part) (rest : List Token) :
    ¬ EndsBefore .branch (next.tokens ++ rest) := by
  intro ends
  rcases next.head_tokens with ⟨c, others, cut⟩ | ⟨others, cut⟩ <;> rw [cut] at ends <;>
    rcases ends _ rfl with impossible | impossible <;> cases impossible

/-- Two derivations of the same tokens are equal, and so is what follows them. -/
theorem eq_of_append_eq
    {part : Part} {first second : Derivation part} {rest rest' : List Token}
    (same : first.tokens ++ rest = second.tokens ++ rest')
    (ends : EndsBefore part rest) (ends' : EndsBefore part rest') :
    first = second ∧ rest = rest' := by
  induction first generalizing rest rest' with
  | literal c =>
      cases second with
      | literal d =>
          simp only [tokens, List.cons_append, List.nil_append, List.cons.injEq,
            Token.literal.injEq] at same
          exact ⟨by rw [same.1], same.2⟩
      | group inner => simp [tokens] at same
  | group inner ih =>
      cases second with
      | literal d => simp [tokens] at same
      | group other =>
          simp only [tokens, List.cons_append, List.append_assoc, List.nil_append,
            List.cons.injEq, true_and] at same
          obtain ⟨rfl, behind⟩ := ih same (by simp [EndsBefore, Part.endsBefore])
            (by simp [EndsBefore, Part.endsBefore])
          exact ⟨rfl, (List.cons.inj behind).2⟩
  | quantified atom quantifiers ih =>
      cases second with
      | quantified other others =>
          simp only [tokens, List.append_assoc] at same
          obtain ⟨rfl, behind⟩ := ih same (fun _ _ => trivial) (fun _ _ => trivial)
          obtain ⟨rfl, rfl⟩ := quantifiers_eq_of_append_eq behind ends ends'
          exact ⟨rfl, rfl⟩
  | lastItem item ih =>
      cases second with
      | lastItem other =>
          obtain ⟨rfl, rfl⟩ := ih same ends.item ends'.item
          exact ⟨rfl, rfl⟩
      | items other others =>
          simp only [tokens, List.append_assoc] at same
          obtain ⟨_, rfl⟩ := ih same ends.item (endsBefore_tokens_append others rest')
          exact absurd ends (not_endsBefore_tokens_append others rest')
  | items item others item_ih others_ih =>
      simp only [tokens, List.append_assoc] at same
      cases second with
      | lastItem other =>
          obtain ⟨_, rfl⟩ := item_ih same (endsBefore_tokens_append others rest) ends'.item
          exact absurd ends' (not_endsBefore_tokens_append others rest)
      | items other others' =>
          simp only [tokens, List.append_assoc] at same
          obtain ⟨rfl, behind⟩ := item_ih same (endsBefore_tokens_append others rest)
            (endsBefore_tokens_append others' rest')
          obtain ⟨rfl, rfl⟩ := others_ih behind ends ends'
          exact ⟨rfl, rfl⟩
  | lastBranch branch ih =>
      cases second with
      | lastBranch other =>
          obtain ⟨rfl, rfl⟩ := ih same ends.branch ends'.branch
          exact ⟨rfl, rfl⟩
      | branches other others =>
          simp only [tokens, List.append_assoc, List.cons_append] at same
          obtain ⟨_, rfl⟩ := ih same ends.branch (by simp [EndsBefore, Part.endsBefore])
          cases ends .union rfl
  | branches branch others branch_ih others_ih =>
      simp only [tokens, List.append_assoc, List.cons_append] at same
      cases second with
      | lastBranch other =>
          obtain ⟨_, rfl⟩ := branch_ih same (by simp [EndsBefore, Part.endsBefore]) ends'.branch
          cases ends' .union rfl
      | branches other others' =>
          simp only [tokens, List.append_assoc, List.cons_append] at same
          obtain ⟨rfl, behind⟩ := branch_ih same (by simp [EndsBefore, Part.endsBefore])
            (by simp [EndsBefore, Part.endsBefore])
          obtain ⟨rfl, rfl⟩ := others_ih (List.cons.inj behind).2 ends ends'
          exact ⟨rfl, rfl⟩

theorem eq_of_tokens_eq
    {part : Part} {first second : Derivation part} (same : first.tokens = second.tokens) :
    first = second :=
  (eq_of_append_eq (congrArg (· ++ []) same) (by simp [EndsBefore]) (by simp [EndsBefore])).1

end Derivation

end PatternMachine
