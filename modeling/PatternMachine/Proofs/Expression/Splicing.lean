import PatternMachine.Proofs.Expression.Constructed
import PatternMachine.Proofs.Expression.Layout

/-!
# Splicing of alternations

An alternation whose last branch is an alternation has the code of one alternation with all these
branches: behind the jump of the branch before, the code of the last branch continues as that of
further branches would. Splicing does this at every node, from the leaves upwards, and
`code_spliced` says that it keeps the code. Seen from its front, an alternation is a first branch
and the choice between the others (`code_alternation_cons`), and `Canonical.induction_on_front` is
induction in this view.
-/

namespace PatternMachine.Tree

variable {γ : Type}

/-- What a tree contributes to an alternation that it ends: the branches of an alternation, itself
otherwise. -/
def alternatives : Tree γ → List (Tree γ)
  | .alternation branches => branches
  | tree => [tree]

/-- Branches, the last of which makes room for its own ones if it is an alternation. -/
def spliceLast (branches : List (Tree γ)) : List (Tree γ) :=
  match branches.getLast? with
  | some (.alternation inner) => branches.dropLast ++ inner
  | _ => branches

mutual

/-- The tree in which, from the leaves upwards, every alternation whose last branch is an
alternation has the branches of that in its place. -/
def spliced : Tree γ → Tree γ
  | .gap g => .gap g
  | .literal c => .literal c
  | .sequence items => .sequence (splicedAll items)
  | .alternation branches => .alternation (spliceLast (splicedAll branches))
  | .quantified q body => .quantified q (spliced body)

def splicedAll : List (Tree γ) → List (Tree γ)
  | [] => []
  | tree :: trees => spliced tree :: splicedAll trees

end

theorem splicedAll_eq_map (trees : List (Tree γ)) : splicedAll trees = trees.map spliced := by
  induction trees with
  | nil => rfl
  | cons tree trees ih => rw [splicedAll, ih, List.map_cons]

@[simp]
theorem kind_spliced (tree : Tree γ) : tree.spliced.kind = tree.kind := by
  cases tree <;> rfl

theorem spliceLast_concat (branches : List (Tree γ)) (last : Tree γ) :
    spliceLast (branches ++ [last]) = branches ++ last.alternatives := by
  unfold spliceLast
  rw [List.getLast?_concat, List.dropLast_concat]
  cases last <;> rfl

theorem spliceLast_cons {branches : List (Tree γ)} (first : Tree γ) (nonempty : branches ≠ []) :
    spliceLast (first :: branches) = first :: spliceLast branches := by
  obtain ⟨front, last, rfl⟩ := (List.eq_nil_or_concat branches).resolve_left nonempty
  rw [List.concat_eq_append, ← List.cons_append, spliceLast_concat, spliceLast_concat,
    List.cons_append]

theorem alternatives_spliced_choice {branches : List (Tree γ)} (nonempty : branches ≠ []) :
    (choice branches).spliced.alternatives = spliceLast (branches.map spliced) := by
  match branches, nonempty with
  | [branch], _ => exact (spliceLast_concat [] branch.spliced).symm
  | first :: second :: rest, _ =>
      rw [choice, spliced, splicedAll_eq_map, alternatives]
      simp

theorem spliced_alternation_cons
    (first : Tree γ) {others : List (Tree γ)} (nonempty : others ≠ []) :
    spliced (.alternation (first :: others)) =
      .alternation (first.spliced :: (choice others).spliced.alternatives) := by
  rw [alternatives_spliced_choice nonempty, spliced, splicedAll_eq_map, List.map_cons,
    spliceLast_cons _ (by simpa using nonempty)]

namespace Canonical

variable {tree : Expression}

theorem choice_alternatives (canonical : tree.Canonical) : choice tree.alternatives = tree := by
  cases canonical with
  | alternation several _ => exact choice_of_several several
  | _ => rfl

theorem alternatives_ne_nil (canonical : tree.Canonical) : tree.alternatives ≠ [] := by
  cases canonical with
  | alternation several _ =>
      rintro rfl
      cases several
  | _ => simp [alternatives]

theorem of_mem_alternatives
    {branch : Expression} (canonical : tree.Canonical) (member : branch ∈ tree.alternatives) :
    branch.Canonical := by
  cases canonical with
  | gap g => nomatch g
  | literal c => exact List.mem_singleton.mp member ▸ .literal c
  | sequence several each flat => exact List.mem_singleton.mp member ▸ .sequence several each flat
  | alternation _ each => exact each branch member
  | quantified q inner => exact List.mem_singleton.mp member ▸ .quantified q inner

theorem of_mem_of_choice
    {branch : Expression} {branches : List Expression} (canonical : (choice branches).Canonical)
    (member : branch ∈ branches) :
    branch.Canonical := by
  match branches with
  | [only] => exact List.mem_singleton.mp member ▸ canonical
  | first :: second :: rest =>
      cases canonical with
      | alternation _ each => exact each branch member

/-- What carries over from a first branch and the choice between the others to their alternation
holds of a choice if it holds of its branches. -/
theorem choice_of_each
    {motive : Expression → Prop} {branches : List Expression} (nonempty : branches ≠ [])
    (each : ∀ branch ∈ branches, motive branch)
    (step : ∀ first others, others ≠ [] → motive first → motive (choice others) →
      motive (.alternation (first :: others))) :
    motive (choice branches) := by
  induction branches with
  | nil => exact absurd rfl nonempty
  | cons first others ih =>
      have first_holds := each first List.mem_cons_self
      match others with
      | [] => exact first_holds
      | second :: rest =>
          have others_hold := ih (by simp) fun branch member =>
            each branch (List.mem_cons_of_mem first member)
          exact step first (second :: rest) (by simp) first_holds others_hold

/-- Induction over canonical trees that takes an alternation as its first branch and the choice
between the others. -/
@[elab_as_elim]
theorem induction_on_front
    {motive : (tree : Expression) → tree.Canonical → Prop}
    (literal : ∀ c, motive (.literal c) (.literal c))
    (sequence : ∀ (items : List Expression) (several : 2 ≤ items.length)
      (each : ∀ item ∈ items, item.Canonical) (flat : ∀ item ∈ items, item.kind ≠ .sequence),
      (∀ item member, motive item (each item member)) →
        motive (.sequence items) (.sequence several each flat))
    (alternation : ∀ (first : Expression) (others : List Expression)
      (whole : Canonical (.alternation (first :: others)))
      (first_canonical : first.Canonical) (others_canonical : (choice others).Canonical),
      others ≠ [] → motive first first_canonical → motive (choice others) others_canonical →
        motive (.alternation (first :: others)) whole)
    (quantified : ∀ q (body : Expression) (inner : body.Canonical), motive body inner →
      motive (.quantified q body) (.quantified q inner))
    (canonical : tree.Canonical) :
    motive tree canonical := by
  induction canonical with
  | gap g => nomatch g
  | literal c => exact literal c
  | sequence several each flat ih => exact sequence _ several each flat ih
  | @alternation branches several each ih =>
      have some_branch : branches ≠ [] := by
        rintro rfl
        cases several
      obtain ⟨_, holds⟩ : ∃ canonical, motive (choice branches) canonical := by
        refine choice_of_each (motive := fun tree => ∃ canonical, motive tree canonical) some_branch
          (fun branch member => ⟨each branch member, ih branch member⟩) ?_
        rintro first others nonempty ⟨first_canonical, first_holds⟩ ⟨others_canonical, others_hold⟩
        have whole : Canonical (.alternation (first :: others)) := by
          refine .alternation (Nat.succ_le_succ (List.length_pos_iff.mpr nonempty)) ?_
          exact List.forall_mem_cons.mpr
            ⟨first_canonical, fun _ member => of_mem_of_choice others_canonical member⟩
        exact ⟨whole, alternation first others whole first_canonical others_canonical nonempty
          first_holds others_hold⟩
      simp only [choice_of_several several] at holds
      exact holds
  | quantified q inner ih => exact quantified q _ inner ih

theorem spliced (canonical : tree.Canonical) : tree.spliced.Canonical := by
  induction canonical using induction_on_front with
  | literal c => exact .literal c
  | sequence items several each flat ih =>
      rw [Tree.spliced, splicedAll_eq_map]
      refine .sequence (by simpa using several) ?_ ?_
      · simpa using ih
      · simpa using flat
  | alternation first others _ _ _ nonempty first_ih others_ih =>
      rw [spliced_alternation_cons first nonempty]
      refine .alternation ?_ fun branch member => ?_
      · exact Nat.succ_le_succ (List.length_pos_iff.mpr others_ih.alternatives_ne_nil)
      · rcases List.mem_cons.mp member with rfl | member
        · exact first_ih
        · exact others_ih.of_mem_alternatives member
  | quantified q body _ ih => exact .quantified q ih

end Canonical

/-! ## Code of spliced trees -/

theorem codeOfBranches_eq_code_choice {branches : List Expression} (nonempty : branches ≠ [])
    (offset : Int) :
    codeOfBranches (offset + size (choice branches)) offset branches =
      code offset (choice branches) := by
  match branches, nonempty with
  | [branch], _ => rfl
  | _ :: _ :: _, _ => rfl

theorem size_alternation_cons (first : Expression) {others : List Expression}
    (nonempty : others ≠ []) :
    size (.alternation (first :: others)) = size first + size (choice others) + 2 := by
  match others, nonempty with
  | [second], _ => simp [size, choice, Nat.add_assoc]
  | second :: third :: rest, _ =>
      simp only [size, choice, totalSize_cons, List.length_cons]
      omega

/-- The first branch stands between a split to both and a jump behind all, the choice between the
others behind it. -/
theorem code_alternation_cons (first : Expression) {others : List Expression}
    (nonempty : others ≠ []) (offset : Int) :
    code offset (.alternation (first :: others)) =
      .split (offset + 1) (offset + 1 + size first + 1) :: code (offset + 1) first ++
        .jump (offset + 1 + size first + 1 + size (choice others)) ::
          code (offset + 1 + size first + 1) (choice others) := by
  have join_eq : offset + size (.alternation (first :: others)) =
      offset + 1 + size first + 1 + size (choice others) := by
    rw [size_alternation_cons first nonempty]
    omega
  rw [code, join_eq, ← codeOfBranches_eq_code_choice nonempty]
  obtain ⟨second, rest, rfl⟩ := List.exists_cons_of_ne_nil nonempty
  rfl

theorem size_eq_of_code_eq {tree other : Expression} (same : code 0 tree = code 0 other) :
    size tree = size other := by
  rw [← length_code 0 tree, same, length_code]

theorem codeOfItems_map
    {items : List Expression} {change : Expression → Expression}
    (each : ∀ item ∈ items, ∀ offset, code offset (change item) = code offset item)
    (offset : Int) :
    codeOfItems offset (items.map change) = codeOfItems offset items := by
  induction items generalizing offset with
  | nil => rfl
  | cons item items ih =>
      have first := each item List.mem_cons_self
      rw [List.map_cons, codeOfItems, codeOfItems, first, size_eq_of_code_eq (first 0),
        ih fun other member => each other (List.mem_cons_of_mem item member)]

/-- Splicing keeps the code of a canonical tree, at any offset. -/
theorem code_spliced {tree : Expression} (canonical : tree.Canonical) (offset : Int) :
    code offset tree.spliced = code offset tree := by
  induction canonical using Canonical.induction_on_front generalizing offset with
  | literal c => rfl
  | sequence items several each flat ih =>
      rw [spliced, splicedAll_eq_map]
      exact codeOfItems_map ih offset
  | alternation first others _ _ others_canonical nonempty first_ih others_ih =>
      have spliced_canonical := others_canonical.spliced
      rw [spliced_alternation_cons first nonempty,
        code_alternation_cons _ spliced_canonical.alternatives_ne_nil,
        spliced_canonical.choice_alternatives, first_ih, others_ih,
        size_eq_of_code_eq (first_ih 0), size_eq_of_code_eq (others_ih 0),
        code_alternation_cons first nonempty]
  | quantified q body _ ih =>
      have same_size := size_eq_of_code_eq (ih 0)
      cases q <;> simp only [spliced, code, ih, same_size]

/-- The branches of an alternation may stand in its place at the end of another one. -/
theorem code_alternation_append
    {branches last : List Expression} (nonempty : branches ≠ []) (several : 2 ≤ last.length)
    (offset : Int) :
    code offset (.alternation (branches ++ [.alternation last])) =
      code offset (.alternation (branches ++ last)) := by
  have some_last : last ≠ [] := by
    rintro rfl
    cases several
  induction branches generalizing offset with
  | nil => exact absurd rfl nonempty
  | cons first branches ih =>
      have same : ∀ offset, code offset (choice (branches ++ [.alternation last])) =
          code offset (choice (branches ++ last)) := by
        intro offset
        match branches with
        | [] => rw [List.nil_append, List.nil_append, choice_of_several several]; rfl
        | second :: rest =>
            rw [choice_of_several (by simp), choice_of_several (by simp; omega)]
            exact ih (by simp) offset
      rw [List.cons_append, List.cons_append, code_alternation_cons first (by simp),
        code_alternation_cons first (by simp [some_last]), same, size_eq_of_code_eq (same 0)]

end PatternMachine.Tree
