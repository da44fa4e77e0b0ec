import Mathlib.Data.List.DropRight
import PatternMachine.Proofs.Expression.Compilation
import PatternMachine.Proofs.Expression.Splicing

/-!
# Decompilation

The expression of a program can be found again from its jumps. A repetition is told by its last
instruction, the last split in the code that goes back to the place where the code begins. Every
other operator begins with a split to the next instruction, and the instruction in front of the
second target of this split tells which one it is: a jump back to the split ends a loop, a jump over
the second target ends a first branch, and in front of the end of an optional part there is neither
(`lt_of_getLast?_code`). `decompile?_program` says that an expression is found in its program but
for alternations that end with an alternation, which are spliced. So these are all that compilation
identifies (`compiled_alike_iff_spliced_eq`).
-/

namespace PatternMachine

def Instruction.returnsTo (place : Int) : Instruction → Bool
  | .split first _ => first = place
  | _ => false

/-- Instructions that stand one after the other from a place on. -/
structure Segment where
  offset : Int
  instructions : List Instruction

/-- What stands at the front of a segment: a literal, or an operator with the code of its parts. -/
inductive Front where
  | literal (c : Char)
  | quantified (q : Quantifier) (body : Segment)
  | alternation (first others : Segment)

def Front.parts : Front → List Segment
  | .literal _ => []
  | .quantified _ body => [body]
  | .alternation first others => [first, others]

namespace Segment

variable {segment rest : Segment} {front : Front}

def upTo (segment : Segment) (place : Int) : Segment :=
  ⟨segment.offset, segment.instructions.take (place - segment.offset).toNat⟩

/-- The part of a segment from a place on. -/
def startingAt (segment : Segment) (place : Int) : Segment :=
  ⟨place, segment.instructions.drop (place - segment.offset).toNat⟩

def dropLast (segment : Segment) : Segment :=
  ⟨segment.offset, segment.instructions.dropLast⟩

/-- The instructions up to the last split that goes back to the start of the segment. -/
def repetition (segment : Segment) : List Instruction :=
  segment.instructions.rdropWhile fun instruction => !instruction.returnsTo segment.offset

/--
The operator that a split at `offset` belongs to, and what is behind it. Up to the second target of
the split there is `inner`, and from there on `outer`.
-/
def cutSplit (offset : Int) (inner outer : Segment) : Front × Segment :=
  match inner.instructions.getLast? with
  | some (.jump target) =>
      if target = offset then
        (.quantified .zeroOrMore inner.dropLast, outer)
      else if outer.offset ≤ target then
        (.alternation inner.dropLast (outer.upTo target), outer.startingAt target)
      else
        (.quantified .optional inner, outer)
  | _ => (.quantified .optional inner, outer)

def cut? (segment : Segment) : Option (Front × Segment) :=
  if segment.repetition ≠ [] then
    some (.quantified .oneOrMore ⟨segment.offset, segment.repetition.dropLast⟩,
      segment.startingAt (segment.offset + segment.repetition.length))
  else
    match segment.instructions with
    | .consume [c] :: behind => some (.literal c, ⟨segment.offset + 1, behind⟩)
    | .split _ second :: behind =>
        let next : Segment := ⟨segment.offset + 1, behind⟩
        some (cutSplit segment.offset (next.upTo second) (next.startingAt second))
    | _ => none

theorem length_upTo_le (segment : Segment) (place : Int) :
    (segment.upTo place).instructions.length ≤ segment.instructions.length :=
  List.length_take_le' _ _

theorem length_startingAt_le (segment : Segment) (place : Int) :
    (segment.startingAt place).instructions.length ≤ segment.instructions.length := by
  rw [startingAt, List.length_drop]
  exact Nat.sub_le _ _

theorem length_dropLast_le (segment : Segment) :
    segment.dropLast.instructions.length ≤ segment.instructions.length := by
  rw [dropLast, List.length_dropLast]
  exact Nat.sub_le _ _

theorem length_le_of_cutSplit
    {offset : Int} {inner outer : Segment} {bound : Nat}
    (inner_le : inner.instructions.length ≤ bound) (outer_le : outer.instructions.length ≤ bound)
    (cut : cutSplit offset inner outer = (front, rest)) :
    ∀ part ∈ rest :: front.parts, part.instructions.length ≤ bound := by
  have dropLast_le := Nat.le_trans inner.length_dropLast_le inner_le
  have upTo_le := fun place => Nat.le_trans (outer.length_upTo_le place) outer_le
  have startingAt_le := fun place => Nat.le_trans (outer.length_startingAt_le place) outer_le
  unfold cutSplit at cut
  repeat' split at cut
  all_goals
    cases cut
    simp only [Front.parts, List.forall_mem_cons]
    grind

theorem length_lt_of_cut? (found : segment.cut? = some (front, rest)) :
    ∀ part ∈ rest :: front.parts, part.instructions.length < segment.instructions.length := by
  unfold cut? at found
  split at found
  next repeated =>
    cases found
    have repeated_le : segment.repetition.length ≤ segment.instructions.length :=
      (List.rdropWhile_prefix _ _).length_le
    have repeated_pos : 0 < segment.repetition.length := List.length_pos_iff.mpr repeated
    simp only [Front.parts, List.forall_mem_cons, startingAt, List.length_drop,
      List.length_dropLast]
    grind
  next =>
    split at found
    next c behind instructions_eq =>
      cases found
      simp [Front.parts, instructions_eq]
    next first second behind instructions_eq =>
      have cut := Option.some.inj found
      intro part member
      rw [instructions_eq, List.length_cons, Nat.lt_succ_iff]
      exact length_le_of_cutSplit (length_upTo_le ⟨_, behind⟩ _)
        (length_startingAt_le ⟨_, behind⟩ _) cut part member
    · cases found

/-- The items whose code a segment is, one behind the other. -/
def items? (segment : Segment) : Option (List Expression) :=
  match found : segment.cut? with
  | none => if segment.instructions.isEmpty then some [] else none
  | some (.literal c, rest) =>
      have := length_lt_of_cut? found
      rest.items?.map (.literal c :: ·)
  | some (.quantified q body, rest) =>
      have := length_lt_of_cut? found
      body.items?.bind fun items =>
        rest.items?.map (.quantified q (Tree.concat items) :: ·)
  | some (.alternation first others, rest) =>
      have := length_lt_of_cut? found
      first.items?.bind fun front =>
        others.items?.bind fun back =>
          rest.items?.map
            (.alternation (Tree.concat front :: (Tree.concat back).alternatives) :: ·)
termination_by segment.instructions.length
decreasing_by
  all_goals exact this _ (by simp [Front.parts])

theorem items?_nil (offset : Int) : items? ⟨offset, []⟩ = some [] := by
  rw [items?]
  rfl

theorem items?_of_literal {c : Char} (found : segment.cut? = some (.literal c, rest)) :
    segment.items? = rest.items?.map (.literal c :: ·) := by
  rw [items?]
  split <;> simp_all

theorem items?_of_quantified
    {q : Quantifier} {body : Segment} {items : List Expression}
    (found : segment.cut? = some (.quantified q body, rest)) (inner : body.items? = some items) :
    segment.items? = rest.items?.map (.quantified q (Tree.concat items) :: ·) := by
  rw [items?]
  split <;> simp_all

theorem items?_of_alternation
    {first others : Segment} {front back : List Expression}
    (found : segment.cut? = some (.alternation first others, rest))
    (begins : first.items? = some front) (ends : others.items? = some back) :
    segment.items? =
      rest.items?.map
        (.alternation (Tree.concat front :: (Tree.concat back).alternatives) :: ·) := by
  rw [items?]
  split <;> simp_all

/-! ## Cutting code -/

variable {offset place second join : Int} {left right inner outer body others behind :
  List Instruction}

theorem upTo_append (place_eq : offset + left.length = place) :
    upTo ⟨offset, left ++ right⟩ place = ⟨offset, left⟩ := by
  rw [upTo, List.take_left' (by simp only; omega)]

theorem startingAt_append (place_eq : offset + left.length = place) :
    startingAt ⟨offset, left ++ right⟩ place = ⟨place, right⟩ := by
  rw [startingAt, List.drop_left' (by simp only; omega)]

/-- Whether no split goes back to a place first. -/
def NeverReturns (place : Int) (instructions : List Instruction) : Prop :=
  ∀ instruction ∈ instructions, instruction.returnsTo place = false

theorem neverReturns_of_staysWithin
    {first last : Int} {instructions : List Instruction}
    (within : Tree.StaysWithin first last instructions) (before : place < first) :
    NeverReturns place instructions := by
  intro instruction member
  cases instruction with
  | split target other =>
      have bounds := (within _ member).2 target List.mem_cons_self
      have apart : target ≠ place := by omega
      simpa [Instruction.returnsTo] using apart
  | _ => rfl

theorem neverReturns_append :
    NeverReturns place (left ++ right) ↔ NeverReturns place left ∧ NeverReturns place right :=
  List.forall_mem_append

theorem repetition_of_neverReturns (absent : NeverReturns offset left) :
    repetition ⟨offset, left⟩ = [] := by
  rw [repetition, List.rdropWhile_eq_nil_iff]
  intro instruction member
  rw [absent instruction member]
  rfl

theorem repetition_append (absent : NeverReturns offset right) :
    repetition ⟨offset, left ++ .split offset place :: right⟩ = left ++ [.split offset place] := by
  let passed : Instruction → Bool := fun instruction => !instruction.returnsTo offset
  have dropped : ∀ instruction ∈ right.reverse, passed instruction = true := by
    intro instruction member
    simp only [passed, absent instruction (List.mem_reverse.mp member), Bool.not_false]
  have kept : ¬ passed (.split offset place) = true := by
    simp [passed, Instruction.returnsTo]
  calc
    repetition ⟨offset, left ++ .split offset place :: right⟩ =
        ((right.reverse ++ .split offset place :: left.reverse).dropWhile passed).reverse := by
      rw [repetition, List.rdropWhile, List.reverse_append, List.reverse_cons, List.append_assoc,
        List.singleton_append]
    _ = (.split offset place :: left.reverse).reverse := by
      rw [List.dropWhile_append_of_pos dropped, List.dropWhile_cons_of_neg kept]
    _ = left ++ [.split offset place] := by
      rw [List.reverse_cons, List.reverse_reverse]

theorem cut?_literal (c : Char) (absent : NeverReturns offset behind) :
    cut? ⟨offset, .consume [c] :: behind⟩ = some (.literal c, ⟨offset + 1, behind⟩) := by
  have none_returns : repetition ⟨offset, .consume [c] :: behind⟩ = [] :=
    repetition_of_neverReturns (List.forall_mem_cons.mpr ⟨rfl, absent⟩)
  rw [cut?, none_returns]
  rfl

theorem cut?_oneOrMore (absent : NeverReturns offset behind) :
    cut? ⟨offset, body ++ .split offset place :: behind⟩ =
      some (.quantified .oneOrMore ⟨offset, body⟩, ⟨offset + body.length + 1, behind⟩) := by
  have length_eq : ((body ++ [Instruction.split offset place]).length : Int) = body.length + 1 := by
    simp
  rw [cut?, repetition_append absent, if_pos (by simp), List.dropLast_concat, length_eq,
    ← Int.add_assoc, List.append_cons, startingAt_append (by rw [length_eq, Int.add_assoc])]

theorem cut?_split
    (inner_absent : NeverReturns offset inner) (outer_absent : NeverReturns offset outer)
    (second_eq : offset + 1 + inner.length = second) :
    cut? ⟨offset, .split (offset + 1) second :: (inner ++ outer)⟩ =
      some (cutSplit offset ⟨offset + 1, inner⟩ ⟨second, outer⟩) := by
  have none_returns : repetition ⟨offset, .split (offset + 1) second :: (inner ++ outer)⟩ = [] :=
    repetition_of_neverReturns (List.forall_mem_cons.mpr
      ⟨decide_eq_false (by omega), neverReturns_append.mpr ⟨inner_absent, outer_absent⟩⟩)
  rw [cut?, none_returns]
  simp only [ne_eq, not_true_eq_false, if_false, upTo_append second_eq, startingAt_append second_eq]

theorem cutSplit_optional
    (last_inside : ∀ target, inner.getLast? = some (.jump target) →
      offset < target ∧ target < second) :
    cutSplit offset ⟨offset + 1, inner⟩ ⟨second, outer⟩ =
      (.quantified .optional ⟨offset + 1, inner⟩, ⟨second, outer⟩) := by
  unfold cutSplit
  split
  next target last =>
    obtain ⟨behind_split, before_second⟩ := last_inside target last
    rw [if_neg (by omega), if_neg (by simp only; omega)]
  · rfl

theorem cutSplit_zeroOrMore :
    cutSplit offset ⟨offset + 1, body ++ [.jump offset]⟩ ⟨second, outer⟩ =
      (.quantified .zeroOrMore ⟨offset + 1, body⟩, ⟨second, outer⟩) := by
  simp [cutSplit, dropLast]

theorem cutSplit_alternation
    (join_eq : second + others.length = join) (behind_split : offset < second) :
    cutSplit offset ⟨offset + 1, body ++ [.jump join]⟩ ⟨second, others ++ behind⟩ =
      (.alternation ⟨offset + 1, body⟩ ⟨second, others⟩, ⟨join, behind⟩) := by
  have not_back : join ≠ offset := by omega
  have forward : second ≤ join := by omega
  simp [cutSplit, dropLast, not_back, forward, upTo_append join_eq, startingAt_append join_eq]

end Segment

/-! ## The code of expressions -/

namespace Tree

open Segment

theorem lt_of_getLast?_codeOfItems
    {items : List Expression}
    (each : ∀ item ∈ items, ∀ offset target,
      (code offset item).getLast? = some (.jump target) → target < offset + size item)
    {offset target : Int} (last : (codeOfItems offset items).getLast? = some (.jump target)) :
    target < offset + totalSize items := by
  induction items generalizing offset with
  | nil => cases last
  | cons item items ih =>
      rw [codeOfItems, List.getLast?_append] at last
      rw [totalSize_cons]
      cases rest_last : (codeOfItems (offset + size item) items).getLast? with
      | none =>
          rw [rest_last, Option.none_or] at last
          have inside := each item List.mem_cons_self offset target last
          omega
      | some instruction =>
          rw [rest_last, Option.some_or] at last
          have inside := ih (fun other member => each other (List.mem_cons_of_mem item member))
            (rest_last.trans last)
          omega

/-- The code of an expression does not end with a jump to or over its end. -/
theorem lt_of_getLast?_code
    {tree : Expression} (canonical : tree.Canonical) {offset target : Int}
    (last : (code offset tree).getLast? = some (.jump target)) :
    target < offset + size tree := by
  induction canonical using Canonical.induction_on_front generalizing offset target with
  | literal c => cases last
  | sequence items several each flat ih =>
      exact lt_of_getLast?_codeOfItems (fun item member _ _ last => ih item member last) last
  | alternation first others _ _ others_canonical nonempty _ others_ih =>
      have some_code : code (offset + 1 + size first + 1) (choice others) ≠ [] := by
        rw [← List.length_pos_iff, length_code]
        exact others_canonical.one_le_size
      rw [code_alternation_cons first nonempty, List.getLast?_append_of_ne_nil _ (by simp),
        List.getLast?_cons_of_ne_nil some_code] at last
      have inside := others_ih last
      rw [size_alternation_cons first nonempty]
      omega
  | quantified q body inner ih =>
      have some_code : ∀ offset, code offset body ≠ [] := by
        intro offset
        rw [← List.length_pos_iff, length_code]
        exact inner.one_le_size
      cases q with
      | optional =>
          rw [code, List.getLast?_cons_of_ne_nil (some_code _)] at last
          have inside := ih last
          rw [add_size_optional]
          exact inside
      | oneOrMore =>
          rw [code, List.getLast?_concat] at last
          cases last
      | zeroOrMore =>
          rw [code, List.getLast?_concat] at last
          cases last
          rw [add_size_zeroOrMore]
          omega

theorem neverReturns_code {place offset : Int} (tree : Expression) (before : place < offset) :
    NeverReturns place (code offset tree) :=
  neverReturns_of_staysWithin (staysWithin_code offset tree) before

theorem cut?_code_alternation
    {offset : Int} {rest : List Instruction} (first : Expression) {others : List Expression}
    (nonempty : others ≠ []) (absent : NeverReturns offset rest) :
    cut? ⟨offset, code offset (.alternation (first :: others)) ++ rest⟩ =
      some (.alternation ⟨offset + 1, code (offset + 1) first⟩
        ⟨offset + 1 + size first + 1, code (offset + 1 + size first + 1) (choice others)⟩,
        ⟨offset + size (.alternation (first :: others)), rest⟩) := by
  let second := offset + 1 + size first + 1
  let join := second + size (choice others)
  have layout : code offset (.alternation (first :: others)) ++ rest =
      .split (offset + 1) second :: ((code (offset + 1) first ++ [.jump join]) ++
        (code second (choice others) ++ rest)) := by
    rw [code_alternation_cons first nonempty]
    simp [second, join]
  have join_eq : offset + size (.alternation (first :: others)) = join := by
    simp only [join, second, size_alternation_cons first nonempty]
    omega
  have inner_absent : NeverReturns offset (code (offset + 1) first ++ [.jump join]) :=
    neverReturns_append.mpr
      ⟨neverReturns_code first (by omega), List.forall_mem_singleton.mpr rfl⟩
  have outer_absent : NeverReturns offset (code second (choice others) ++ rest) :=
    neverReturns_append.mpr ⟨neverReturns_code _ (by omega), absent⟩
  have second_eq :
      offset + 1 + (code (offset + 1) first ++ [Instruction.jump join]).length = second := by
    simp only [List.length_append, length_code, List.length_singleton, second]
    omega
  rw [layout, cut?_split inner_absent outer_absent second_eq,
    cutSplit_alternation (by rw [length_code]) (by omega), join_eq]

theorem exists_cut?_code_quantified
    {offset : Int} {rest : List Instruction} (q : Quantifier) {body : Expression}
    (inner : body.Canonical) (absent : NeverReturns offset rest) :
    ∃ start, cut? ⟨offset, code offset (.quantified q body) ++ rest⟩ =
      some (.quantified q ⟨start, code start body⟩,
        ⟨offset + size (.quantified q body), rest⟩) := by
  have inner_absent : NeverReturns offset (code (offset + 1) body) :=
    neverReturns_code body (by omega)
  cases q with
  | optional =>
      have last_inside : ∀ target, (code (offset + 1) body).getLast? = some (.jump target) →
          offset < target ∧ target < offset + 1 + size body := by
        intro target last
        have bounds := (staysWithin_code (offset + 1) body _ (List.mem_of_getLast? last)).2 target
          List.mem_cons_self
        exact ⟨by omega, lt_of_getLast?_code inner last⟩
      refine ⟨offset + 1, ?_⟩
      rw [code, List.cons_append, cut?_split inner_absent absent (by rw [length_code]),
        cutSplit_optional last_inside, add_size_optional]
  | oneOrMore =>
      refine ⟨offset, ?_⟩
      rw [code, List.append_assoc, List.singleton_append, cut?_oneOrMore absent, length_code,
        add_size_oneOrMore]
  | zeroOrMore =>
      have loop_absent : NeverReturns offset (code (offset + 1) body ++ [.jump offset]) :=
        neverReturns_append.mpr ⟨inner_absent, List.forall_mem_singleton.mpr rfl⟩
      have second_eq : offset + 1 + (code (offset + 1) body ++ [Instruction.jump offset]).length =
          offset + size body + 2 := by
        simp only [List.length_append, length_code, List.length_singleton]
        omega
      refine ⟨offset + 1, ?_⟩
      rw [code, List.cons_append, List.cons_append, cut?_split loop_absent absent second_eq,
        cutSplit_zeroOrMore, add_size_zeroOrMore]

/--
Whether the items of an expression are found in its code, at any offset and in front of everything
that never returns to the code.
-/
def Recovers (tree : Expression) : Prop :=
  ∀ (offset : Int) (rest : List Instruction),
    (∀ place < offset + size tree, NeverReturns place rest) →
    items? ⟨offset, code offset tree ++ rest⟩ =
      (items? ⟨offset + size tree, rest⟩).map (tree.spliced.items ++ ·)

/-- The items of an expression are found in its code alone. -/
theorem Recovers.alone {tree : Expression} (recovers : Recovers tree) (offset : Int) :
    items? ⟨offset, code offset tree⟩ = some tree.spliced.items := by
  have found := recovers offset [] fun _ _ _ member => nomatch member
  rw [List.append_nil, items?_nil] at found
  simpa using found

theorem recovers_literal (c : Char) : Recovers (.literal c) := by
  intro offset rest absent
  exact items?_of_literal (cut?_literal c (absent offset (by simp only [size]; omega)))

theorem recovers_sequence
    {items : List Expression} (each : ∀ item ∈ items, Recovers item)
    (flat : ∀ item ∈ items, item.kind ≠ .sequence) :
    Recovers (.sequence items) := by
  intro offset rest absent
  simp only [code, size, spliced, Tree.items, splicedAll_eq_map] at absent ⊢
  induction items generalizing offset with
  | nil => simp [codeOfItems]
  | cons item items ih =>
      simp only [totalSize_cons, Int.natCast_add] at absent ⊢
      have single : item.spliced.items = [item.spliced] :=
        items_of_kind_ne (by rw [kind_spliced]; exact flat item List.mem_cons_self)
      have others_found := ih (fun other member => each other (List.mem_cons_of_mem item member))
        (fun other member => flat other (List.mem_cons_of_mem item member)) (offset + size item)
        fun place before => absent place (by omega)
      have item_found := each item List.mem_cons_self offset
        (codeOfItems (offset + size item) items ++ rest) fun place before =>
          neverReturns_append.mpr
            ⟨neverReturns_of_staysWithin
              (staysWithin_codeOfItems (fun _ _ offset => staysWithin_code offset _) _) before,
              absent place (by omega)⟩
      rw [codeOfItems, List.append_assoc, item_found, others_found, Option.map_map, single,
        Int.add_assoc]
      rfl

theorem recovers_alternation
    {first : Expression} {others : List Expression} (nonempty : others ≠ [])
    (first_canonical : first.Canonical) (others_canonical : (choice others).Canonical)
    (first_recovers : Recovers first) (others_recover : Recovers (choice others)) :
    Recovers (.alternation (first :: others)) := by
  intro offset rest absent
  have inside : offset < offset + size (.alternation (first :: others)) := by
    rw [size_alternation_cons first nonempty]
    omega
  have cut := cut?_code_alternation first nonempty (absent offset inside)
  rw [items?_of_alternation cut (first_recovers.alone _) (others_recover.alone _),
    first_canonical.spliced.concat_items, others_canonical.spliced.concat_items,
    spliced_alternation_cons first nonempty]
  rfl

theorem recovers_quantified
    (q : Quantifier) {body : Expression} (inner : body.Canonical) (recovers : Recovers body) :
    Recovers (.quantified q body) := by
  intro offset rest absent
  have inside : offset < offset + size (.quantified q body) := by
    have positive := (Canonical.quantified q inner).one_le_size
    omega
  obtain ⟨start, cut⟩ := exists_cut?_code_quantified q inner (absent offset inside)
  rw [items?_of_quantified cut (recovers.alone start), inner.spliced.concat_items]
  rfl

theorem Canonical.recovers {tree : Expression} (canonical : tree.Canonical) : Recovers tree := by
  induction canonical using Canonical.induction_on_front with
  | literal c => exact recovers_literal c
  | sequence items several each flat ih => exact recovers_sequence ih flat
  | alternation first others _ first_canonical others_canonical nonempty first_ih others_ih =>
      exact recovers_alternation nonempty first_canonical others_canonical first_ih others_ih
  | quantified q body inner ih => exact recovers_quantified q inner ih

end Tree

def Program.decompile? (p : Program) : Option Expression :=
  (Segment.items? ⟨0, p.body.toList⟩).map Tree.concat

namespace Tree

/-- A canonical expression is found in its program but for what splicing changes. -/
theorem decompile?_program {tree : Expression} (canonical : tree.Canonical) :
    tree.program.decompile? = some tree.spliced := by
  have found := canonical.recovers.alone 0
  rw [Program.decompile?, program, found, Option.map_some, canonical.spliced.concat_items]

def SameProgram (tree other : Expression) : Prop :=
  ∃ p, (tree.compile : Traced Fault Program).outcome = .ok p ∧
    (other.compile : Traced Fault Program).outcome = .ok p

theorem sameProgram_iff_code_eq {tree other : Expression} :
    SameProgram tree other ↔ code 0 tree = code 0 other := by
  have code_eq : tree.program = other.program ↔ code 0 tree = code 0 other := by
    constructor
    · intro same
      have same_code := congrArg Program.code same
      rw [code_program, code_program] at same_code
      exact List.append_cancel_right same_code
    · intro same
      simp only [program, same]
  rw [← code_eq, SameProgram]
  simp [eq_comm]

/-- Canonical expressions are compiled to the same program if they are the same when spliced. -/
theorem Canonical.sameProgram_iff_spliced_eq
    {tree other : Expression} (canonical : tree.Canonical) (other_canonical : other.Canonical) :
    SameProgram tree other ↔ tree.spliced = other.spliced := by
  constructor
  · rintro ⟨p, tree_program, other_program⟩
    cases tree_program
    have same : other.program = tree.program := Except.ok.inj other_program
    have found := decompile?_program other_canonical
    rw [same, decompile?_program canonical] at found
    exact Option.some.inj found
  · intro same
    rw [sameProgram_iff_code_eq, ← code_spliced canonical, same, code_spliced other_canonical]

/--
Constructed expressions are compiled to the same program exactly if they are the same when they are
spliced. So an alternation at the end of another one can be replaced by its branches, and nothing
else about an expression is lost when it is compiled.
-/
theorem compiled_alike_iff_spliced_eq
    (tree other : Expression)
    (tree_constructed : Constructed tree) (other_constructed : Constructed other) :
    (SameProgram tree other ↔ tree.spliced = other.spliced) ∧
      ∀ branches last : List Expression, branches ≠ [] → 2 ≤ last.length →
        SameProgram (choice (branches ++ [choice last])) (choice (branches ++ last)) := by
  refine ⟨?_, fun branches last nonempty several => ?_⟩
  · exact (constructed_iff_canonical.mp tree_constructed).sameProgram_iff_spliced_eq
      (constructed_iff_canonical.mp other_constructed)
  · have some_branch : 0 < branches.length := List.length_pos_iff.mpr nonempty
    rw [choice_of_several several, choice_of_several (by simp; omega),
      choice_of_several (by simp; omega), sameProgram_iff_code_eq]
    exact code_alternation_append nonempty several 0

/-- An alternation is lost at the end of another one and not at its front. -/
theorem compiled_alike_of_nested_choices :
    ∃ flat at_front at_end : Expression,
      Constructed flat ∧ Constructed at_front ∧ Constructed at_end ∧
      flat = .alternation [.literal 'a', .literal 'b', .literal 'c'] ∧
      at_front = .alternation [.alternation [.literal 'a', .literal 'b'], .literal 'c'] ∧
      at_end = .alternation [.literal 'a', .alternation [.literal 'b', .literal 'c']] ∧
      SameProgram at_end flat ∧ ¬ SameProgram at_front flat := by
  have pair (c e : Char) : Canonical (.alternation [.literal c, .literal e] : Expression) :=
    .alternation (by simp) (by simpa using ⟨.literal c, .literal e⟩)
  have flat : Constructed (.alternation [.literal 'a', .literal 'b', .literal 'c']) :=
    constructed_iff_canonical.mpr
      (.alternation (by simp) (by simpa using ⟨.literal 'a', .literal 'b', .literal 'c'⟩))
  have at_front : Constructed (.alternation [.alternation [.literal 'a', .literal 'b'],
      .literal 'c']) :=
    constructed_iff_canonical.mpr
      (.alternation (by simp) (by simpa using ⟨pair 'a' 'b', .literal 'c'⟩))
  have at_end : Constructed (.alternation [.literal 'a',
      .alternation [.literal 'b', .literal 'c']]) :=
    constructed_iff_canonical.mpr
      (.alternation (by simp) (by simpa using ⟨.literal 'a', pair 'b' 'c'⟩))
  refine ⟨_, _, _, flat, at_front, at_end, rfl, rfl, rfl, ?_, fun same => ?_⟩
  · exact (compiled_alike_iff_spliced_eq _ _ at_end flat).2 [.literal 'a']
      [.literal 'b', .literal 'c'] (by simp) (by simp)
  · have spliced_eq := (compiled_alike_iff_spliced_eq _ _ at_front flat).1.mp same
    exact absurd spliced_eq (by decide)

end Tree

end PatternMachine
