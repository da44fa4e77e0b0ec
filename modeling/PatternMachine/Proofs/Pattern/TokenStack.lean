import PatternMachine.Pattern.Grammar
import PatternMachine.Proofs.Pattern.OnePass

/-!
# Reading tokens with a stack

A pass over a text is at the same time a pass over its tokens: only the positions, which are for
reports, and the escape, which is part of a token, are left out. The stack holds the assemblies of
the open groups. `toOption_readOnce` states the correspondence.
-/

namespace PatternMachine

/-- The assembly of the innermost open group and those around it. -/
structure TokenStack where
  assembly : Assembly
  around : List Assembly

namespace TokenStack

def start : TokenStack :=
  ⟨.empty, []⟩

def feed (stack : TokenStack) : Token → Option TokenStack
  | .literal c => some { stack with assembly := stack.assembly.push (.literal c) }
  | .union =>
      (stack.assembly.union? 0).toOption.map fun assembly => { stack with assembly := assembly }
  | .quantifier q =>
      (stack.assembly.quantify? q 0).toOption.map fun assembly =>
        { stack with assembly := assembly }
  | .groupBegin => some ⟨.empty, stack.assembly :: stack.around⟩
  | .groupEnd =>
      match stack.around with
      | [] => none
      | around :: outer =>
          (stack.assembly.finish? 0).toOption.map fun tree => ⟨around.push tree, outer⟩

def finish (stack : TokenStack) : Option Expression :=
  match stack.around with
  | [] => (stack.assembly.finish? 0).toOption
  | _ :: _ => none

/-- The tree that tokens have been put together to, if they fit. -/
def read (tokens : List Token) : Option Expression :=
  (tokens.foldlM feed start).bind finish

variable {assembly : Assembly} {around : List Assembly} {next : TokenStack}

theorem feed_union_eq_some_iff :
    feed ⟨assembly, around⟩ .union = some next ↔
      assembly.operands ≠ [] ∧
        next = ⟨⟨assembly.branch :: assembly.branches, []⟩, around⟩ := by
  obtain ⟨branches, operands⟩ := assembly
  cases operands with
  | nil => simp [feed, Assembly.union?, Except.toOption]
  | cons operand operands => simp [feed, Assembly.union?, Except.toOption, eq_comm]

theorem feed_quantifier_eq_some_iff {q : Quantifier} :
    feed ⟨assembly, around⟩ (.quantifier q) = some next ↔
      ∃ operand operands, assembly.operands = operand :: operands ∧
        next = ⟨⟨assembly.branches, .quantified q operand :: operands⟩, around⟩ := by
  obtain ⟨branches, operands⟩ := assembly
  cases operands with
  | nil => simp [feed, Assembly.quantify?, Except.toOption]
  | cons operand operands => simp [feed, Assembly.quantify?, Except.toOption, eq_comm]

theorem toOption_finish?_eq_some_iff {tree : Expression} :
    (assembly.finish? 0).toOption = some tree ↔
      assembly.operands ≠ [] ∧
        tree = Tree.choice (assembly.branch :: assembly.branches).reverse := by
  obtain ⟨branches, operands⟩ := assembly
  cases operands with
  | nil => cases branches <;> simp [Assembly.finish?, Except.toOption]
  | cons operand operands => simp [Assembly.finish?, Except.toOption, eq_comm]

theorem feed_groupEnd_eq_some_iff :
    feed ⟨assembly, around⟩ .groupEnd = some next ↔
      ∃ before outer, around = before :: outer ∧ assembly.operands ≠ [] ∧
        next = ⟨before.push (Tree.choice (assembly.branch :: assembly.branches).reverse),
          outer⟩ := by
  cases around with
  | nil => simp [feed]
  | cons before outer =>
      simp only [feed, Option.map_eq_some_iff, toOption_finish?_eq_some_iff]
      constructor
      · rintro ⟨tree, ⟨nonempty, rfl⟩, rfl⟩
        exact ⟨before, outer, rfl, nonempty, rfl⟩
      · rintro ⟨_, _, same, nonempty, rfl⟩
        cases same
        exact ⟨_, ⟨nonempty, rfl⟩, rfl⟩

theorem finish_eq_some_iff {tree : Expression} :
    finish ⟨assembly, around⟩ = some tree ↔
      around = [] ∧ assembly.operands ≠ [] ∧
        tree = Tree.choice (assembly.branch :: assembly.branches).reverse := by
  cases around with
  | nil => simp [finish, toOption_finish?_eq_some_iff]
  | cons before outer => simp [finish]

end TokenStack

/-! ## Positions are for reports only -/

namespace Assembly

theorem toOption_union? (assembly : Assembly) (position : Nat) :
    (assembly.union? position).toOption = (assembly.union? 0).toOption := by
  unfold union?
  split <;> rfl

theorem toOption_quantify? (assembly : Assembly) (q : Quantifier) (position : Nat) :
    (assembly.quantify? q position).toOption = (assembly.quantify? q 0).toOption := by
  unfold quantify?
  split <;> rfl

theorem toOption_finish? (assembly : Assembly) (length : Nat) :
    (assembly.finish? length).toOption = (assembly.finish? 0).toOption := by
  unfold finish?
  split <;> rfl

end Assembly

namespace Pass

variable {d : Dialect} {pass : Pass} {c : Char}

def stack (pass : Pass) : TokenStack :=
  ⟨pass.assembly, pass.frames.map Prod.snd⟩

theorem feed_stack (plain : pass.escaped = false) (other : d.role? c ≠ some .escape) :
    pass.stack.feed (.ofRole c (d.role? c)) = (pass.step d c).toOption.map stack := by
  obtain ⟨position, escaped, assembly, frames⟩ := pass
  subst plain
  simp only [step, take, Bool.false_eq_true, if_false]
  cases found : d.role? c with
  | none => rfl
  | some role =>
      cases role with
      | escape => exact absurd found other
      | groupBegin => rfl
      | union =>
          simp only [Token.ofRole, TokenStack.feed, stack, ← Assembly.toOption_union? _ position]
          cases assembly.union? position <;> rfl
      | quantifier q =>
          simp only [Token.ofRole, TokenStack.feed, stack,
            ← Assembly.toOption_quantify? _ q position]
          cases assembly.quantify? q position <;> rfl
      | groupEnd =>
          cases frames with
          | nil => rfl
          | cons frame frames =>
              obtain ⟨branches, operands⟩ := assembly
              cases operands with
              | cons operand operands => rfl
              | nil => cases branches <;> rfl

theorem toOption_finish (plain : pass.escaped = false) :
    pass.finish.toOption = pass.stack.finish := by
  obtain ⟨position, escaped, assembly, frames⟩ := pass
  subst plain
  cases frames with
  | nil => exact assembly.toOption_finish? position
  | cons frame frames => rfl

end Pass

namespace Dialect

variable {d : Dialect}

theorem tokens?_cons {c : Char} (other : d.role? c ≠ some .escape) (rest : Text) :
    d.tokens? (c :: rest) = (d.tokens? rest).map (Token.ofRole c (d.role? c) :: ·) := by
  rw [tokens?.eq_def]
  exact if_neg other

theorem tokens?_cons_escape
    {c : Char} (escape : d.role? c = some .escape) (e : Char) (rest : Text) :
    d.tokens? (c :: e :: rest) = (d.tokens? rest).map (Token.literal e :: ·) := by
  rw [tokens?.eq_def]
  exact if_pos escape

/-- From any place on, a pass and its stack come to the same end. -/
theorem toOption_foldlM_finish {pass : Pass} (plain : pass.escaped = false) (text : Text) :
    (text.foldlM (Pass.step d) pass >>= Pass.finish).toOption =
      (d.tokens? text).bind fun tokens =>
        (tokens.foldlM TokenStack.feed pass.stack).bind TokenStack.finish := by
  induction text using tokens?.induct d generalizing pass with
  | case1 => exact Pass.toOption_finish plain
  | case2 c role =>
      obtain ⟨position, escaped, assembly, frames⟩ := pass
      subst plain
      cases frames <;> simp [Pass.step, Pass.take, Pass.finish, role, tokens?, Except.toOption]
  | case3 c role e rest ih =>
      obtain ⟨position, escaped, assembly, frames⟩ := pass
      subst plain
      rw [tokens?_cons_escape role, Option.bind_map]
      simp only [List.foldlM_cons, Pass.step, Pass.take, role, Bool.false_eq_true, if_false,
        if_true, Outcome.map_ok, Outcome.ok_bind]
      exact ih rfl
  | case4 c rest other ih =>
      have fed := Pass.feed_stack plain other
      rw [tokens?_cons other, Option.bind_map]
      simp only [Function.comp_def, List.foldlM_cons, fed]
      cases stepped : pass.step d c with
      | error misread => simp [Except.toOption]
      | ok next =>
          have still_plain : next.escaped = false := by
            have escaped := congrArg Groups.escaped (Pass.groups_of_step stepped)
            simpa [Pass.groups, Groups.step, other] using escaped
          exact ih still_plain

/-- One pass over a text finds the tree of its tokens. -/
theorem toOption_readOnce (d : Dialect) (text : Text) :
    (d.readOnce text).toOption = (d.tokens? text).bind TokenStack.read :=
  toOption_foldlM_finish rfl text

end Dialect

end PatternMachine
