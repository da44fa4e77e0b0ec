import Mathlib.Logic.Equiv.Basic
import PatternMachine.Expression.Written
import PatternMachine.Proofs.Pattern.Agreement

/-!
# Renaming characters

Which characters have the roles of a dialect does not matter. If the characters of a text are
renamed so that those of one dialect become those of another, role by role, then every step of a
pass over the text is the same up to the names of the literals put together so far: `step_renamed`
says so of one character, and `outcome_read_map` of reading. `written_renamed` says the same of
writing.
-/

namespace PatternMachine

namespace Tree

variable {γ : Type}

mutual

def renamed (f : Char → Char) : Tree γ → Tree γ
  | .gap g => .gap g
  | .literal c => .literal (f c)
  | .sequence items => .sequence (renamedAll f items)
  | .alternation branches => .alternation (renamedAll f branches)
  | .quantified q body => .quantified q (renamed f body)

def renamedAll (f : Char → Char) : List (Tree γ) → List (Tree γ)
  | [] => []
  | tree :: trees => renamed f tree :: renamedAll f trees

end

variable (f : Char → Char)

@[simp]
theorem renamedAll_eq_map (trees : List (Tree γ)) :
    renamedAll f trees = trees.map (renamed f) := by
  induction trees with
  | nil => rfl
  | cons tree trees ih => simp [renamedAll, ih]

theorem items_renamed (tree : Tree γ) : (tree.renamed f).items = tree.items.map (renamed f) := by
  cases tree <;> simp [renamed, items]

theorem concat_map_renamed (operands : List (Tree γ)) :
    concat (operands.map (renamed f)) = (concat operands).renamed f := by
  have parts : (operands.map (renamed f)).flatMap items =
      (operands.flatMap items).map (renamed f) := by
    simp only [List.flatMap_map, List.map_flatMap, items_renamed]
  unfold concat
  rw [parts]
  match operands.flatMap items with
  | [] => rfl
  | [_] => rfl
  | _ :: _ :: _ => simp [renamed]

theorem choice_map_renamed (branches : List (Tree γ)) :
    choice (branches.map (renamed f)) = (choice branches).renamed f := by
  match branches with
  | [] => rfl
  | [_] => rfl
  | _ :: _ :: _ => simp [choice, renamed]

theorem isAtom_renamed (tree : Tree γ) : (tree.renamed f).isAtom = tree.isAtom := by
  cases tree <;> rfl

end Tree

namespace Dialect

/-- Whether renaming keeps characters apart and takes those of one dialect to those of another. -/
structure Renames (f : Char → Char) (d e : Dialect) : Prop where
  injective : Function.Injective f
  symbol_eq : ∀ role, f (d.symbol role) = e.symbol role

namespace Renames

variable {f : Char → Char} {d e : Dialect}

theorem role?_eq (renames : Renames f d e) (c : Char) : e.role? (f c) = d.role? c := by
  ext role
  rw [role?_eq_some_iff, role?_eq_some_iff, ← renames.symbol_eq, renames.injective.eq_iff]

theorem escaped_eq (renames : Renames f d e) (c : Char) :
    e.escaped (f c) = (d.escaped c).map f := by
  unfold escaped isSpecial
  rw [renames.role?_eq, ← renames.symbol_eq]
  split <;> rfl

theorem grouped_map (renames : Renames f d e) (inner : Text) :
    e.grouped (inner.map f) = (d.grouped inner).map f := by
  simp [grouped, renames.symbol_eq]

/-- Which groups are open in a text depends on the roles of its characters only. -/
theorem groups_map (renames : Renames f d e) (text : Text) :
    e.groups (text.map f) = d.groups text := by
  unfold groups
  rw [List.foldl_map]
  congr 1
  funext groups c
  simp only [Groups.step, renames.role?_eq]

theorem unclosed_map (renames : Renames f d e) (text : Text) :
    e.unclosed (text.map f) = d.unclosed text := by
  rw [unclosed, unclosed, renames.groups_map]

end Renames

end Dialect

open Dialect (Renames)

theorem map_intercalate {α β : Type} (f : α → β) (separator : List α) (parts : List (List α)) :
    (separator.intercalate parts).map f =
      (separator.map f).intercalate (parts.map (List.map f)) := by
  induction parts with
  | nil => rfl
  | cons part parts ih =>
      cases parts with
      | nil => simp
      | cons next parts =>
          rw [List.intercalate_cons_cons, List.map_append, List.map_append, ih]
          simp only [List.map_cons, List.intercalate_cons_cons]

theorem Tree.written_renamed
    {f : Char → Char} {d e : Dialect} (renames : Renames f d e) (tree : Expression) :
    (tree.renamed f).written e = (tree.written d).map f := by
  induction tree using Tree.induction with
  | gap g => nomatch g
  | literal c => exact renames.escaped_eq c
  | sequence items ih =>
      simp only [renamed, written, renamedAll_eq_map, writtenAll_eq_map, List.map_map,
        List.map_flatten]
      congr 1
      exact List.map_congr_left ih
  | alternation branches ih =>
      simp only [renamed, written, renamedAll_eq_map, writtenAll_eq_map, List.map_map]
      rw [← renames.grouped_map, map_intercalate, List.map_singleton, renames.symbol_eq,
        List.map_map]
      congr 2
      exact List.map_congr_left ih
  | quantified q body ih =>
      simp only [renamed, written, isAtom_renamed, ih, renames.grouped_map, List.map_append,
        List.map_singleton, renames.symbol_eq]
      split <;> rfl

/-! ## Passes over renamed texts -/

def Assembly.renamed (f : Char → Char) (assembly : Assembly) : Assembly :=
  ⟨assembly.branches.map (Tree.renamed f), assembly.operands.map (Tree.renamed f)⟩

namespace Assembly

variable (f : Char → Char) (assembly : Assembly)

theorem branch_renamed : (assembly.renamed f).branch = assembly.branch.renamed f := by
  unfold branch renamed
  rw [← List.map_reverse, Tree.concat_map_renamed]

theorem choice_renamed :
    Tree.choice ((assembly.renamed f).branch :: (assembly.renamed f).branches).reverse =
      (Tree.choice (assembly.branch :: assembly.branches).reverse).renamed f := by
  rw [branch_renamed, ← Tree.choice_map_renamed, List.map_reverse]
  rfl

theorem union?_renamed (position : Nat) :
    (assembly.renamed f).union? position = (assembly.union? position).map (renamed f) := by
  unfold union?
  rw [branch_renamed]
  cases operands_eq : assembly.operands <;> simp [renamed, operands_eq]

theorem quantify?_renamed (q : Quantifier) (position : Nat) :
    (assembly.renamed f).quantify? q position =
      (assembly.quantify? q position).map (renamed f) := by
  obtain ⟨branches, operands⟩ := assembly
  cases operands <;> simp [quantify?, renamed, Tree.renamed]

theorem finish?_renamed (length : Nat) :
    (assembly.renamed f).finish? length =
      (assembly.finish? length).map (Tree.renamed f) := by
  have choice := choice_renamed f assembly
  obtain ⟨branches, operands⟩ := assembly
  cases operands with
  | nil => cases branches <;> rfl
  | cons operand operands => exact congrArg Except.ok choice

end Assembly

def Pass.renamed (f : Char → Char) (pass : Pass) : Pass :=
  { pass with
    assembly := pass.assembly.renamed f
    frames := pass.frames.map fun frame => (frame.1, frame.2.renamed f) }

namespace Pass

variable {f : Char → Char} {d e : Dialect}

theorem closeFrame_renamed (f : Char → Char) (pass : Pass) :
    (pass.renamed f).closeFrame = pass.closeFrame.map (renamed f) := by
  have choice := pass.assembly.choice_renamed f
  obtain ⟨position, escaped, ⟨branches, operands⟩, frames⟩ := pass
  cases frames with
  | nil => rfl
  | cons frame frames =>
      cases operands with
      | nil => cases branches <;> rfl
      | cons operand operands =>
          simp only [Assembly.renamed, List.map_cons] at choice
          simp only [closeFrame, renamed, Assembly.renamed, List.map_cons, Outcome.map_ok,
            Assembly.push, choice]

theorem take_renamed (renames : Renames f d e) (pass : Pass) (c : Char) :
    (pass.renamed f).take e (f c) = (pass.take d c).map (renamed f) := by
  have closed := closeFrame_renamed f pass
  obtain ⟨position, escaped, assembly, frames⟩ := pass
  cases escaped with
  | true => rfl
  | false =>
      simp only [take, renames.role?_eq, renamed, Bool.false_eq_true, if_false] at closed ⊢
      cases d.role? c with
      | none => rfl
      | some role =>
          cases role with
          | escape => rfl
          | groupBegin => rfl
          | groupEnd => exact closed
          | union =>
              simp only [Assembly.union?_renamed]
              cases assembly.union? position <;> rfl
          | quantifier q =>
              simp only [Assembly.quantify?_renamed]
              cases assembly.quantify? q position <;> rfl

/-- A renamed character does to a renamed pass what the character does to the pass. -/
theorem step_renamed (renames : Renames f d e) (pass : Pass) (c : Char) :
    (pass.renamed f).step e (f c) = (pass.step d c).map (renamed f) := by
  unfold step
  rw [take_renamed renames]
  cases pass.take d c <;> rfl

theorem finish_renamed (f : Char → Char) (pass : Pass) :
    (pass.renamed f).finish = pass.finish.map (Tree.renamed f) := by
  have finished := pass.assembly.finish?_renamed f pass.position
  obtain ⟨position, escaped, assembly, frames⟩ := pass
  cases frames with
  | cons frame frames => rfl
  | nil =>
      cases escaped with
      | true => rfl
      | false => exact finished

end Pass

namespace Dialect

variable {f : Char → Char} {d e : Dialect}

theorem passOver_map (renames : Renames f d e) (text : Text) :
    e.passOver (text.map f) = (d.passOver text).map (Pass.renamed f) := by
  induction text using List.reverseRecOn with
  | nil => rfl
  | append_singleton text c ih =>
      rw [List.map_append, List.map_singleton, passOver_concat, ih, passOver_concat]
      cases d.passOver text with
      | error misread => rfl
      | ok pass => exact Pass.step_renamed renames pass c

theorem readOnce_map (renames : Renames f d e) (text : Text) :
    e.readOnce (text.map f) = (d.readOnce text).map (Tree.renamed f) := by
  unfold readOnce
  rw [passOver_map renames]
  cases d.passOver text with
  | error misread => rfl
  | ok pass => exact Pass.finish_renamed f pass

theorem outcome_read_map (renames : Renames f d e) (text : Text) :
    (e.read (text.map f)).outcome = (d.read text).outcome.map (Tree.renamed f) := by
  rw [outcome_read_eq_one_pass, outcome_read_eq_one_pass, renames.unclosed_map]
  cases d.unclosed text with
  | nil => exact readOnce_map renames text
  | cons innermost around =>
      dsimp only
      rw [← List.map_take, passOver_map renames]
      cases d.passOver (text.take (around.getLastD innermost)) <;> rfl

/--
Dialects differ in the names of their special characters only. If renaming keeps characters apart
and takes the special characters of one dialect to those of another, role by role, then a renamed
text is read in the other dialect to the tree of the text with its literals renamed, or is misread
for the same reason at the same position, and a renamed expression is written in the other dialect
as the renamed text of the expression.
-/
theorem read_and_written_renamed
    (d e : Dialect) (f : Char → Char) (bijective : Function.Bijective f)
    (same_roles : ∀ role, f (d.symbol role) = e.symbol role) :
    (∀ text : Text,
      (e.read (text.map f)).outcome = (d.read text).outcome.map (Tree.renamed f)) ∧
    ∀ tree : Expression, (tree.renamed f).written e = (tree.written d).map f := by
  have renames : Renames f d e := ⟨bijective.injective, same_roles⟩
  exact ⟨outcome_read_map renames, Tree.written_renamed renames⟩

/-- A dialect in which the ends of a group change places, and a star with a letter. -/
theorem read_and_written_exchanged :
    ∃ (f : Char → Char) (e : Dialect),
      Function.Bijective f ∧ (∀ role, f (standard.symbol role) = e.symbol role) ∧
      e.symbol .groupBegin = ')' ∧ e.symbol (.quantifier .zeroOrMore) = 'a' ∧
      (e.read [')', '*', '|', '\\', '(', '(', 'a']).outcome =
        .ok (.quantified .zeroOrMore (.alternation [.literal '*', .literal '('])) ∧
      (e.read [')', '*', '|', '(']).outcome = .error (.emptyAlternative 2) ∧
      Tree.written e (.sequence [.literal 'a', .literal '*']) = ['\\', 'a', '*'] := by
  let f : Char → Char := (Equiv.swap '(' ')').trans (Equiv.swap '*' 'a')
  have bijective : Function.Bijective f := Equiv.bijective _
  let e : Dialect :=
    ⟨fun role => f (standard.symbol role),
      fun role other same => standard.symbol_injective role other (bijective.injective same)⟩
  have read : (standard.read ['(', 'a', '|', '\\', ')', ')', '*']).outcome =
      .ok (.quantified .zeroOrMore (.alternation [.literal 'a', .literal ')'])) := by
    cbv
  have misread : (standard.read ['(', 'a', '|', ')']).outcome = .error (.emptyAlternative 2) := by
    cbv
  obtain ⟨reads, writes⟩ := read_and_written_renamed standard e f bijective fun role => rfl
  have exchanged := reads ['(', 'a', '|', '\\', ')', ')', '*']
  have blamed := reads ['(', 'a', '|', ')']
  have written := writes (.sequence [.literal '*', .literal 'a'])
  rw [read] at exchanged
  rw [misread] at blamed
  exact ⟨f, e, bijective, fun role => rfl, rfl, rfl, exchanged, blamed, written⟩

end Dialect

end PatternMachine
