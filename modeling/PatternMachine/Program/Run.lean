import PatternMachine.Program.Basic

/-!
# Runs

A run follows one thread through a program: it takes any target of an instruction that has
targets, and passes over a character at an instruction that lets it. A program admits a text if
some run from its start consumes the text and ends at acceptance. `Run.trans` says that runs
compose.
-/

namespace PatternMachine.Program

/-- A way from one pointer to another that consumes a text. -/
inductive Run (p : Program) : Int → Text → Int → Prop where
  | stay (pointer : Int) : Run p pointer [] pointer
  | turn {pointer target last : Int} {instruction : Instruction} {text : Text}
      (found : p.lookup? pointer = some instruction)
      (offered : target ∈ instruction.targets)
      (rest : Run p target text last) :
      Run p pointer text last
  | pass {pointer last : Int} {instruction : Instruction} {c : Char} {text : Text}
      (found : p.lookup? pointer = some instruction)
      (passes : instruction.passes c = true)
      (rest : Run p (pointer + 1) text last) :
      Run p pointer (c :: text) last

/-- Whether a run from the start consumes a text and ends at acceptance. -/
def Admits (p : Program) (text : Text) : Prop :=
  ∃ last, Run p 0 text last ∧ p.lookup? last = some .accept

namespace Run

variable {p : Program} {first middle last : Int} {text rest : Text}

theorem trans (before : Run p first text middle) (after : Run p middle rest last) :
    Run p first (text ++ rest) last := by
  induction before with
  | stay pointer => exact after
  | turn found offered _ ih => exact .turn found offered (ih after)
  | pass found passes _ ih => exact .pass found passes (ih after)

theorem eq_of_accept
    (accepting : p.lookup? first = some .accept) (run : Run p first text last) :
    text = [] ∧ last = first := by
  cases run with
  | stay => exact ⟨rfl, rfl⟩
  | turn found offered _ =>
      cases accepting.symm.trans found
      simp [Instruction.targets] at offered
  | pass found passes _ =>
      cases accepting.symm.trans found
      simp [Instruction.passes] at passes

end Run

end PatternMachine.Program
