import PatternMachine.Dialect.Spelling
import PatternMachine.Expression.Code
import PatternMachine.Pattern.Fault
import PatternMachine.Pattern.Reading
import PatternMachine.Program.Simulation

/-!
# From patterns to matches

The three stages in a row, each reporting what it did: a pattern of the standard dialect is read
into a tree, the tree is compiled to a program, and the program runs over a text. A pattern
matches a text only as a whole.
-/

namespace PatternMachine

/-- Compile an expression and report the size of its program. -/
def Tree.compile {ε : Type} (tree : Expression) : Traced ε Program := do
  Traced.report (.compiled tree tree.program.size)
  return tree.program

/-- Run a program over a text and report the character at which all threads died, if any. -/
def Program.run {ε : Type} (p : Program) (text : Text) : Traced ε Bool :=
  let simulation := p.simulate text
  ⟨simulation.extinction.toList.map fun (c, position) => .extinct c position,
    .ok (simulation.final.isAccepting p)⟩

def readPattern (pattern : Text) : Traced Fault Expression := do
  let tree ← (Dialect.standard.read pattern).mapFault (Misread.fault pattern)
  Traced.report (.read pattern tree)
  return tree

def compilePattern (pattern : Text) : Traced Fault Program := do
  let tree ← readPattern pattern
  tree.compile

def matchPattern (pattern text : Text) : Traced Fault Bool := do
  let program ← compilePattern pattern
  program.run text

@[simp]
theorem outcome_run {ε : Type} (p : Program) (text : Text) :
    (p.run text : Traced ε Bool).outcome = .ok (p.accepts text) := rfl

@[simp]
theorem outcome_compile {ε : Type} (tree : Expression) :
    (tree.compile : Traced ε Program).outcome = .ok tree.program := rfl

end PatternMachine
