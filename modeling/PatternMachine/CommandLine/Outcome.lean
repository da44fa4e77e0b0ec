import PatternMachine.CommandLine.Invocation
import PatternMachine.Expression.Outline
import PatternMachine.Matching
import PatternMachine.Program.Listing

/-!
# Outcomes

What an invocation ends in: a status, what it writes to the two output channels, and a log if one
is asked for. Choosing texts writes those that the pattern matches, each on a line, and succeeds
if there is any; a dump writes the outline of the tree, the tree as a pattern, and the listing of
the program; a faulty pattern is reported with a status of its own. The self-test is only named:
neither the tests it runs nor the operands handed on to them are part of this library.
-/

namespace PatternMachine.CommandLine

structure Outcome where
  status : Nat
  output : Text
  errors : Text
  log : List Event
  deriving DecidableEq

/-- The texts that a pattern matches, in order; the pattern is compiled once for all of them. -/
def chosen (pattern : Text) (texts : List Text) : Traced Fault (List Text) := do
  let program ← compilePattern pattern
  texts.filterM program.run

def dumped (pattern : Text) : Traced Fault Text := do
  let tree ← readPattern pattern
  let program ← tree.compile
  return Text.ofLines
    [tree.outline .standard, "Reconstructed: ".toList ++ tree.written .standard, program.listing]

def printed (texts : List Text) : Text :=
  texts.flatMap (· ++ ['\n'])

/-- The outcome of a traced computation, given how its value is reported. -/
def Outcome.ofTraced
    {α : Type} (verbose : Bool) (computation : Traced Fault α) (conclude : α → Nat × Text) :
    Outcome :=
  let log := if verbose then computation.events else []
  match computation.outcome with
  | .ok value => ⟨(conclude value).1, (conclude value).2, [], log⟩
  | .error fault => ⟨2, [], printed [fault.message], log⟩

/-- The outcome of an invocation. What the self-test runs is left out; it is taken to succeed. -/
def Invocation.outcome : Invocation → Outcome
  | .choose verbose pattern texts =>
      .ofTraced verbose (chosen pattern texts) fun matching =>
        (if matching.isEmpty then 1 else 0, printed matching)
  | .dump verbose pattern =>
      .ofTraced verbose (dumped pattern) fun text => (0, printed [text])
  | .selfTest => ⟨0, [], [], []⟩
  | .help => ⟨0, printed [helpText], [], []⟩

end PatternMachine.CommandLine
