import PatternMachine.Text.Quoted

/-!
# Instructions

A program consumes characters, accepts, jumps, or splits into two threads. Targets are absolute
places in the program. A consuming instruction holds a text and passes only where that text is
the next character, so one of any other length never passes.
-/

namespace PatternMachine

inductive Instruction where
  | consume (expected : Text)
  | accept
  | jump (target : Int)
  | split (first second : Int)
  deriving DecidableEq

namespace Instruction

def name : Instruction → Text
  | .consume _ => "MatchChar".toList
  | .accept => "Accept".toList
  | .jump _ => "Jump".toList
  | .split _ _ => "Split".toList

/-- The places at which the instruction may continue without consuming a character. -/
def targets : Instruction → List Int
  | .jump target => [target]
  | .split first second => [first, second]
  | _ => []

def operands : Instruction → List Text
  | .consume expected => [expected.quoted]
  | instruction => instruction.targets.map Text.ofInt

def line (instruction : Instruction) : Text :=
  [' '].intercalate (instruction.name :: instruction.operands)

def term (instruction : Instruction) : Text :=
  instruction.name ++ '(' :: Text.commaSeparated instruction.operands ++ [')']

/-- Whether the instruction lets a thread pass over the given character. -/
def passes (c : Char) : Instruction → Bool
  | .consume expected => expected = [c]
  | _ => false

/-- Whether a thread rests at the instruction until the next character is read. -/
def isResting : Instruction → Bool
  | .consume _ => true
  | .accept => true
  | _ => false

def shifted (distance : Int) : Instruction → Instruction
  | .jump target => .jump (target + distance)
  | .split first second => .split (first + distance) (second + distance)
  | instruction => instruction

end Instruction

end PatternMachine
