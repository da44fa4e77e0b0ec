import PatternMachine.Text.Basic

/-!
# Arguments

Arguments are sorted into operands and flags. A double dash ends the flags and counts as an
operand, like everything behind it; a single dash is an operand too. A long flag may be cut short
as long as only one known flag begins like that. If it is one that takes values, its value stands
behind an equals sign or is the next argument, whatever that is: a double dash too. Short flags
may share a dash. A long flag that is not known is added to the known ones, so a later argument
may refer to it.
-/

namespace PatternMachine.CommandLine

structure Flag where
  short : Option Char
  long : Option Text
  takesValue : Bool
  deriving DecidableEq

namespace Flag

def help : Flag :=
  ⟨some 'h', some "--help".toList, false⟩

def verbose : Flag :=
  ⟨some 'v', some "--verbose".toList, false⟩

def all : List Flag :=
  [help, verbose]

def longBegins (start : Text) (flag : Flag) : Bool :=
  flag.long.any start.isPrefixOf

end Flag

/-- One sorted argument; several short flags behind one dash make several words. -/
inductive Word where
  | operand (text : Text)
  | flag (flag : Flag)
  deriving DecidableEq

inductive Misuse where
  | ambiguous (given : Text) (candidates : List Text)
  | unwantedValue (name : Text)
  | missingValue (name : Text)
  | unfit
  deriving DecidableEq

/-- The name in front of the first equals sign of a long flag, and the value behind it. -/
def splitValue (argument : Text) : Text × Option Text :=
  match argument.span (· ≠ '=') with
  | (name, []) => (name, none)
  | (name, _ :: value) => (name, some value)

/-- The known flags that a long name may mean: the one of that name, else all that begin so. -/
def candidates (known : List Flag) (name : Text) : List Flag :=
  match known.filter fun flag => flag.long = some name with
  | [] => known.filter (Flag.longBegins name)
  | exact => exact

/-- What a long flag means: the flag, and whether its value is the argument behind it. -/
def longFlag? (known : List Flag) (argument : Text) : Except Misuse (Flag × Bool) :=
  let (name, value) := splitValue argument
  match candidates known name with
  | [] => .ok (⟨none, some name, value.isSome⟩, false)
  | [flag] =>
      if flag.takesValue then .ok (flag, value.isNone)
      else if value.isSome then .error (.unwantedValue (flag.long.getD name))
      else .ok (flag, false)
  | several => .error (.ambiguous name (several.filterMap Flag.long))

def shortFlag (known : List Flag) (name : Char) : Flag :=
  (known.find? fun flag => flag.short = some name).getD ⟨some name, none, false⟩

/-- Sort arguments by what they are, given the flags known so far. -/
def sort (known : List Flag) : List Text → Except Misuse (List Word)
  | [] => .ok []
  | ['-', '-'] :: arguments => .ok ((['-', '-'] :: arguments).map .operand)
  | ('-' :: '-' :: name) :: arguments => do
      let (flag, valueBehind) ← longFlag? known ('-' :: '-' :: name)
      let known := if flag ∈ known then known else known ++ [flag]
      if valueBehind then
        match arguments with
        | [] => .error (.missingValue (flag.long.getD name))
        | _ :: arguments => return .flag flag :: (← sort known arguments)
      else
        return .flag flag :: (← sort known arguments)
  | ['-'] :: arguments => return .operand ['-'] :: (← sort known arguments)
  | ('-' :: names) :: arguments =>
      return names.map (fun name => .flag (shortFlag known name)) ++ (← sort known arguments)
  | argument :: arguments => return .operand argument :: (← sort known arguments)

def operands (words : List Word) : List Text :=
  words.filterMap fun
    | .operand text => some text
    | .flag _ => none

def flags (words : List Word) : List Flag :=
  words.filterMap fun
    | .operand _ => none
    | .flag flag => some flag

end PatternMachine.CommandLine
