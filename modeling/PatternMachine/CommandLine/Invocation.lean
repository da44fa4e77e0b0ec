import PatternMachine.CommandLine.Arguments

/-!
# Invocations

Sorted arguments ask for one of four things: a choice among texts by a pattern, a dump of what a
pattern means, the self-test, or help. Help is granted before anything else is asked of the
arguments; otherwise the first operand names the command, and a log may be asked for once.
-/

namespace PatternMachine.CommandLine

inductive Invocation where
  | choose (verbose : Bool) (pattern : Text) (texts : List Text)
  | dump (verbose : Bool) (pattern : Text)
  | selfTest
  | help
  deriving DecidableEq

def usage : Text :=
  "Usage:
      regexvm match [-v] <pattern> <string>...
      regexvm dump [-v] <pattern>
      regexvm test [<args>...]
      regexvm -h | --help".toList

def helpText : Text :=
  "    ".toList ++ usage ++ "

    Options:
      -h --help     Show this.
      -v --verbose  Log what the parser, compiler and matcher do.
    ".toList

def Misuse.message (misuse : Misuse) : Text :=
  match misuse with
  | .ambiguous given candidates =>
      given ++ " is not a unique prefix: ".toList ++ Text.commaSeparated candidates ++
        '?' :: '\n' :: usage
  | .unwantedValue name => name ++ " must not have an argument\n".toList ++ usage
  | .missingValue name => name ++ " requires argument\n".toList ++ usage
  | .unfit => usage

namespace Invocation

/-- Whether the flags hold nothing but at most one request for a log, and if so whether one. -/
def verbosity? : List Flag → Option Bool
  | [] => some false
  | [flag] => if flag = .verbose then some true else none
  | _ => none

/-- What operands and flags ask for, help apart. -/
def ofWords? (operands : List Text) (flags : List Flag) : Option Invocation :=
  match operands with
  | command :: arguments =>
      if command = "match".toList then
        match arguments, verbosity? flags with
        | pattern :: text :: texts, some verbose => some (.choose verbose pattern (text :: texts))
        | _, _ => none
      else if command = "dump".toList then
        match arguments, verbosity? flags with
        | [pattern], some verbose => some (.dump verbose pattern)
        | _, _ => none
      else if command = "test".toList ∧ flags = [] then
        some .selfTest
      else
        none
  | [] => none

def ofArguments? (arguments : List Text) : Except Misuse Invocation := do
  let words ← sort Flag.all arguments
  if .help ∈ flags words then
    return .help
  match ofWords? (operands words) (flags words) with
  | some invocation => return invocation
  | none => .error .unfit

end Invocation

end PatternMachine.CommandLine
