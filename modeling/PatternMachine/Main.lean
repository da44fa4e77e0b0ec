import PatternMachine.CommandLine.Outcome

/-!
# Command line

The program around the library: it asks for the outcome of its arguments, writes what the outcome
says to the output channels, the log before the rest, and ends with the status. Arguments that
ask for nothing are answered with the usage.
-/

open PatternMachine

def main (arguments : List String) : IO UInt32 := do
  match CommandLine.Invocation.ofArguments? (arguments.map String.toList) with
  | .error misuse =>
      IO.eprintln (String.ofList misuse.message)
      return 1
  | .ok invocation =>
      let outcome := invocation.outcome
      for event in outcome.log do
        IO.eprintln (String.ofList ("DEBUG ".toList ++ event.message))
      IO.print (String.ofList outcome.output)
      IO.eprint (String.ofList outcome.errors)
      return outcome.status.toUInt32
