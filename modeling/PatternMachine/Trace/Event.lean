import PatternMachine.Expression.Term

/-!
# Events

What reading, compiling and matching report on their way. An event holds the data of the report;
its message is the one line under which it is logged.
-/

namespace PatternMachine

/-- A report on the way from a pattern to a match. -/
inductive Event where
  /-- Reading of a captured group begins; it starts at an offset of the text around it. -/
  | group (inner : Text) (offset : Nat) (outer : Text)
  /-- A whole pattern has been read. -/
  | read (pattern : Text) (tree : Expression)
  /-- A tree has been compiled to a number of instructions. -/
  | compiled (tree : Expression) (size : Nat)
  /-- No thread has survived the character at a position. -/
  | extinct (c : Char) (position : Nat)
  deriving DecidableEq

def Event.message : Event → Text
  | .group inner offset outer =>
      "parsing group ".toList ++ inner.quoted ++ " at ".toList ++ Text.ofNat offset ++
        " of ".toList ++ outer.quoted
  | .read pattern tree => "parsed ".toList ++ pattern.quoted ++ " to ".toList ++ tree.term
  | .compiled tree size =>
      "compiled ".toList ++ tree.term ++ " to ".toList ++ Text.ofNat size ++
        " instructions".toList
  | .extinct c position =>
      "no thread survived ".toList ++ Text.quoted [c] ++ " at ".toList ++ Text.ofNat position

end PatternMachine
