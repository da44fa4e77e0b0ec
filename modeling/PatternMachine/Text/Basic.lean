/-!
# Texts

A text is the list of its characters, so every length, position and cut counts characters.
Beside the type stand the two shapes in which numbers enter a text and the joining of texts.
-/

namespace PatternMachine

/-- A text is the list of its characters. -/
abbrev Text := List Char

namespace Text

/-- The decimal digits of a natural number, without leading zeros. -/
def ofNat (n : Nat) : Text :=
  Nat.toDigits 10 n

def ofInt : Int → Text
  | .ofNat n => ofNat n
  | .negSucc n => '-' :: ofNat (n + 1)

def commaSeparated (texts : List Text) : Text :=
  [',', ' '].intercalate texts

def ofLines (lines : List Text) : Text :=
  ['\n'].intercalate lines

end Text

end PatternMachine
