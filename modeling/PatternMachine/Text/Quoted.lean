import PatternMachine.Text.Basic
import PatternMachine.Text.Unprintable

/-!
# Quoted texts

A quoted text stands between two equal quotation marks and spells every character in a way that
a reader can take back: a backslash before itself and before the mark in use, letters for the
three common controls, and hexadecimal numbers of fixed width for all other unprintable
characters. `quoteMark_eq_double_iff` says when the double mark is chosen, and
`spelled_of_graphic` that visible ASCII characters stand for themselves.
-/

namespace PatternMachine.Text

def hexadecimal (width n : Nat) : Text :=
  (Nat.toDigits 16 n).leftpad width '0'

/-- A character spelled by the shortest of the three numbered forms that can hold it. -/
def numbered (c : Char) : Text :=
  if c.toNat < 0x100 then '\\' :: 'x' :: hexadecimal 2 c.toNat
  else if c.toNat < 0x10000 then '\\' :: 'u' :: hexadecimal 4 c.toNat
  else '\\' :: 'U' :: hexadecimal 8 c.toNat

def spelled (mark c : Char) : Text :=
  if c = '\\' ∨ c = mark then ['\\', c]
  else if c = '\n' then ['\\', 'n']
  else if c = '\r' then ['\\', 'r']
  else if c = '\t' then ['\\', 't']
  else if isUnprintable c then numbered c
  else [c]

/-- The double mark quotes a text that holds the single mark and not the double one. -/
def quoteMark (text : Text) : Char :=
  if '\'' ∈ text ∧ '"' ∉ text then '"' else '\''

/-- A text between quotation marks, on one line and readable back. -/
def quoted (text : Text) : Text :=
  let mark := quoteMark text
  mark :: text.flatMap (spelled mark) ++ [mark]

def quotedList (texts : List Text) : Text :=
  '[' :: commaSeparated (texts.map quoted) ++ [']']

theorem quoteMark_eq (text : Text) : quoteMark text = '\'' ∨ quoteMark text = '"' := by
  unfold quoteMark
  split <;> simp

theorem quoteMark_eq_double_iff {text : Text} :
    quoteMark text = '"' ↔ '\'' ∈ text ∧ '"' ∉ text := by
  unfold quoteMark
  split <;> simp_all

theorem spelled_of_graphic
    {mark c : Char}
    (blank_le : 32 ≤ c.toNat) (lt_delete : c.toNat < 127)
    (not_backslash : c ≠ '\\') (not_mark : c ≠ mark) :
    spelled mark c = [c] := by
  have not_newline : c ≠ '\n' := by rintro rfl; contradiction
  have not_return : c ≠ '\r' := by rintro rfl; contradiction
  have not_tab : c ≠ '\t' := by rintro rfl; contradiction
  simp [spelled, not_backslash, not_mark, not_newline, not_return, not_tab,
    not_isUnprintable_of_graphic blank_le lt_delete]

end PatternMachine.Text
