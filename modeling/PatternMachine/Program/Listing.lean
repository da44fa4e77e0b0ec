import PatternMachine.Program.Basic

/-!
# Listings

A program is listed with one line for each instruction, its place aligned to the right so that
all colons stand in one column, and written as a term over the terms of its instructions.
-/

namespace PatternMachine.Program

/-- One line of a listing, with the place filled up to the given width. -/
def listingLine (width place : Nat) (instruction : Instruction) : Text :=
  (Text.ofNat place).leftpad width ' ' ++ ':' :: ' ' :: instruction.line

def listingLines (p : Program) : List Text :=
  let width := (Text.ofNat (p.size - 1)).length
  p.code.zipIdx.map fun (instruction, place) => listingLine width place instruction

def listing (p : Program) : Text :=
  Text.ofLines p.listingLines

def term (p : Program) : Text :=
  "Program([".toList ++ Text.commaSeparated (p.code.map Instruction.term) ++ "])".toList

@[simp]
theorem length_listingLines (p : Program) : p.listingLines.length = p.size := by
  simp [listingLines]

end PatternMachine.Program
