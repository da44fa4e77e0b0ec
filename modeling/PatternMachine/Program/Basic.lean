import PatternMachine.Index
import PatternMachine.Program.Instruction

/-!
# Programs

A program is a body of instructions that may not accept, followed by the one instruction that
does. All its targets lie inside it, which its type guarantees. `ofCode?` takes an instruction
list for a program or reports the first fault, and `ofCode?_code` says that it accepts exactly
what programs consist of.
-/

namespace PatternMachine

def Instruction.InRange (size : Nat) (target : Int) : Prop :=
  0 ≤ target ∧ target < size

instance (size : Nat) (target : Int) : Decidable (Instruction.InRange size target) :=
  inferInstanceAs (Decidable (_ ∧ _))

structure Instruction.Fits (size : Nat) (instruction : Instruction) : Prop where
  not_accept : instruction ≠ .accept
  inRange : ∀ target ∈ instruction.targets, InRange size target

/-- Instructions before a final accepting one, with all targets inside the program. -/
structure Program where
  body : Array Instruction
  fits : ∀ instruction ∈ body, instruction.Fits (body.size + 1)

namespace Program

instance : DecidableEq Program := fun p q =>
  decidable_of_iff (p.body = q.body)
    ⟨fun equal => by cases p; cases q; cases equal; rfl, fun equal => equal ▸ rfl⟩

def size (p : Program) : Nat :=
  p.body.size + 1

def code (p : Program) : List Instruction :=
  p.body.toList ++ [.accept]

def at? (p : Program) (place : Nat) : Option Instruction :=
  if inside : place < p.body.size then some p.body[place]
  else if place = p.body.size then some .accept
  else none

/-- The instruction that a signed index means, negative ones counting from the end. -/
def lookup? (p : Program) (index : Int) : Option Instruction :=
  (Index.resolve? p.size index).bind p.at?

@[simp]
theorem length_code (p : Program) : p.code.length = p.size := by
  simp [code, size]

theorem at?_eq_getElem? (p : Program) (place : Nat) : p.at? place = p.code[place]? := by
  unfold at? code
  split
  next inside => simp [List.getElem?_append_left, inside]
  next outside =>
    rw [List.getElem?_append_right (by simpa using outside)]
    split
    next last => simp [last]
    next beyond =>
      rw [List.getElem?_eq_none]
      simp
      omega

theorem lookup?_eq (p : Program) (index : Int) : p.lookup? index = Index.lookup? p.code index := by
  simp [lookup?, Index.lookup?, funext p.at?_eq_getElem?]

inductive CodeFault where
  | empty
  | noFinalAccept
  | earlyAccept (place : Nat)
  | targetOutside (instruction : Instruction) (place : Nat)
  deriving DecidableEq

def CodeFault.message : CodeFault → Text
  | .empty => "a program needs at least one instruction".toList
  | .noFinalAccept => "a program has to end with Accept".toList
  | .earlyAccept place =>
      "unexpected Accept at ".toList ++ Text.ofNat place ++
        ", only the last instruction may accept".toList
  | .targetOutside instruction place =>
      instruction.line ++ " at ".toList ++ Text.ofNat place ++
        " jumps outside of the program".toList

def instructionFault? (size place : Nat) (instruction : Instruction) : Option CodeFault :=
  if instruction = .accept then some (.earlyAccept place)
  else if ∀ target ∈ instruction.targets, Instruction.InRange size target then none
  else some (.targetOutside instruction place)

theorem instructionFault?_eq_none_iff {size place : Nat} {instruction : Instruction} :
    instructionFault? size place instruction = none ↔ instruction.Fits size := by
  unfold instructionFault?
  constructor
  · intro absent
    split at absent
    · contradiction
    · split at absent
      · exact ⟨by assumption, by assumption⟩
      · contradiction
  · intro fits
    rw [if_neg fits.not_accept, if_pos fits.inRange]

instance (size : Nat) (instruction : Instruction) : Decidable (instruction.Fits size) :=
  decidable_of_iff (instructionFault? size 0 instruction = none) instructionFault?_eq_none_iff

/-- The fault at the smallest place, counting from the given one. -/
def firstFault? (size place : Nat) : List Instruction → Option CodeFault
  | [] => none
  | instruction :: rest =>
      instructionFault? size place instruction <|> firstFault? size (place + 1) rest

theorem firstFault?_eq_none_iff {size place : Nat} {body : List Instruction} :
    firstFault? size place body = none ↔
      ∀ instruction ∈ body, instruction.Fits size := by
  induction body generalizing place with
  | nil => simp [firstFault?]
  | cons instruction rest ih =>
      simp [firstFault?, instructionFault?_eq_none_iff, ih]

/-- The program that a list of instructions is, or the first fault of the list. -/
def ofCode? (code : List Instruction) : Except CodeFault Program :=
  match code.getLast? with
  | none => .error .empty
  | some .accept =>
      let body := code.dropLast
      match sound : firstFault? (body.length + 1) 0 body with
      | none => .ok ⟨body.toArray, by simpa using firstFault?_eq_none_iff.mp sound⟩
      | some fault => .error fault
  | some _ => .error .noFinalAccept

theorem ofCode?_code (p : Program) : ofCode? p.code = .ok p := by
  have sound : firstFault? (p.body.toList.length + 1) 0 p.body.toList = none :=
    firstFault?_eq_none_iff.mpr (by simpa using p.fits)
  simp only [ofCode?, code, List.getLast?_append, List.getLast?_singleton, Option.some_or,
    List.dropLast_concat]
  split
  · rfl
  · simp_all

end Program

end PatternMachine
