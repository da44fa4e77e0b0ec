import PatternMachine.Program.ThreadList

/-!
# Simulation

A program runs over a text with all threads in step: one thread list stands before the first
character and one behind every character read. Reading stops behind a character that no thread
survives. A text matches if the last list is accepting.
-/

namespace PatternMachine

/-- The thread list at the start, those behind the characters read, and an early end. -/
structure Simulation where
  start : ThreadList
  later : List ThreadList
  extinction : Option (Char × Nat)
  deriving DecidableEq

namespace Simulation

/-- All thread lists in the order of the text. -/
def lists (s : Simulation) : List ThreadList :=
  s.start :: s.later

def final (s : Simulation) : ThreadList :=
  s.later.getLast?.getD s.start

end Simulation

namespace Program

/--
Run over a text from the given thread list, the next character having the given position. The
list of an unsurvived character is the last one.
-/
def simulateFrom (p : Program) (position : Nat) (list : ThreadList) : Text → Simulation
  | [] => ⟨list, [], none⟩
  | c :: rest =>
      let next := list.advance p c
      if next.threads.isEmpty then
        ⟨list, [next], some (c, position)⟩
      else
        let run := simulateFrom p (position + 1) next rest
        ⟨list, run.lists, run.extinction⟩

def startList (p : Program) : ThreadList :=
  ThreadList.empty.add p 0

def simulate (p : Program) (text : Text) : Simulation :=
  p.simulateFrom 0 p.startList text

/-- Whether a program matches the whole of a text. -/
def accepts (p : Program) (text : Text) : Bool :=
  (p.simulate text).final.isAccepting p

@[simp]
theorem start_simulateFrom (p : Program) (position : Nat) (list : ThreadList) (text : Text) :
    (p.simulateFrom position list text).start = list := by
  cases text with
  | nil => rfl
  | cons c rest =>
      simp only [simulateFrom]
      split <;> rfl

/-- A simulation has at most one more list than the text has characters. -/
theorem length_later_simulateFrom_le
    (p : Program) (position : Nat) (list : ThreadList) (text : Text) :
    (p.simulateFrom position list text).later.length ≤ text.length := by
  induction text generalizing position list with
  | nil => simp [simulateFrom]
  | cons c rest ih =>
      simp only [simulateFrom]
      split
      · simp
      · simpa [Simulation.lists] using ih (position + 1) (list.advance p c)

end Program

end PatternMachine
