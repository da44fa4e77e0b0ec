import PatternMachine.Dialect.Basic
import PatternMachine.Pattern.Misread

/-!
# Scanning

A scan cuts a pattern into the fragments of its top level. A group is one fragment: everything
between the characters that open and close it is captured as it stands, escapes included, to be
read later. The scan ends early at a character that closes a group although none is open.
`length_lt_of_inner?` says that a captured text is shorter than the pattern.
-/

namespace PatternMachine

/-- A part of a pattern that stands outside of all groups, or a whole group. -/
inductive Fragment where
  | literal (c : Char)
  | group (opening : Nat) (inner : Text)
  | union (position : Nat)
  | quantifier (q : Quantifier) (position : Nat)
  deriving DecidableEq

def Fragment.inner? : Fragment → Option Text
  | .group _ inner => some inner
  | _ => none

structure Scan where
  /-- The number of characters read. -/
  position : Nat
  /-- The positions at which the open groups begin, innermost first. -/
  openings : List Nat
  /-- What has been read of the outermost open group. -/
  captured : Text
  /-- Whether the next character stands for itself. -/
  escaped : Bool
  /-- The fragments completed so far. -/
  fragments : List Fragment
  /-- The position of a character that closes no group; nothing is read behind it. -/
  stray : Option Nat
  deriving DecidableEq

namespace Scan

def start : Scan :=
  ⟨0, [], [], false, [], none⟩

def deliver (s : Scan) (c : Char) (fragment : Fragment) : Scan :=
  if s.openings.isEmpty then
    { s with fragments := s.fragments ++ [fragment] }
  else
    { s with captured := s.captured ++ [c] }

def announce (s : Scan) (c : Char) : Scan :=
  if s.openings.isEmpty then
    { s with escaped := true }
  else
    { s with escaped := true, captured := s.captured ++ [c] }

/-- A character that opens a group; only inside another group is it captured. -/
def openGroup (s : Scan) (c : Char) : Scan :=
  { s with
    openings := s.position :: s.openings
    captured := if s.openings.isEmpty then [] else s.captured ++ [c] }

def closeGroup (s : Scan) (c : Char) : Scan :=
  match s.openings with
  | [] => { s with stray := some s.position }
  | [opening] =>
      { s with openings := [], fragments := s.fragments ++ [.group opening s.captured] }
  | _ :: outer => { s with openings := outer, captured := s.captured ++ [c] }

def take (d : Dialect) (s : Scan) (c : Char) : Scan :=
  if s.escaped then
    { s.deliver c (.literal c) with escaped := false }
  else
    match d.role? c with
    | none => s.deliver c (.literal c)
    | some .escape => s.announce c
    | some .groupBegin => s.openGroup c
    | some .groupEnd => s.closeGroup c
    | some .union => s.deliver c (.union s.position)
    | some (.quantifier q) => s.deliver c (.quantifier q s.position)

/-- Read one more character, unless a stray one has ended the scan. -/
def step (d : Dialect) (s : Scan) (c : Char) : Scan :=
  if s.stray.isSome then s else { s.take d c with position := s.position + 1 }

/-- What makes the scanned text no pattern whatever its fragments are. -/
def misread? (s : Scan) : Option Misread :=
  match s.stray, s.openings with
  | some position, _ => some (.unmatchedParenthesis position)
  | none, opening :: _ => some (.unmatchedParenthesis opening)
  | none, [] => if s.escaped then some (.danglingEscape (s.position - 1)) else none

end Scan

/-- The scan of a whole text. -/
def Dialect.scan (d : Dialect) (text : Text) : Scan :=
  text.foldl (Scan.step d) Scan.start

namespace Scan

/-- Every captured text is shorter than the number of characters read. -/
structure Bounded (count : Nat) (s : Scan) : Prop where
  captured : s.openings ≠ [] → s.captured.length < count
  groups : ∀ opening inner, .group opening inner ∈ s.fragments → inner.length < count

namespace Bounded

variable {count : Nat} {s : Scan}

theorem start : Bounded 0 start :=
  ⟨by simp [Scan.start], by simp [Scan.start]⟩

theorem succ (bounded : s.Bounded count) : s.Bounded (count + 1) where
  captured inside := Nat.lt_succ_of_lt (bounded.captured inside)
  groups opening inner member := Nat.lt_succ_of_lt (bounded.groups opening inner member)

theorem deliver
    (bounded : s.Bounded count) (c : Char) {fragment : Fragment}
    (single : ∀ opening inner, fragment ≠ .group opening inner) :
    (s.deliver c fragment).Bounded (count + 1) := by
  unfold Scan.deliver
  split
  next outside =>
    refine ⟨bounded.succ.captured, fun opening inner member => ?_⟩
    rcases List.mem_append.mp member with member | member
    · exact bounded.succ.groups opening inner member
    · exact absurd (List.mem_singleton.mp member).symm (single opening inner)
  next inside =>
    refine ⟨fun _ => ?_, bounded.succ.groups⟩
    have room := bounded.captured (by simpa using inside)
    simpa using room

theorem announce (bounded : s.Bounded count) (c : Char) :
    (s.announce c).Bounded (count + 1) := by
  unfold Scan.announce
  split
  next outside => exact ⟨bounded.succ.captured, bounded.succ.groups⟩
  next inside =>
    refine ⟨fun _ => ?_, bounded.succ.groups⟩
    have room := bounded.captured (by simpa using inside)
    simpa using room

theorem openGroup (bounded : s.Bounded count) (c : Char) :
    (s.openGroup c).Bounded (count + 1) := by
  refine ⟨fun _ => ?_, bounded.succ.groups⟩
  unfold Scan.openGroup
  by_cases outside : s.openings = []
  · simp [outside]
  · have room := bounded.captured outside
    simpa [outside] using room

theorem closeGroup (bounded : s.Bounded count) (c : Char) :
    (s.closeGroup c).Bounded (count + 1) := by
  unfold Scan.closeGroup
  split
  next => exact ⟨bounded.succ.captured, bounded.succ.groups⟩
  next opening openings_eq =>
    refine ⟨by simp, fun other inner member => ?_⟩
    rcases List.mem_append.mp member with member | member
    · exact bounded.succ.groups other inner member
    · have room := bounded.succ.captured (by simp [openings_eq])
      simp_all
  next openings_eq =>
    refine ⟨fun _ => ?_, bounded.succ.groups⟩
    have room := bounded.captured (by simp [openings_eq])
    simpa using room

theorem step (bounded : s.Bounded count) (d : Dialect) (c : Char) :
    (s.step d c).Bounded (count + 1) := by
  have taken : (s.take d c).Bounded (count + 1) := by
    unfold Scan.take
    split
    · have delivered : (s.deliver c (.literal c)).Bounded (count + 1) :=
        bounded.deliver c (by simp)
      exact ⟨delivered.captured, delivered.groups⟩
    · split
      · exact bounded.deliver c (by simp)
      · exact bounded.announce c
      · exact bounded.openGroup c
      · exact bounded.closeGroup c
      · exact bounded.deliver c (by simp)
      · exact bounded.deliver c (by simp)
  unfold Scan.step
  split
  · exact bounded.succ
  · exact ⟨taken.captured, taken.groups⟩

end Bounded

end Scan

namespace Dialect

theorem scan_append (d : Dialect) (text : Text) (c : Char) :
    d.scan (text ++ [c]) = (d.scan text).step d c := by
  simp [scan]

theorem bounded_scan (d : Dialect) (text : Text) : (d.scan text).Bounded text.length := by
  induction length : text.length generalizing text with
  | zero =>
      rw [List.eq_nil_of_length_eq_zero length]
      exact .start
  | succ count ih =>
      obtain ⟨before, c, rfl⟩ : ∃ before c, text = before ++ [c] :=
        ⟨text.dropLast, text.getLast (by rintro rfl; simp at length),
          (List.dropLast_concat_getLast _).symm⟩
      rw [scan_append]
      exact (ih before (by simpa using length)).step d c

/-- A captured text is shorter than the pattern it was captured from. -/
theorem length_lt_of_inner?
    {d : Dialect} {text inner : Text} {fragment : Fragment}
    (member : fragment ∈ (d.scan text).fragments) (captured : fragment.inner? = some inner) :
    inner.length < text.length := by
  cases fragment with
  | group opening other =>
      cases captured
      exact (d.bounded_scan text).groups opening inner member
  | literal c => cases captured
  | union position => cases captured
  | quantifier q position => cases captured

end Dialect

end PatternMachine
