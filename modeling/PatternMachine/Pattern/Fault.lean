import PatternMachine.Index
import PatternMachine.Pattern.Misread
import PatternMachine.Text.Basic

/-!
# Faults

A fault is what a reader of patterns is told: its kind, the reason in words, the position and the
text that it refers to. Some reasons name the character at the position, which then has to exist;
positions are signed, and negative ones count from the end of the text. A fault is annotated with
a caret under its position, and `annotation?_eq_none_iff` says when it has no annotation; a caret
fault tells why one that is asked for is not laid out. `placed_misread` says that a misreading is
reported as its kind placed at its position.
-/

namespace PatternMachine

/-- A text with a caret on a line of its own, under a position that is not negative. -/
def Text.annotated? (text : Text) : Int → Option Text
  | .ofNat position => some (text ++ '\n' :: List.replicate position ' ' ++ ['^'])
  | .negSucc _ => none

inductive CaretFault where
  /-- The number of its columns is no word. -/
  | uncountable
  /-- Its columns, of eight bytes each, take more bytes than a word counts. -/
  | tooWide
  /-- It has no column for the caret. -/
  | misplaced (miss : Index.Miss)
  deriving DecidableEq

namespace CaretFault

/--
What is wrong with a position as the place of a caret, if anything. The line ends with the caret,
and it is measured before the caret is put.
-/
def at? (position : Int) : Option CaretFault :=
  if ¬ Index.IsWord (position + 1) then some .uncountable
  else if position < 0 then some (.misplaced (Index.miss position))
  else if ¬ Index.IsWord (8 * (position + 1)) then some .tooWide
  else none

theorem isSome_annotated?_of_at?
    {position : Int} (text : Text) (sound : at? position = none) :
    (text.annotated? position).isSome := by
  cases position with
  | ofNat column => rfl
  | negSucc n =>
      unfold at? at sound
      rw [if_pos (Int.negSucc_lt_zero n)] at sound
      repeat' split at sound
      all_goals contradiction

end CaretFault

/-- The kind of a fault; a general one is of no particular kind. -/
inductive FaultKind where
  | general
  | emptyPattern
  | emptyGroup
  | emptyAlternative
  | misplacedOperator
  | danglingEscape
  | unmatchedParenthesis
  deriving DecidableEq

namespace FaultKind

def name : FaultKind → Text
  | .general => "ParserError".toList
  | .emptyPattern => "EmptyPattern".toList
  | .emptyGroup => "EmptyGroup".toList
  | .emptyAlternative => "EmptyAlternative".toList
  | .misplacedOperator => "MisplacedOperator".toList
  | .danglingEscape => "DanglingEscape".toList
  | .unmatchedParenthesis => "UnmatchedParenthesis".toList

def namesCharacter : FaultKind → Bool
  | .misplacedOperator => true
  | .unmatchedParenthesis => true
  | _ => false

def reason : FaultKind → Option Char → Text
  | .general, _ => []
  | .emptyPattern, _ => "pattern is empty".toList
  | .emptyGroup, _ => "group is empty".toList
  | .emptyAlternative, _ => "alternative is empty".toList
  | .misplacedOperator, none => "operator is not preceded by an expression".toList
  | .misplacedOperator, some c => c :: " is not preceded by an expression".toList
  | .danglingEscape, _ => "escape is not followed by a character".toList
  | .unmatchedParenthesis, none => "found unmatched parenthesis".toList
  | .unmatchedParenthesis, some c => "found unmatched ".toList ++ [c]

/--
Whether a fault of the first kind may stand for one of the second: a general fault for any, a
misplaced operator for an escape at the end, and every kind for itself.
-/
def covers (kind other : FaultKind) : Bool :=
  kind = other || kind = .general || kind = .misplacedOperator && other = .danglingEscape

end FaultKind

structure Fault where
  kind : FaultKind
  reason : Text
  position : Option Int
  text : Option Text
  deriving DecidableEq

inductive PlacingFault where
  /-- It needs a position and has none, or it is of no particular kind and stays where it is. -/
  | unplaced
  /-- The reason is to name a character that the text does not have. -/
  | missed (miss : Index.Miss)
  deriving DecidableEq

namespace Fault

def general (reason : Text) (position : Option Int) (text : Option Text) : Fault :=
  ⟨.general, reason, position, text⟩

def emptyPattern (text : Option Text) : Fault :=
  ⟨.emptyPattern, FaultKind.emptyPattern.reason none, none, text⟩

/--
A fault at a position of a text. If the reason is to name the character there, the text needs to
have one; without a text it names none.
-/
def placed (kind : FaultKind) (position : Option Int) (text : Option Text) :
    Except PlacingFault Fault :=
  match text, kind.namesCharacter with
  | some entire, true =>
      match position with
      | some index =>
          match Index.lookup? entire index with
          | some c => .ok ⟨kind, kind.reason (some c), position, text⟩
          | none => .error (.missed (Index.miss index))
      | none => .error .unplaced
  | _, _ => .ok ⟨kind, kind.reason none, position, text⟩

/--
The fault as it is described from a text in which the text it was found in starts at `offset`. An
empty pattern only changes its text, and every other fault needs a position. A general fault is
left out: its reason is in free words, which no place gives it anew.
-/
def moved (fault : Fault) (offset : Int) (text : Option Text) : Except PlacingFault Fault :=
  match fault.kind, fault.position with
  | .emptyPattern, _ => .ok (emptyPattern text)
  | .general, _ => .error .unplaced
  | _, none => .error .unplaced
  | kind, some position => placed kind (some (position + offset)) text

def annotation? (fault : Fault) : Option Text := do
  (← fault.text).annotated? (← fault.position)

theorem annotation?_eq_none_iff {fault : Fault} :
    fault.annotation? = none ↔
      fault.text = none ∨ fault.position = none ∨ ∃ n, fault.position = some (Int.negSucc n) := by
  obtain ⟨kind, reason, position, text⟩ := fault
  rcases position with _ | (column | n) <;> cases text <;>
    simp [annotation?, Text.annotated?]

def caretFault? (fault : Fault) : Option CaretFault :=
  if fault.text.isSome then fault.position.bind CaretFault.at? else none

def message (fault : Fault) : Text :=
  match fault.annotation? with
  | some annotation => fault.reason ++ '\n' :: annotation
  | none => fault.reason

def term (fault : Fault) : Text :=
  let position :=
    match fault.kind, fault.position with
    | .emptyPattern, _ => []
    | _, some position => Text.ofInt position
    | _, none => "None".toList
  fault.kind.name ++ '(' :: position ++ [')']

/-- Whether two faults count as the same report: equal positions, and one kind covers the other. -/
def agrees (fault other : Fault) : Bool :=
  (fault.kind.covers other.kind || other.kind.covers fault.kind) &&
    fault.position = other.position

/-- What has to differ for two faults to be counted apart. -/
def key (fault : Fault) : FaultKind × Option Int :=
  (fault.kind, fault.position)

end Fault

namespace Misread

def kind : Misread → FaultKind
  | .emptyPattern => .emptyPattern
  | .emptyGroup _ => .emptyGroup
  | .emptyAlternative _ => .emptyAlternative
  | .misplacedOperator _ => .misplacedOperator
  | .danglingEscape _ => .danglingEscape
  | .unmatchedParenthesis _ => .unmatchedParenthesis

/-- The report of a misreading of a text. -/
def fault (text : Text) (misread : Misread) : Fault where
  kind := misread.kind
  reason := misread.kind.reason (misread.position?.bind fun position => text[position]?)
  position := misread.position?.map Int.ofNat
  text := some text

theorem placed_misread
    {text : Text} {misread : Misread} {position : Nat}
    (at_position : misread.position? = some position) (inside : position < text.length) :
    Fault.placed misread.kind (some position) (some text) = .ok (misread.fault text) := by
  have found : text[position]? = some text[position] := List.getElem?_eq_getElem inside
  cases misread <;> cases at_position
  case misplacedOperator =>
    simp only [Fault.placed, kind, FaultKind.namesCharacter, Index.lookup?_ofNat, found,
      Option.map_some, fault, position?, Option.bind_some, Int.ofNat_eq_natCast]
  case unmatchedParenthesis =>
    simp only [Fault.placed, kind, FaultKind.namesCharacter, Index.lookup?_ofNat, found,
      Option.map_some, fault, position?, Option.bind_some, Int.ofNat_eq_natCast]
  all_goals rfl

/-- A misreading inside of a group is moved outward by moving its report. -/
theorem moved_fault
    {misread : Misread} {inner text : Text} {opening position : Nat}
    (at_position : misread.position? = some position)
    (inside : opening + 1 + position < text.length) :
    (misread.fault inner).moved (opening + 1) (some text) =
      .ok ((misread.outward opening).fault text) := by
  have outer_position : (misread.outward opening).position? = some (opening + 1 + position) := by
    simp [at_position]
  have placed := Misread.placed_misread outer_position inside
  have shift : (position : Int) + (opening + 1) = (opening + 1 + position : Nat) := by omega
  cases misread <;> cases at_position
  all_goals
    simp only [fault, Fault.moved, kind, position?, Option.map_some, Int.ofNat_eq_natCast, shift]
    exact placed

end Misread

end PatternMachine
