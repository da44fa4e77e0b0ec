import Mathlib.Data.List.Basic
import PatternMachine.Program.Listing
import PatternMachine.Proofs.Text.Lines
import PatternMachine.Proofs.Text.Quoting

/-!
# Listings show programs

A listing has one line for each instruction, whatever text the instruction consumes, and its places
are as wide as the largest one. A line shows its instruction (`line_injective`): the name ends at
the first blank, and the operands are numbers without blanks or one quoted text. So the listing of
a program determines the program.
-/

namespace PatternMachine

open PatternMachine.Text (ofNat ofInt)

namespace Instruction

variable {instruction other : Instruction}

theorem line_eq (instruction : Instruction) :
    instruction.line = instruction.name ++ instruction.operands.flatMap (' ' :: ·) :=
  Text.intercalate_cons ' ' instruction.name instruction.operands

theorem isAlpha_of_mem_name {c : Char} (member : c ∈ instruction.name) : c.isAlpha = true := by
  have every : instruction.name.all Char.isAlpha = true := by cases instruction <;> rfl
  exact List.all_eq_true.mp every c member

theorem takeWhile_line (instruction : Instruction) :
    instruction.line.takeWhile (· ≠ ' ') = instruction.name := by
  have inside : ∀ c ∈ instruction.name, decide (c ≠ ' ') = true := by
    intro c member
    refine decide_eq_true ?_
    rintro rfl
    exact absurd (isAlpha_of_mem_name member) (by decide)
  rw [line_eq, List.takeWhile_append_of_pos inside]
  cases instruction.operands <;> simp

theorem ofInt_pair_injective {m n k l : Int}
    (same : ofInt m ++ ' ' :: ofInt n = ofInt k ++ ' ' :: ofInt l) :
    m = k ∧ n = l := by
  have no_blank (number : Int) : ' ' ∉ ofInt number := Text.not_mem_ofInt rfl (by decide)
  have parts := congrArg (List.splitOn ' ') same
  rw [List.splitOn_append_cons_self_of_not_mem (no_blank m),
    List.splitOn_append_cons_self_of_not_mem (no_blank k)] at parts
  have first := (List.cons.inj parts).1
  rw [first] at same
  have second := (List.cons.inj (List.append_cancel_left same)).2
  exact ⟨Text.ofInt_injective first, Text.ofInt_injective second⟩

/-- A line shows its instruction. -/
theorem line_injective (same : instruction.line = other.line) : instruction = other := by
  have name_eq : instruction.name = other.name := by
    rw [← takeWhile_line, same, takeWhile_line]
  have operands_eq :
      instruction.operands.flatMap (' ' :: ·) = other.operands.flatMap (' ' :: ·) := by
    rw [line_eq, line_eq, name_eq] at same
    exact List.append_cancel_left same
  -- the names of two constructors have different lengths
  have length_eq := congrArg List.length name_eq
  cases instruction <;> cases other <;>
    try exact absurd length_eq (Nat.ne_of_beq_eq_false rfl)
  case consume.consume text text' =>
    simp only [operands, List.flatMap_singleton, List.cons.injEq, true_and] at operands_eq
    rw [Text.quoted_injective operands_eq]
  case accept.accept => rfl
  case jump.jump target target' =>
    simp only [operands, targets, List.map_cons, List.map_nil, List.flatMap_singleton,
      List.cons.injEq, true_and] at operands_eq
    rw [Text.ofInt_injective operands_eq]
  case split.split first second first' second' =>
    simp only [operands, targets, List.map_cons, List.map_nil, List.flatMap_cons,
      List.flatMap_nil, List.append_nil, List.cons_append, List.cons.injEq, true_and] at operands_eq
    obtain ⟨rfl, rfl⟩ := ofInt_pair_injective operands_eq
    rfl

theorem newline_not_mem_operand {operand : Text} (member : operand ∈ instruction.operands) :
    '\n' ∉ operand := by
  have no_number (target : Int) : '\n' ∉ ofInt target := Text.not_mem_ofInt rfl (by decide)
  have of_targets (member : operand ∈ instruction.targets.map ofInt) : '\n' ∉ operand := by
    obtain ⟨target, _, rfl⟩ := List.mem_map.mp member
    exact no_number target
  cases instruction with
  | consume text => exact List.mem_singleton.mp member ▸ Text.newline_not_mem_quoted text
  | _ => exact of_targets member

theorem newline_not_mem_line (instruction : Instruction) : '\n' ∉ instruction.line := by
  have no_name : '\n' ∉ instruction.name := fun member =>
    absurd (isAlpha_of_mem_name member) (by decide)
  rw [line_eq]
  intro member
  rcases List.mem_append.mp member with in_name | in_operands
  · exact no_name in_name
  · obtain ⟨operand, given, inside⟩ := List.mem_flatMap.mp in_operands
    rcases List.mem_cons.mp inside with blank | inside
    · contradiction
    · exact newline_not_mem_operand given inside

end Instruction

namespace Program

variable {p : Program} {place : Nat} {instruction : Instruction}

def placeWidth (p : Program) : Nat :=
  (ofNat (p.size - 1)).length

theorem getElem?_listingLines (p : Program) (place : Nat) :
    p.listingLines[place]? = p.code[place]?.map fun instruction =>
      listingLine p.placeWidth place instruction := by
  rw [listingLines, List.getElem?_map, List.getElem?_zipIdx, Option.map_map]
  simp only [Nat.zero_add]
  rfl

theorem length_place_le (found : p.code[place]? = some instruction) :
    (ofNat place).length ≤ p.placeWidth := by
  have inside := (List.getElem?_eq_some_iff.mp found).1
  rw [length_code] at inside
  exact Text.length_ofNat_le (by omega)

theorem mem_listingLines {line : Text} (member : line ∈ p.listingLines) :
    ∃ place instruction, p.code[place]? = some instruction ∧
      line = listingLine p.placeWidth place instruction := by
  obtain ⟨place, found⟩ := List.mem_iff_getElem?.mp member
  rw [getElem?_listingLines, Option.map_eq_some_iff] at found
  obtain ⟨instruction, at_place, rfl⟩ := found
  exact ⟨place, instruction, at_place, rfl⟩

theorem newline_not_mem_listingLine (width place : Nat) (instruction : Instruction) :
    '\n' ∉ listingLine width place instruction := by
  have no_place : '\n' ∉ ofNat place := Text.not_mem_ofNat rfl
  simp [listingLine, List.leftpad, List.mem_replicate, no_place, instruction.newline_not_mem_line]

/-- The first colon of a line stands behind the place. -/
theorem idxOf_colon_listingLine (found : p.code[place]? = some instruction) :
    (listingLine p.placeWidth place instruction).idxOf ':' = p.placeWidth := by
  have no_colon : ':' ∉ (ofNat place).leftpad p.placeWidth ' ' := by
    have no_place : ':' ∉ ofNat place := Text.not_mem_ofNat rfl
    simp [List.leftpad, List.mem_replicate, no_place]
  rw [listingLine, List.idxOf_append_of_notMem no_colon, List.idxOf_cons_self,
    List.length_leftpad, Nat.max_eq_left (length_place_le found), Nat.add_zero]

/-- The lines of a listing are found again at its line feeds. -/
theorem splitOn_listing (p : Program) : p.listing.splitOn '\n' = p.listingLines := by
  have nonempty : p.listingLines ≠ [] := by
    rw [← List.length_pos_iff, length_listingLines]
    exact Nat.succ_pos _
  refine Text.splitOn_ofLines nonempty fun line member => ?_
  obtain ⟨place, instruction, _, rfl⟩ := mem_listingLines member
  exact newline_not_mem_listingLine p.placeWidth place instruction

theorem eq_of_code_eq {p q : Program} (same : p.code = q.code) : p = q := by
  have read := ofCode?_code p
  rw [same, ofCode?_code q] at read
  exact (Except.ok.inj read).symm

theorem listing_injective {p q : Program} (same : p.listing = q.listing) : p = q := by
  have lines_eq : p.listingLines = q.listingLines := by
    rw [← splitOn_listing, same, splitOn_listing]
  have width_eq : p.placeWidth = q.placeWidth := by
    have size_eq := congrArg List.length lines_eq
    rw [length_listingLines, length_listingLines] at size_eq
    rw [placeWidth, placeWidth, size_eq]
  refine eq_of_code_eq (List.ext_getElem? fun place => ?_)
  have line_eq := congrArg (·[place]?) lines_eq
  simp only [getElem?_listingLines, ← width_eq] at line_eq
  refine Option.map_injective (fun first second shown => ?_) line_eq
  have behind := List.append_cancel_left shown
  exact Instruction.line_injective (List.cons.inj (List.cons.inj behind).2).2

/--
A listing split at line feeds has one line for each instruction, which shows the place, filled up
with blanks to the width of the largest one, and the instruction behind a colon. So the first colon
stands in the same column on every line, and the listings of two programs are equal only if the
programs are.
-/
theorem listing_shows_program (p : Program) :
    (p.listing.splitOn '\n').length = p.size ∧
    (∀ place instruction, p.code[place]? = some instruction →
      ∃ padding, padding + (ofNat place).length = (ofNat (p.size - 1)).length ∧
        (p.listing.splitOn '\n')[place]? = some
          (List.replicate padding ' ' ++ ofNat place ++ ':' :: ' ' :: instruction.line)) ∧
    (∀ line ∈ p.listing.splitOn '\n', line.idxOf ':' = (ofNat (p.size - 1)).length) ∧
    ∀ q : Program, p.listing = q.listing ↔ p = q := by
  rw [splitOn_listing]
  refine ⟨p.length_listingLines, ?_, ?_, fun q => ⟨listing_injective, ?_⟩⟩
  · intro place instruction found
    refine ⟨p.placeWidth - (ofNat place).length, Nat.sub_add_cancel (length_place_le found), ?_⟩
    rw [getElem?_listingLines, found]
    rfl
  · intro line member
    obtain ⟨place, instruction, found, rfl⟩ := mem_listingLines member
    exact idxOf_colon_listingLine found
  · rintro rfl
    rfl

/-- A text that looks like a further line stands on the second of eleven lines. -/
theorem listing_of_misleading_text :
    ∃ p : Program, p.code = .split 2 1 :: .consume "\n2: '".toList ::
        (List.replicate 8 (.jump 10) ++ [.accept]) ∧
      (p.listing.splitOn '\n')[1]? = some " 1: MatchChar \"\\n2: '\"".toList ∧
      ∀ line ∈ p.listing.splitOn '\n', line.idxOf ':' = 2 := by
  let p : Program :=
    ⟨(.split 2 1 :: .consume "\n2: '".toList :: List.replicate 8 (.jump 10)).toArray, by decide⟩
  have width_eq : (ofNat (p.size - 1)).length = 2 := by decide +kernel
  have narrow : (ofNat 1).length = 1 := by decide +kernel
  obtain ⟨_, shown, aligned, _⟩ := listing_shows_program p
  obtain ⟨padding, filled, line_eq⟩ := shown 1 (.consume "\n2: '".toList) rfl
  obtain rfl : padding = 1 := by omega
  exact ⟨p, rfl, line_eq.trans (by decide +kernel), width_eq ▸ aligned⟩

end Program

end PatternMachine
