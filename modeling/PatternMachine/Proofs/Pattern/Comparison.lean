import PatternMachine.Pattern.Fault
import PatternMachine.Proofs.FirstOccurrences

/-!
# Comparing faults

A fault compares itself only with faults of its own kind and of the kinds below it, so two faults
are compared by asking one of them and then the other. `equals_eq_agrees` says what this comes to.
Kinds that overlap make faults equal that are not of one kind, and the general kind, which overlaps
with all others, makes equality intransitive. Hashes tell the kinds apart: a set holds one fault for
each kind and position (`keys_collected`), whether or not faults of several kinds are equal.
-/

namespace PatternMachine

namespace FaultKind

/-- The kind directly above a kind. -/
def parent? : FaultKind → Option FaultKind
  | .general => none
  | .danglingEscape => some .misplacedOperator
  | _ => some .general

/-- Whether a kind is another one or stands below it. -/
inductive Descends : FaultKind → FaultKind → Prop where
  | refl (kind : FaultKind) : Descends kind kind
  | step {kind parent ancestor : FaultKind}
      (above : kind.parent? = some parent) (descends : Descends parent ancestor) :
      Descends kind ancestor

theorem covers_of_parent
    {kind parent ancestor : FaultKind}
    (above : kind.parent? = some parent) (covers : ancestor.covers parent = true) :
    ancestor.covers kind = true := by
  revert covers
  cases kind <;> cases above <;> cases ancestor <;> decide

theorem covers_iff_descends {kind other : FaultKind} :
    kind.covers other = true ↔ Descends other kind := by
  constructor
  · intro covers
    have below : other = kind ∨ kind = .general ∨
        kind = .misplacedOperator ∧ other = .danglingEscape := by
      simp only [FaultKind.covers, Bool.or_eq_true, Bool.and_eq_true, decide_eq_true_iff,
        or_assoc] at covers
      exact covers.imp_left Eq.symm
    rcases below with rfl | rfl | ⟨rfl, rfl⟩
    · exact .refl other
    · cases other with
      | general => exact .refl _
      | danglingEscape => exact .step rfl (.step rfl (.refl _))
      | _ => exact .step rfl (.refl _)
    · exact .step rfl (.refl _)
  · intro descends
    induction descends with
    | refl kind => simp [FaultKind.covers]
    | step above _ covers => exact covers_of_parent above covers

/-- Whether two kinds are different and one of them stands below the other. -/
def Overlaps (kind other : FaultKind) : Prop :=
  kind ≠ other ∧ (Descends kind other ∨ Descends other kind)

theorem overlaps_iff {kind other : FaultKind} :
    kind.Overlaps other ↔ kind ≠ other ∧
      (kind = .general ∨ other = .general ∨
        kind = .misplacedOperator ∧ other = .danglingEscape ∨
        kind = .danglingEscape ∧ other = .misplacedOperator) := by
  rw [Overlaps, ← covers_iff_descends, ← covers_iff_descends]
  cases kind <;> cases other <;> decide

theorem covers_or_covers_iff {kind other : FaultKind} :
    kind.covers other = true ∨ other.covers kind = true ↔ kind = other ∨ kind.Overlaps other := by
  rw [covers_iff_descends, covers_iff_descends, Overlaps]
  by_cases same : kind = other
  · exact iff_of_true (.inl (same ▸ .refl kind)) (.inl same)
  · rw [or_iff_right same, and_iff_right same, or_comm]

/-- Only over the general kind do kinds overlap one by one that do not overlap. -/
theorem overlaps_of_overlaps
    {kind middle other : FaultKind} (special : middle ≠ .general)
    (first : kind = middle ∨ kind.Overlaps middle)
    (second : middle = other ∨ middle.Overlaps other) :
    kind = other ∨ kind.Overlaps other := by
  rw [overlaps_iff] at first second ⊢
  grind

end FaultKind

namespace Fault

variable {fault other third : Fault}

def answer? (fault other : Fault) : Option Bool :=
  if fault.kind.covers other.kind then some (fault.position = other.position) else none

/-- The answer of the first fault that has one; faults that do not know each other are different. -/
def asked (first second : Fault) : Bool :=
  ((first.answer? second).or (second.answer? first)).getD false

/-- Whether two faults are equal. One of a kind below that of the other is asked first. -/
def equals (fault other : Fault) : Bool :=
  if fault.kind ≠ other.kind ∧ fault.kind.covers other.kind then asked other fault
  else asked fault other

theorem asked_eq_agrees (fault other : Fault) : fault.asked other = fault.agrees other := by
  unfold asked answer? agrees
  by_cases first : fault.kind.covers other.kind = true <;>
    by_cases second : other.kind.covers fault.kind = true <;>
      simp [first, second, eq_comm]

theorem agrees_comm (fault other : Fault) : fault.agrees other = other.agrees fault := by
  simp [agrees, Bool.or_comm, eq_comm]

theorem equals_eq_agrees (fault other : Fault) : fault.equals other = fault.agrees other := by
  unfold equals
  split
  · rw [asked_eq_agrees, agrees_comm]
  · exact asked_eq_agrees fault other

theorem equals_iff :
    fault.equals other = true ↔
      fault.position = other.position ∧
        (fault.kind = other.kind ∨ fault.kind.Overlaps other.kind) := by
  rw [equals_eq_agrees, agrees, Bool.and_eq_true, Bool.or_eq_true,
    FaultKind.covers_or_covers_iff, decide_eq_true_iff, and_comm]

/-! ## Sets of faults -/

/-- How faults are hashed. No two kinds have the same hash. -/
structure Hashing where
  ofKind : FaultKind → BitVec 64
  ofPosition : Option Int → BitVec 64
  ofKind_injective : ∀ kind other, ofKind kind = ofKind other → kind = other

namespace Hashing

instance : Inhabited Hashing where
  default :=
    { ofKind := fun kind => BitVec.ofNat 64 kind.ctorIdx
      ofPosition := fun _ => 0
      ofKind_injective := fun kind other => by cases kind <;> cases other <;> decide }

def hash (hashing : Hashing) (fault : Fault) : BitVec 64 :=
  hashing.ofKind fault.kind ^^^ hashing.ofPosition fault.position

/-- Whether a set takes two faults for one: their hashes are the same, and they are equal. -/
def merges (hashing : Hashing) (fault other : Fault) : Bool :=
  hashing.hash fault = hashing.hash other && fault.equals other

/-- What a set holds when faults have been put into it one after the other. -/
def collected (hashing : Hashing) (faults : List Fault) : List Fault :=
  faults.foldl (fun held fault => if held.any (hashing.merges fault) then held else held ++ [fault])
    []

theorem merges_iff_key_eq (hashing : Hashing) :
    hashing.merges fault other = true ↔ fault.key = other.key := by
  simp only [merges, Bool.and_eq_true, decide_eq_true_iff, equals_iff, key, Prod.mk.injEq]
  constructor
  · rintro ⟨hashes_eq, position_eq, _⟩
    rw [hash, hash, position_eq, BitVec.xor_left_inj] at hashes_eq
    exact ⟨hashing.ofKind_injective _ _ hashes_eq, position_eq⟩
  · rintro ⟨kind_eq, position_eq⟩
    exact ⟨by rw [hash, hash, kind_eq, position_eq], position_eq, .inl kind_eq⟩

theorem collected_concat (hashing : Hashing) (faults : List Fault) (fault : Fault) :
    hashing.collected (faults ++ [fault]) =
      if (hashing.collected faults).any (hashing.merges fault) then hashing.collected faults
      else hashing.collected faults ++ [fault] :=
  List.foldl_append

theorem any_merges_iff (hashing : Hashing) {held : List Fault} :
    held.any (hashing.merges fault) = true ↔ fault.key ∈ held.map key := by
  rw [List.any_eq_true, List.mem_map]
  simp only [merges_iff_key_eq, eq_comm (a := fault.key)]

theorem keys_collected (hashing : Hashing) (faults : List Fault) :
    ((hashing.collected faults).map key).Nodup ∧
      ∀ kind_and_position, kind_and_position ∈ (hashing.collected faults).map key ↔
        kind_and_position ∈ faults.map key := by
  induction faults using List.reverseRecOn with
  | nil => exact ⟨.nil, fun _ => Iff.rfl⟩
  | append_singleton faults fault ih =>
      obtain ⟨distinct, same_keys⟩ := ih
      rw [collected_concat]
      by_cases known : (hashing.collected faults).any (hashing.merges fault) = true
      · have among := (same_keys _).mp (hashing.any_merges_iff.mp known)
        rw [if_pos known]
        refine ⟨distinct, fun other => ?_⟩
        rw [same_keys, List.map_append, List.mem_append, List.map_singleton, List.mem_singleton]
        exact ⟨.inl, fun member => member.elim id fun last => last ▸ among⟩
      · rw [if_neg known, List.map_append, List.map_append, List.map_singleton]
        rw [any_merges_iff] at known
        refine ⟨?_, fun other => by rw [List.mem_append, List.mem_append, same_keys]⟩
        refine List.nodup_append.mpr ⟨distinct, by simp, fun other member last single same => ?_⟩
        rw [same, List.mem_singleton.mp single] at member
        exact known member

theorem length_collected_pair (hashing : Hashing) (fault other : Fault) :
    (hashing.collected [fault, other]).length = 1 ↔ fault.key = other.key := by
  have pair : hashing.collected [fault, other] =
      if [fault].any (hashing.merges other) then [fault] else [fault, other] := rfl
  by_cases known : [fault].any (hashing.merges other) = true
  · simpa [pair, known, eq_comm] using hashing.any_merges_iff.mp known
  · have fresh := mt hashing.any_merges_iff.mpr known
    rw [pair, if_neg known]
    simpa [eq_comm] using fresh

end Hashing

/-! ## Where equality is not by kind and position -/

theorem equals_trans_iff :
    (fault.equals other = true → other.equals third = true → fault.equals third = true) ↔
      ¬ (fault.position = other.position ∧ other.position = third.position ∧
        other.kind = .general ∧ fault.kind ≠ third.kind ∧ ¬ fault.kind.Overlaps third.kind) := by
  simp only [equals_iff]
  constructor
  · rintro carried ⟨first, second, general, different, apart⟩
    have covers_all : ∀ kind, FaultKind.general.covers kind = true := by simp [FaultKind.covers]
    have over_general : ∀ kind : FaultKind, kind = .general ∨ kind.Overlaps .general :=
      fun kind => FaultKind.covers_or_covers_iff.mp (.inr (covers_all kind))
    have from_general : ∀ kind : FaultKind, .general = kind ∨ FaultKind.Overlaps .general kind :=
      fun kind => FaultKind.covers_or_covers_iff.mp (.inl (covers_all kind))
    rw [general] at carried
    exact (carried ⟨first, over_general _⟩ ⟨second, from_general _⟩).2.elim different apart
  · rintro excluded ⟨first, overlap⟩ ⟨second, next_overlap⟩
    refine ⟨first.trans second, ?_⟩
    by_cases general : other.kind = .general
    · by_contra neither
      rw [not_or] at neither
      exact excluded ⟨first, second, general, neither⟩
    · exact FaultKind.overlaps_of_overlaps general overlap next_overlap

/--
Two faults are equal as their kinds and positions are, unless they are at one position and their
kinds overlap; then they are equal, and a set nevertheless counts them apart. Equality is reflexive
and symmetric. It is transitive unless it leads over a general fault between two kinds that do not
overlap. A set holds one fault for each kind and position of those that are put into it.
-/
theorem equality_by_kind_and_position_iff
    (hashing : Hashing) (fault other third : Fault) (faults : List Fault) :
    ((fault.equals other = true ↔ fault.kind = other.kind ∧ fault.position = other.position) ↔
      ¬ (fault.position = other.position ∧ fault.kind.Overlaps other.kind)) ∧
    fault.equals fault = true ∧ fault.equals other = other.equals fault ∧
    ((fault.equals other = true → other.equals third = true → fault.equals third = true) ↔
      ¬ (fault.position = other.position ∧ other.position = third.position ∧
        other.kind = .general ∧ fault.kind ≠ third.kind ∧ ¬ fault.kind.Overlaps third.kind)) ∧
    ((fault.equals other = true → (hashing.collected [fault, other]).length = 1) ↔
      ¬ (fault.position = other.position ∧ fault.kind.Overlaps other.kind)) ∧
    ((hashing.collected faults).map key).Nodup ∧
    ∀ kind_and_position, kind_and_position ∈ (hashing.collected faults).map key ↔
      kind_and_position ∈ faults.map key := by
  have apart : fault.kind.Overlaps other.kind → fault.kind ≠ other.kind := And.left
  refine ⟨?_, ?_, ?_, equals_trans_iff, ?_, hashing.keys_collected faults⟩
  · rw [equals_iff]
    tauto
  · exact equals_iff.mpr ⟨rfl, .inl rfl⟩
  · rw [equals_eq_agrees, equals_eq_agrees, agrees_comm]
  · rw [Hashing.length_collected_pair, equals_iff, key, key, Prod.mk.injEq]
    tauto

/--
An escape at the end is equal to a misplaced operator at the same position, and a set counts the two
apart. A general fault is equal to an empty group and to an empty alternative, which differ.
-/
theorem dangling_escape_equals_misplaced_operator :
    ∃ escape operator group alternative : Fault,
      placed .danglingEscape (some 0) none = .ok escape ∧
      placed .misplacedOperator (some 0) none = .ok operator ∧
      placed .emptyGroup (some 0) none = .ok group ∧
      placed .emptyAlternative (some 0) none = .ok alternative ∧
      escape.equals operator = true ∧ escape.kind ≠ operator.kind ∧
      ((default : Hashing).collected [escape, operator]).length = 2 ∧
      group.equals (general [] (some 0) none) = true ∧
      (general [] (some 0) none).equals alternative = true ∧ group.equals alternative = false :=
  ⟨_, _, _, _, rfl, rfl, rfl, rfl, by decide⟩

end Fault

end PatternMachine
