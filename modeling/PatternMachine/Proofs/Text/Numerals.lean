import Mathlib.Algebra.GroupWithZero.Nat
import PatternMachine.Text.Quoted

/-!
# Numerals

Numbers are found again from their digits. Decimal texts of different numbers differ
(`ofNat_injective`, `ofInt_injective`) and do not get shorter when numbers grow
(`length_ofNat_le`); hexadecimal texts give their number back whatever they are filled up with
(`hexValue?_hexadecimal`), and have exactly the width asked for if the number fits into it.
-/

namespace PatternMachine.Text

/-! ## Decimal numbers -/

theorem ofNat_injective {m n : Nat} (same : ofNat m = ofNat n) : m = n := by
  have values := congrArg (Nat.ofDigitChars 10 · 0) same
  simpa only [ofNat, Nat.ofDigitChars_ten_toDigits] using values

theorem isDigit_of_mem_ofNat {n : Nat} {c : Char} (member : c ∈ ofNat n) : c.isDigit = true :=
  Nat.isDigit_of_mem_toDigits (by omega) (by omega) member

theorem not_mem_ofNat {n : Nat} {c : Char} (other : c.isDigit = false) : c ∉ ofNat n := by
  intro member
  rw [isDigit_of_mem_ofNat member] at other
  contradiction

theorem length_ofNat_le {m n : Nat} (le : m ≤ n) : (ofNat m).length ≤ (ofNat n).length := by
  have positive : 0 < (ofNat n).length := Nat.length_toDigits_pos
  have bounded : n < 10 ^ (ofNat n).length :=
    (Nat.length_toDigits_le_iff (by omega) positive).mp (Nat.le_refl _)
  exact (Nat.length_toDigits_le_iff (by omega) positive).mpr (Nat.lt_of_le_of_lt le bounded)

theorem not_mem_ofInt {n : Int} {c : Char} (other : c.isDigit = false) (no_sign : c ≠ '-') :
    c ∉ ofInt n := by
  cases n with
  | ofNat n => exact not_mem_ofNat other
  | negSucc n => exact List.not_mem_cons_of_ne_of_not_mem no_sign (not_mem_ofNat other)

theorem ofInt_injective {m n : Int} (same : ofInt m = ofInt n) : m = n := by
  have sign_apart : ∀ k l : Nat, ofNat k ≠ '-' :: ofNat l := by
    intro k l equal
    have sign : '-' ∈ ofNat k := equal ▸ List.mem_cons_self
    exact not_mem_ofNat rfl sign
  cases m with
  | ofNat k =>
      cases n with
      | ofNat l => rw [ofNat_injective same]
      | negSucc l => exact absurd same (sign_apart k (l + 1))
  | negSucc k =>
      cases n with
      | ofNat l => exact absurd same.symm (sign_apart l (k + 1))
      | negSucc l =>
          have next := ofNat_injective (List.cons.inj same).2
          rw [Nat.succ.inj next]

/-! ## Hexadecimal numbers -/

def hexDigit? (c : Char) : Option Nat :=
  (List.range 16).find? fun n => n.digitChar = c.toLower

def hexValue? (digits : Text) : Option Nat :=
  digits.foldlM (fun value c => (hexDigit? c).map (16 * value + ·)) 0

theorem hexDigit?_digitChar {n : Nat} (small : n < 16) : hexDigit? n.digitChar = some n := by
  have each : ∀ n < 16, hexDigit? (Nat.digitChar n) = some n := by decide
  exact each n small

theorem exists_digitChar_of_mem_toDigits
    {base n : Nat} (two_le : 2 ≤ base) {c : Char} (member : c ∈ Nat.toDigits base n) :
    ∃ digit < base, c = digit.digitChar := by
  induction n using Nat.strongRecOn with
  | ind n ih =>
      rw [Nat.toDigits_eq_if two_le] at member
      split at member
      next small => exact ⟨n, small, List.mem_singleton.mp member⟩
      next large =>
        rcases List.mem_append.mp member with front | last
        · exact ih (n / base) (Nat.div_lt_self (by omega) two_le) front
        · exact ⟨n % base, Nat.mod_lt n (by omega), List.mem_singleton.mp last⟩

theorem hexValue?_toDigits (n : Nat) : hexValue? (Nat.toDigits 16 n) = some n := by
  induction n using Nat.strongRecOn with
  | ind n ih =>
      rw [Nat.toDigits_eq_if (by omega)]
      split
      next small => simp [hexValue?, hexDigit?_digitChar small]
      next large =>
        have front := ih (n / 16) (by omega)
        unfold hexValue? at front ⊢
        rw [List.foldlM_append, front]
        simp only [Option.bind_eq_bind, Option.bind_some, List.foldlM_cons,
          hexDigit?_digitChar (Nat.mod_lt n (by omega)), Option.map_some, List.foldlM_nil]
        exact congrArg some (Nat.div_add_mod n 16)

/-- Zeros in front do not change the value of hexadecimal digits. -/
theorem hexValue?_replicate_append (count : Nat) (digits : Text) :
    hexValue? (List.replicate count '0' ++ digits) = hexValue? digits := by
  induction count with
  | zero => rfl
  | succ count ih =>
      rw [← ih, List.replicate_succ, List.cons_append]
      rfl

theorem hexValue?_hexadecimal (width n : Nat) : hexValue? (hexadecimal width n) = some n := by
  rw [hexadecimal, List.leftpad, hexValue?_replicate_append, hexValue?_toDigits]

theorem length_hexadecimal {width n : Nat} (positive : 0 < width) (fits : n < 16 ^ width) :
    (hexadecimal width n).length = width := by
  have short : (Nat.toDigits 16 n).length ≤ width :=
    (Nat.length_toDigits_le_iff (by omega) positive).mpr fits
  rw [hexadecimal, List.length_leftpad, Nat.max_eq_left short]

theorem not_mem_hexadecimal {width n : Nat} {c : Char} (other : ∀ digit < 16, c ≠ digit.digitChar) :
    c ∉ hexadecimal width n := by
  intro member
  rw [hexadecimal, List.leftpad, List.mem_append] at member
  rcases member with filling | digit
  · exact other 0 (by omega) (List.eq_of_mem_replicate filling)
  · obtain ⟨value, small, digit_eq⟩ := exists_digitChar_of_mem_toDigits (by omega) digit
    exact other value small digit_eq

end PatternMachine.Text
