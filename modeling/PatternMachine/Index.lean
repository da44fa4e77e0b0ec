/-!
# Indices

A signed index means an entry of a list, counted from the front or from the back.
`lookup?_ofNat` and `lookup?_negSucc` say which entry that is. Indices are words of 64 bits: an
integer that is none is told apart from a word beyond the ends of a list, and
`resolve?_eq_none_of_not_isWord` says that it means no entry either.
-/

namespace PatternMachine.Index

/--
The place that a signed index means among `size` entries: a natural index counts from the front,
a negative one from the back, where `-1` is the last entry.
-/
def resolve? (size : Nat) : Int → Option Nat
  | .ofNat n => if n < size then some n else none
  | .negSucc n => if n < size then some (size - 1 - n) else none

theorem lt_of_resolve?
    {size : Nat} {index : Int} {place : Nat}
    (resolved : resolve? size index = some place) :
    place < size := by
  cases index <;> simp only [resolve?, Option.ite_none_right_eq_some] at resolved
  · exact Option.some.inj resolved.2 ▸ resolved.1
  · rw [← Option.some.inj resolved.2]
    omega

/-- The entry of a list that a signed index means. -/
def lookup? {α : Type} (entries : List α) (index : Int) : Option α :=
  (resolve? entries.length index).bind fun place => entries[place]?

@[simp]
theorem lookup?_ofNat {α : Type} (entries : List α) (n : Nat) :
    lookup? entries (n : Int) = entries[n]? := by
  by_cases inside : n < entries.length
  · simp [lookup?, resolve?, inside]
  · simp [lookup?, resolve?, inside]

theorem lookup?_negSucc {α : Type} (entries : List α) (n : Nat) :
    lookup? entries (Int.negSucc n) = entries.reverse[n]? := by
  by_cases inside : n < entries.length
  · simp [lookup?, resolve?, inside]
  · simp [lookup?, resolve?, inside]

/-- Whether an integer is a signed word of 64 bits. -/
def IsWord (n : Int) : Prop :=
  -0x8000000000000000 ≤ n ∧ n < 0x8000000000000000

instance : DecidablePred IsWord := fun _ =>
  inferInstanceAs (Decidable (_ ∧ _))

/-- An integer that is no word means no entry of a list that words can index. -/
theorem resolve?_eq_none_of_not_isWord
    {size : Nat} {index : Int}
    (indexable : size ≤ 0x8000000000000000) (not_word : ¬ IsWord index) :
    resolve? size index = none := by
  unfold IsWord at not_word
  cases index with
  | ofNat n =>
      rw [Int.ofNat_eq_natCast] at not_word
      exact if_neg (by omega)
  | negSucc n => exact if_neg (by omega)

/-- Why an index means no entry. -/
inductive Miss where
  | outside
  | notWord
  deriving DecidableEq

def miss (index : Int) : Miss :=
  if IsWord index then .outside else .notWord

end PatternMachine.Index
