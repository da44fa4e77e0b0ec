import PatternMachine.Text.Basic

/-!
# Outcomes

How outcomes that are values or faults compute: what is done to values leaves faults as they are,
and what is done to faults leaves values as they are.
-/

namespace PatternMachine.Outcome

variable {ε φ α β : Type}

@[simp]
theorem map_ok (f : α → β) (a : α) : (Except.ok a : Except ε α).map f = .ok (f a) := rfl

@[simp]
theorem map_error (f : α → β) (fault : ε) :
    (Except.error fault : Except ε α).map f = .error fault := rfl

@[simp]
theorem mapError_ok (describe : ε → φ) (a : α) :
    (Except.ok a : Except ε α).mapError describe = .ok a := rfl

@[simp]
theorem mapError_error (describe : ε → φ) (fault : ε) :
    (Except.error fault : Except ε α).mapError describe = .error (describe fault) := rfl

@[simp]
theorem ok_bind (a : α) (next : α → Except ε β) : (Except.ok a >>= next) = next a := rfl

@[simp]
theorem error_bind (fault : ε) (next : α → Except ε β) :
    ((Except.error fault : Except ε α) >>= next) = .error fault := rfl

theorem map_eq_ok_iff {f : α → β} {outcome : Except ε α} {b : β} :
    outcome.map f = .ok b ↔ ∃ a, outcome = .ok a ∧ f a = b := by
  cases outcome <;> simp

theorem mapError_eq_ok_iff {describe : ε → φ} {outcome : Except ε α} {a : α} :
    outcome.mapError describe = .ok a ↔ outcome = .ok a := by
  cases outcome <;> simp

theorem bind_eq_ok_iff {outcome : Except ε α} {next : α → Except ε β} {b : β} :
    outcome >>= next = .ok b ↔ ∃ a, outcome = .ok a ∧ next a = .ok b := by
  cases outcome <;> simp

theorem map_eq_error_iff {f : α → β} {outcome : Except ε α} {fault : ε} :
    outcome.map f = .error fault ↔ outcome = .error fault := by
  cases outcome <;> simp

/-- A computation in two parts has the fault of its first part or else of its second. -/
theorem bind_eq_error_iff {outcome : Except ε α} {next : α → Except ε β} {fault : ε} :
    outcome >>= next = .error fault ↔
      outcome = .error fault ∨ ∃ a, outcome = .ok a ∧ next a = .error fault := by
  cases outcome <;> simp

theorem map_bind {γ : Type} (f : α → β) (outcome : Except ε α) (next : β → Except ε γ) :
    outcome.map f >>= next = outcome >>= fun a => next (f a) := by
  cases outcome <;> rfl

end PatternMachine.Outcome
