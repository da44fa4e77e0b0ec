import PatternMachine.Trace.Event

/-!
# Traced computations

A traced computation has an outcome, which is a value or a fault, and the events reported until
then. Traced computations form a lawful monad; `outcome_bind` says that the outcome ignores the
events, and `events_bind` that the events of a second computation follow those of the first and
are missing if the first fails.
-/

namespace PatternMachine

/-- The events of a computation and its outcome. -/
structure Traced (ε α : Type) where
  events : List Event
  outcome : Except ε α

namespace Traced

variable {ε φ α β : Type}

protected def pure (a : α) : Traced ε α :=
  ⟨[], .ok a⟩

/-- One computation after another, unless the first fails. -/
protected def bind (first : Traced ε α) (next : α → Traced ε β) : Traced ε β :=
  match first.outcome with
  | .error fault => ⟨first.events, .error fault⟩
  | .ok a => ⟨first.events ++ (next a).events, (next a).outcome⟩

instance : Monad (Traced ε) where
  pure := Traced.pure
  bind := Traced.bind

def report (event : Event) : Traced ε Unit :=
  ⟨[event], .ok ()⟩

def fail (fault : ε) : Traced ε α :=
  ⟨[], .error fault⟩

def ofExcept (outcome : Except ε α) : Traced ε α :=
  ⟨[], outcome⟩

def mapFault (describe : ε → φ) (computation : Traced ε α) : Traced φ α :=
  ⟨computation.events, computation.outcome.mapError describe⟩

@[ext]
theorem ext
    {first second : Traced ε α}
    (events : first.events = second.events) (outcome : first.outcome = second.outcome) :
    first = second := by
  cases first
  cases second
  simp_all

@[simp]
theorem outcome_pure (a : α) : (pure a : Traced ε α).outcome = .ok a := rfl

@[simp]
theorem events_pure (a : α) : (pure a : Traced ε α).events = [] := rfl

@[simp]
theorem outcome_report (event : Event) : (report event : Traced ε Unit).outcome = .ok () := rfl

@[simp]
theorem events_report (event : Event) : (report event : Traced ε Unit).events = [event] := rfl

@[simp]
theorem outcome_fail (fault : ε) : (fail fault : Traced ε α).outcome = .error fault := rfl

@[simp]
theorem events_fail (fault : ε) : (fail fault : Traced ε α).events = [] := rfl

@[simp]
theorem outcome_ofExcept (outcome : Except ε α) : (ofExcept outcome).outcome = outcome := rfl

@[simp]
theorem events_ofExcept (outcome : Except ε α) : (ofExcept outcome).events = [] := rfl

@[simp]
theorem outcome_mapFault (describe : ε → φ) (computation : Traced ε α) :
    (computation.mapFault describe).outcome = computation.outcome.mapError describe := rfl

@[simp]
theorem events_mapFault (describe : ε → φ) (computation : Traced ε α) :
    (computation.mapFault describe).events = computation.events := rfl

@[simp]
theorem outcome_bind (first : Traced ε α) (next : α → Traced ε β) :
    (first >>= next).outcome = first.outcome >>= fun a => (next a).outcome := by
  change (first.bind next).outcome = _
  unfold Traced.bind
  split <;> simp_all [bind, Except.bind]

theorem events_bind (first : Traced ε α) (next : α → Traced ε β) :
    (first >>= next).events =
      match first.outcome with
      | .error _ => first.events
      | .ok a => first.events ++ (next a).events := by
  change (first.bind next).events = _
  unfold Traced.bind
  split <;> simp_all

instance : LawfulMonad (Traced ε) :=
  LawfulMonad.mk' (Traced ε)
    (fun computation => by
      rcases computation with ⟨events, _ | a⟩
      · rfl
      · simp [Functor.map, Traced.bind, Traced.pure])
    (fun _ _ => rfl)
    (fun computation next last => by
      rcases computation with ⟨events, _ | a⟩
      · rfl
      · simp only [Bind.bind, Traced.bind]
        cases (next a).outcome <;> simp [List.append_assoc])

theorem outcome_foldlM (step : β → α → Traced ε β) (start : β) (entries : List α) :
    (entries.foldlM step start).outcome =
      entries.foldlM (fun state entry => (step state entry).outcome) start := by
  induction entries generalizing start with
  | nil => rfl
  | cons entry entries ih =>
      simp only [List.foldlM_cons, outcome_bind]
      congr 1
      funext next
      exact ih next

/-- What every step of a fold keeps holds of its outcome. -/
theorem foldlM_invariant
    {invariant : β → Prop} {step : β → α → Traced ε β} {entries : List α}
    (keeps : ∀ entry ∈ entries, ∀ state next,
      invariant state → (step state entry).outcome = .ok next → invariant next)
    {start final : β} (start_holds : invariant start)
    (folded : (entries.foldlM step start).outcome = .ok final) :
    invariant final := by
  induction entries generalizing start with
  | nil =>
      cases folded
      exact start_holds
  | cons entry entries ih =>
      rw [List.foldlM_cons, outcome_bind] at folded
      cases first : (step start entry).outcome with
      | error fault => simp [first, bind, Except.bind] at folded
      | ok next =>
          rw [first] at folded
          exact ih (fun other member => keeps other (by simp [member]))
            (keeps entry (by simp) start next start_holds first) folded

end Traced

end PatternMachine
