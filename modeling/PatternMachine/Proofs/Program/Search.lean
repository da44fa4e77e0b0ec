import Mathlib.Data.List.Basic
import PatternMachine.Proofs.Program.Lockstep

/-!
# Backtracking searches

A search follows one thread at a time: at a split it takes the first target and all that comes
after it, and only then the second. A track is a run with the choices made at its splits that comes
to no place twice between two characters. `mem_arrivals_iff` says that a search arrives exactly
where tracks end, and `pairwise_arrivals` that it arrives in the order of their choices.
-/

namespace PatternMachine

inductive Choice where
  | first
  | second
  deriving DecidableEq

namespace Choice

/-- The first target of a split is preferred to the second. -/
inductive Before : Choice → Choice → Prop where
  | intro : Before .first .second

/-- Whether two rows of choices differ, and the former is preferred where they first do. -/
inductive Precedes : List Choice → List Choice → Prop where
  | fork (left right : List Choice) : Precedes (.first :: left) (.second :: right)
  | cons (choice : Choice) {left right : List Choice} (rest : Precedes left right) :
      Precedes (choice :: left) (choice :: right)

namespace Precedes

variable {left right : List Choice}

theorem lex (precedes : Precedes left right) : List.Lex Before left right := by
  induction precedes with
  | fork left right => exact .rel .intro
  | cons choice _ ih => exact .cons ih

theorem append_left (common : List Choice) (precedes : Precedes left right) :
    Precedes (common ++ left) (common ++ right) := by
  induction common with
  | nil => exact precedes
  | cons choice common ih => exact .cons choice ih

theorem append (precedes : Precedes left right) (more other : List Choice) :
    Precedes (left ++ more) (right ++ other) := by
  induction precedes with
  | fork left right => exact .fork (left ++ more) (right ++ other)
  | cons choice _ ih => exact .cons choice ih

end Precedes

end Choice

/-- The places where an instruction may continue, each with the choice that leads there if any. -/
def Instruction.options : Instruction → List (List Choice × Int)
  | .jump target => [([], target)]
  | .split first second => [([.first], first), ([.second], second)]
  | _ => []

@[simp]
theorem Instruction.map_snd_options (instruction : Instruction) :
    instruction.options.map Prod.snd = instruction.targets := by
  cases instruction <;> rfl

theorem Instruction.pairwise_options (instruction : Instruction) :
    instruction.options.Pairwise fun earlier later => Choice.Precedes earlier.1 later.1 := by
  cases instruction <;> simp [options, Choice.Precedes.fork]

theorem Instruction.options_eq_nil_of_isResting
    {instruction : Instruction} (resting : instruction.isResting = true) :
    instruction.options = [] := by
  cases instruction <;> simp_all [isResting, options]

namespace Program

/--
A run from one pointer to another that consumes a text, with the choices at its splits. It comes
to no pointer twice between two characters, where `passed` are those it has come to since the last
character.
-/
inductive Track (p : Program) : List Int → Int → Text → List Choice → Int → Prop where
  | stay {passed : List Int} {pointer : Int} (fresh : pointer ∉ passed) :
      Track p passed pointer [] [] pointer
  | turn {passed : List Int} {pointer target last : Int} {instruction : Instruction}
      {text : Text} {made choices : List Choice}
      (fresh : pointer ∉ passed)
      (found : p.lookup? pointer = some instruction)
      (offered : (made, target) ∈ instruction.options)
      (rest : Track p (pointer :: passed) target text choices last) :
      Track p passed pointer text (made ++ choices) last
  | pass {passed : List Int} {pointer last : Int} {instruction : Instruction} {c : Char}
      {text : Text} {choices : List Choice}
      (fresh : pointer ∉ passed)
      (found : p.lookup? pointer = some instruction)
      (passes : instruction.passes c = true)
      (rest : Track p [] (pointer + 1) text choices last) :
      Track p passed pointer (c :: text) choices last

/-- A resting place to which a search comes. -/
structure Arrival where
  /-- The choices made on the way. -/
  choices : List Choice
  /-- The number of characters consumed on the way. -/
  consumed : Nat
  pointer : Int

namespace Arrival

def choosing (made : List Choice) (arrival : Arrival) : Arrival :=
  { arrival with choices := made ++ arrival.choices }

def behind (stop arrival : Arrival) : Arrival where
  choices := stop.choices ++ arrival.choices
  consumed := arrival.consumed + 1
  pointer := arrival.pointer

end Arrival

open ThreadList (remaining remaining_cons_lt)

/--
The resting places reached from a pointer without a character, in the order of a search that turns
back from the pointers on its own way.
-/
def explore (p : Program) (passed : List Int) (pointer : Int) : List Arrival :=
  if _ : pointer ∈ passed then []
  else
    match _ : p.lookup? pointer with
    | none => []
    | some instruction =>
        if instruction.isResting then [⟨[], 0, pointer⟩]
        else
          instruction.options.flatMap fun (made, target) =>
            (explore p (pointer :: passed) target).map (Arrival.choosing made)
termination_by remaining p passed
decreasing_by exact remaining_cons_lt ‹_› ‹_›

/--
All arrivals of a backtracking search over a text. From a resting place that lets the next
character pass everything behind the character is searched before the next resting place.
-/
def search (p : Program) (start : Int) : Text → List Arrival
  | [] => explore p [] start
  | c :: rest =>
      (explore p [] start).flatMap fun stop =>
        stop ::
          if (p.lookup? stop.pointer).any (Instruction.passes c) then
            (search p (stop.pointer + 1) rest).map stop.behind
          else []

variable {p : Program} {passed : List Int} {first last : Int} {choices : List Choice}

/-! ## Tracks -/

theorem Track.fresh {text : Text} (track : Track p passed first text choices last) :
    first ∉ passed := by
  cases track with
  | stay fresh => exact fresh
  | turn fresh => exact fresh
  | pass fresh => exact fresh

theorem Track.pass_last
    {middle : Int} {instruction : Instruction} {c : Char} {before text : Text}
    {after : List Choice}
    (track : Track p passed first before choices middle) (empty : before = [])
    (found : p.lookup? middle = some instruction) (passes : instruction.passes c = true)
    (rest : Track p [] (middle + 1) text after last) :
    Track p passed first (c :: text) (choices ++ after) last := by
  induction track with
  | stay fresh => exact .pass fresh found passes rest
  | turn fresh found' offered _ ih =>
      rw [List.append_assoc]
      exact .turn fresh found' offered (ih empty found rest)
  | pass => cases empty

theorem Track.exists_pass
    {whole text : Text} {c : Char}
    (track : Track p passed first whole choices last) (cut : whole = c :: text) :
    ∃ before after middle instruction, choices = before ++ after ∧
      Track p passed first [] before middle ∧ p.lookup? middle = some instruction ∧
      instruction.passes c = true ∧ Track p [] (middle + 1) text after last := by
  induction track with
  | stay => cases cut
  | turn fresh found offered _ ih =>
      obtain ⟨before, after, middle, instruction, rfl, track, found', passes, rest⟩ := ih cut
      exact ⟨_, after, middle, instruction, (List.append_assoc ..).symm,
        .turn fresh found offered track, found', passes, rest⟩
  | @pass _ pointer _ instruction _ _ choices fresh found passes rest =>
      obtain ⟨rfl, rfl⟩ := List.cons.inj cut
      exact ⟨[], choices, pointer, instruction, rfl, .stay fresh, found, passes, rest⟩

/-! ## What a search arrives at -/

theorem explore_of_passed {pointer : Int} (known : pointer ∈ passed) :
    explore p passed pointer = [] := by
  rw [explore, dif_pos known]

theorem explore_of_missing {pointer : Int} (missing : p.lookup? pointer = none) :
    explore p passed pointer = [] := by
  rw [explore]
  split
  · rfl
  · split <;> simp_all

theorem explore_of_resting
    {pointer : Int} {instruction : Instruction} (fresh : pointer ∉ passed)
    (found : p.lookup? pointer = some instruction) (resting : instruction.isResting = true) :
    explore p passed pointer = [⟨[], 0, pointer⟩] := by
  rw [explore, dif_neg fresh]
  split <;> simp_all

theorem explore_of_turning
    {pointer : Int} {instruction : Instruction} (fresh : pointer ∉ passed)
    (found : p.lookup? pointer = some instruction) (turning : instruction.isResting = false) :
    explore p passed pointer =
      instruction.options.flatMap fun (made, target) =>
        (explore p (pointer :: passed) target).map (Arrival.choosing made) := by
  rw [explore, dif_neg fresh]
  split <;> simp_all

/-- Induction along a search without a character, which turns back, rests or goes on. -/
@[elab_as_elim]
theorem explore_induction
    {motive : List Int → Int → Prop}
    (known : ∀ passed pointer, pointer ∈ passed → motive passed pointer)
    (missing : ∀ passed pointer, pointer ∉ passed → p.lookup? pointer = none →
      motive passed pointer)
    (resting : ∀ passed pointer, pointer ∉ passed → ∀ instruction,
      p.lookup? pointer = some instruction → instruction.isResting = true →
      motive passed pointer)
    (turning : ∀ passed pointer, pointer ∉ passed → ∀ instruction,
      p.lookup? pointer = some instruction → instruction.isResting = false →
      (∀ target, motive (pointer :: passed) target) → motive passed pointer)
    (passed : List Int) (pointer : Int) :
    motive passed pointer := by
  apply explore.induct p motive known missing resting
  intro passed pointer fresh instruction found turns ih
  exact turning passed pointer fresh instruction found (by simpa using turns) ih

/-- A search without a character arrives where tracks without a character end at rest. -/
theorem mem_explore_iff {arrival : Arrival} :
    arrival ∈ explore p passed first ↔
      arrival.consumed = 0 ∧ Track p passed first [] arrival.choices arrival.pointer ∧
        p.Rests arrival.pointer := by
  induction passed, first using explore_induction (p := p) generalizing arrival with
  | known passed first known =>
      rw [explore_of_passed known]
      constructor
      · intro member
        cases member
      · rintro ⟨_, track, _⟩
        exact absurd known track.fresh
  | missing passed first fresh missing =>
      rw [explore_of_missing missing]
      constructor
      · intro member
        cases member
      · rintro ⟨_, track, instruction, found, _⟩
        obtain ⟨choices, consumed, pointer⟩ := arrival
        cases track <;> simp_all
  | resting passed first fresh instruction found resting =>
      rw [explore_of_resting fresh found resting, List.mem_singleton]
      constructor
      · rintro rfl
        exact ⟨rfl, .stay fresh, instruction, found, resting⟩
      · rintro ⟨none_consumed, track, _⟩
        obtain ⟨choices, consumed, pointer⟩ := arrival
        cases none_consumed
        cases track with
        | stay => rfl
        | turn _ found' offered _ =>
            cases found.symm.trans found'
            rw [Instruction.options_eq_nil_of_isResting resting] at offered
            cases offered
  | turning passed first fresh instruction found turning ih =>
      rw [explore_of_turning fresh found turning, List.mem_flatMap]
      constructor
      · rintro ⟨⟨made, target⟩, offered, member⟩
        obtain ⟨later, inside, rfl⟩ := List.mem_map.mp member
        obtain ⟨none_consumed, track, rests⟩ := (ih target).mp inside
        exact ⟨none_consumed, .turn fresh found offered track, rests⟩
      · rintro ⟨none_consumed, track, rests⟩
        obtain ⟨choices, consumed, pointer⟩ := arrival
        cases none_consumed
        cases track with
        | stay =>
            obtain ⟨other, found', resting⟩ := rests
            cases found.symm.trans found'
            cases turning.symm.trans resting
        | @turn _ _ target _ _ _ made choices _ found' offered rest =>
            cases found.symm.trans found'
            refine ⟨(made, target), offered, List.mem_map.mpr ⟨⟨choices, 0, pointer⟩, ?_, rfl⟩⟩
            exact (ih target).mpr ⟨rfl, rest, rests⟩

/-- A search without a character arrives in the order of the choices made on the way. -/
theorem pairwise_explore (p : Program) (passed : List Int) (first : Int) :
    (explore p passed first).Pairwise fun earlier later =>
      Choice.Precedes earlier.choices later.choices := by
  induction passed, first using explore_induction (p := p) with
  | known passed first known => simp [explore_of_passed known]
  | missing passed first fresh missing => simp [explore_of_missing missing]
  | resting passed first fresh instruction found resting =>
      simp [explore_of_resting fresh found resting]
  | turning passed first fresh instruction found turning ih =>
      rw [explore_of_turning fresh found turning, List.pairwise_flatMap]
      constructor
      · rintro ⟨made, target⟩ _
        rw [List.pairwise_map]
        exact (ih target).imp fun precedes => precedes.append_left made
      · refine instruction.pairwise_options.imp fun precedes arrival member other member' => ?_
        obtain ⟨inner, _, rfl⟩ := List.mem_map.mp member
        obtain ⟨inner', _, rfl⟩ := List.mem_map.mp member'
        exact precedes.append inner.choices inner'.choices

def arrivals (p : Program) (start : Int) (text : Text) (k : Nat) : List Arrival :=
  (search p start text).filter fun arrival => arrival.consumed = k

theorem arrivals_zero (p : Program) (start : Int) (text : Text) :
    arrivals p start text 0 = explore p [] start := by
  have none_consumed : ∀ stop ∈ explore p [] start, stop.consumed = 0 :=
    fun stop member => (mem_explore_iff.mp member).1
  unfold arrivals
  cases text with
  | nil => simpa [search] using none_consumed
  | cons c rest =>
      rw [search, List.filter_flatMap]
      refine (List.flatMap_congr fun stop member => ?_).trans (List.flatMap_singleton' _)
      rw [List.filter_cons_of_pos (by simpa using none_consumed stop member)]
      simp only [List.cons.injEq, true_and, List.filter_eq_nil_iff, decide_eq_true_eq]
      intro arrival inside
      split at inside
      · obtain ⟨later, _, rfl⟩ := List.mem_map.mp inside
        exact Nat.succ_ne_zero later.consumed
      · cases inside

theorem arrivals_nil_succ (p : Program) (start : Int) (k : Nat) :
    arrivals p start [] (k + 1) = [] := by
  simp only [arrivals, search, List.filter_eq_nil_iff, decide_eq_true_eq]
  intro stop member consumed
  cases (mem_explore_iff.mp member).1.symm.trans consumed

theorem arrivals_succ (p : Program) (start : Int) (c : Char) (rest : Text) (k : Nat) :
    arrivals p start (c :: rest) (k + 1) =
      (explore p [] start).flatMap fun stop =>
        if (p.lookup? stop.pointer).any (Instruction.passes c) then
          (arrivals p (stop.pointer + 1) rest k).map stop.behind
        else [] := by
  unfold arrivals
  rw [search, List.filter_flatMap]
  refine List.flatMap_congr fun stop member => ?_
  have none_consumed := (mem_explore_iff.mp member).1
  rw [List.filter_cons_of_neg (by simp [none_consumed])]
  split
  · rw [List.filter_map]
    congr 2
    funext arrival
    simp [Arrival.behind]
  · rfl

/-- Behind some characters a search arrives where tracks over these characters end at rest. -/
theorem mem_arrivals_iff {text : Text} {k : Nat} {arrival : Arrival} :
    arrival ∈ arrivals p first text k ↔
      arrival.consumed = k ∧ k ≤ text.length ∧
        Track p [] first (text.take k) arrival.choices arrival.pointer ∧
        p.Rests arrival.pointer := by
  induction k generalizing first text arrival with
  | zero => simp [arrivals_zero, mem_explore_iff]
  | succ k ih =>
      cases text with
      | nil => simp [arrivals_nil_succ]
      | cons c rest =>
          rw [arrivals_succ, List.mem_flatMap, List.take_succ_cons, List.length_cons]
          constructor
          · rintro ⟨stop, member, inside⟩
            obtain ⟨_, track, _⟩ := mem_explore_iff.mp member
            split at inside
            next passing =>
              obtain ⟨instruction, found, passes⟩ := (Option.any_eq_true _ _).mp passing
              obtain ⟨later, arrived, rfl⟩ := List.mem_map.mp inside
              obtain ⟨consumed, le, rest_track, rests⟩ := ih.mp arrived
              exact ⟨congrArg (· + 1) consumed, Nat.succ_le_succ le,
                track.pass_last rfl found passes rest_track, rests⟩
            next => cases inside
          · rintro ⟨consumed, le, track, rests⟩
            obtain ⟨before, after, middle, instruction, choices_eq, start, found, passes, track⟩ :=
              track.exists_pass rfl
            refine ⟨⟨before, 0, middle⟩,
              mem_explore_iff.mpr ⟨rfl, start, rests_of_passes found passes⟩, ?_⟩
            rw [if_pos ((Option.any_eq_true _ _).mpr ⟨instruction, found, passes⟩)]
            refine List.mem_map.mpr ⟨⟨after, k, arrival.pointer⟩,
              ih.mpr ⟨rfl, Nat.le_of_succ_le_succ le, track, rests⟩, ?_⟩
            obtain ⟨choices, _, pointer⟩ := arrival
            simp_all [Arrival.behind]

/-- Behind any number of characters a search arrives in the order of its choices. -/
theorem pairwise_arrivals (p : Program) (start : Int) (text : Text) (k : Nat) :
    (arrivals p start text k).Pairwise fun earlier later =>
      Choice.Precedes earlier.choices later.choices := by
  induction k generalizing start text with
  | zero =>
      rw [arrivals_zero]
      exact pairwise_explore p [] start
  | succ k ih =>
      cases text with
      | nil => simp [arrivals_nil_succ]
      | cons c rest =>
          rw [arrivals_succ, List.pairwise_flatMap]
          constructor
          · intro stop _
            split
            · rw [List.pairwise_map]
              exact (ih (stop.pointer + 1) rest).imp fun precedes =>
                precedes.append_left stop.choices
            · exact .nil
          · -- What comes behind two resting places is in the order of these.
            refine (pairwise_explore p [] start).imp fun precedes arrival member other member' => ?_
            split at member
            · split at member'
              · obtain ⟨inner, _, rfl⟩ := List.mem_map.mp member
                obtain ⟨inner', _, rfl⟩ := List.mem_map.mp member'
                exact precedes.append inner.choices inner'.choices
              · cases member'
            · cases member

end Program

end PatternMachine
