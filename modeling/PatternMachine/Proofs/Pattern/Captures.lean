import PatternMachine.Proofs.Pattern.Balance

/-!
# Captures on the way through a text

Reading reports each group before it reads what is in it. Which reports these are is known from the
text alone: `captures` lists the groups of all depths in the order in which they are reached, with
the positions of the texts around them. Reading keeps to this list (`read_keepsTo`) and comes to its
end if it succeeds. The listed groups begin exactly where groups begin in the text
(`map_position_captures`).
-/

namespace PatternMachine

/-! ## Computations with planned events -/

namespace Traced

variable {ε φ α β : Type} {planned : List Event} {computation : Traced ε α}

/-- Whether a computation reports planned events in order, and all of them if it has a value. -/
structure KeepsTo (planned : List Event) (computation : Traced ε α) : Prop where
  reported : computation.events <+: planned
  complete : ∀ a, computation.outcome = .ok a → computation.events = planned

theorem keepsTo_ofExcept (outcome : Except ε α) : KeepsTo [] (ofExcept outcome) :=
  ⟨List.nil_prefix, fun _ _ => rfl⟩

theorem keepsTo_report (event : Event) : KeepsTo [event] (report event : Traced ε Unit) :=
  ⟨List.prefix_rfl, fun _ _ => rfl⟩

namespace KeepsTo

theorem mapFault (keeps : KeepsTo planned computation) (describe : ε → φ) :
    KeepsTo planned (computation.mapFault describe) where
  reported := keeps.reported
  complete a succeeds := keeps.complete a (Outcome.mapError_eq_ok_iff.mp succeeds)

theorem bind
    {later : List Event} {next : α → Traced ε β}
    (first : KeepsTo planned computation) (second : ∀ a, KeepsTo later (next a)) :
    KeepsTo (planned ++ later) (computation >>= next) := by
  cases outcome : computation.outcome with
  | error fault =>
      refine ⟨?_, fun a succeeds => ?_⟩
      · rw [events_bind, outcome]
        exact first.reported.trans (List.prefix_append planned later)
      · rw [outcome_bind, outcome, Outcome.error_bind] at succeeds
        cases succeeds
  | ok a =>
      have events_eq : (computation >>= next).events = planned ++ (next a).events := by
        rw [events_bind, outcome, first.complete a outcome]
      refine ⟨?_, fun b succeeds => ?_⟩
      · rw [events_eq, List.prefix_append_right_inj]
        exact (second a).reported
      · rw [outcome_bind, outcome, Outcome.ok_bind] at succeeds
        rw [events_eq, (second a).complete b succeeds]

theorem foldlM
    {step : β → α → Traced ε β} {plan : α → List Event} {entries : List α}
    (each : ∀ entry ∈ entries, ∀ state, KeepsTo (plan entry) (step state entry)) (start : β) :
    KeepsTo (entries.flatMap plan) (entries.foldlM step start) := by
  induction entries generalizing start with
  | nil => exact ⟨List.prefix_rfl, fun _ _ => rfl⟩
  | cons entry entries ih =>
      rw [List.foldlM_cons, List.flatMap_cons]
      exact (each entry (by simp) start).bind fun state =>
        ih (fun other member => each other (by simp [member])) state

end KeepsTo

end Traced

/-! ## Captures -/

/-- A group inside of a whole text. -/
structure Capture where
  /-- Where the text around the group starts in the whole text. -/
  base : Nat
  /-- Where the group begins in the text around it. -/
  opening : Nat
  /-- What is in the group. -/
  inner : Text
  /-- The text around the group. -/
  outer : Text

namespace Capture

def event (capture : Capture) : Event :=
  .group capture.inner (capture.opening + 1) capture.outer

/-- Where a group begins in the whole text. -/
def position (capture : Capture) : Nat :=
  capture.base + capture.opening

end Capture

namespace Dialect

variable {d : Dialect} {text : Text}

/-- The groups of a text that starts at a place of a whole text, each before those inside of it. -/
def captures (d : Dialect) (base : Nat) (text : Text) : List Capture :=
  (d.scan text).fragments.attach.flatMap fun
    | ⟨.group opening inner, member⟩ =>
        have : inner.length < text.length := length_lt_of_inner? member rfl
        ⟨base, opening, inner, text⟩ :: d.captures (base + opening + 1) inner
    | _ => []
termination_by text.length

def capturesOf (d : Dialect) (base : Nat) (text : Text) : Fragment → List Capture
  | .group opening inner =>
      ⟨base, opening, inner, text⟩ :: d.captures (base + opening + 1) inner
  | _ => []

theorem captures_eq (d : Dialect) (base : Nat) (text : Text) :
    d.captures base text = (d.scan text).fragments.flatMap (d.capturesOf base text) := by
  rw [captures, List.flatMap_subtype (g := d.capturesOf base text), List.unattach_attach]
  intro fragment member
  cases fragment <;> rfl

theorem place_keepsTo
    {base : Nat} {assembly : Assembly} {fragment : Fragment}
    (inside : ∀ opening inner, fragment = .group opening inner →
      (d.read inner).KeepsTo ((d.captures (base + opening + 1) inner).map Capture.event)) :
    (assembly.place text fragment fun inner _ => d.read inner).KeepsTo
      ((d.capturesOf base text fragment).map Capture.event) := by
  cases fragment with
  | literal c => exact Traced.keepsTo_ofExcept (.ok (assembly.push (.literal c)))
  | union position => exact Traced.keepsTo_ofExcept _
  | quantifier q position => exact Traced.keepsTo_ofExcept _
  | group opening inner =>
      refine (Traced.keepsTo_report (.group inner (opening + 1) text)).bind fun _ => ?_
      have read_inner := (inside opening inner rfl).mapFault (Misread.outward opening)
      rw [← List.append_nil (List.map _ _)]
      exact read_inner.bind fun tree => Traced.keepsTo_ofExcept (.ok (assembly.push tree))

theorem read_keepsTo (d : Dialect) (base : Nat) (text : Text) :
    (d.read text).KeepsTo ((d.captures base text).map Capture.event) := by
  induction length : text.length using Nat.strongRecOn generalizing text base with
  | ind n ih =>
      subst length
      rw [read_eq, captures_eq, List.map_flatMap, ← List.append_nil (List.flatMap _ _)]
      refine Traced.KeepsTo.bind (Traced.KeepsTo.foldlM (fun fragment member assembly => ?_) _)
        fun assembly => ?_
      · refine place_keepsTo fun opening inner captured => ?_
        exact ih inner.length (length_lt_of_inner? member (captured ▸ rfl)) _ inner rfl
      · unfold Assembly.conclude
        split
        · exact Traced.keepsTo_ofExcept (.error _)
        · exact Traced.keepsTo_ofExcept _

/-- A capture is a group of the text, or is inside of a group of the text. -/
theorem captures_induction
    {motive : Nat → Text → Capture → Prop} {base : Nat} {capture : Capture}
    (here : ∀ base text opening inner, .group opening inner ∈ (d.scan text).fragments →
      motive base text ⟨base, opening, inner, text⟩)
    (inside : ∀ base text opening inner capture, .group opening inner ∈ (d.scan text).fragments →
      motive (base + opening + 1) inner capture → motive base text capture)
    (member : capture ∈ d.captures base text) :
    motive base text capture := by
  induction length : text.length using Nat.strongRecOn generalizing text base with
  | ind n ih =>
      subst length
      rw [captures_eq] at member
      obtain ⟨fragment, fragment_member, member⟩ := List.mem_flatMap.mp member
      cases fragment with
      | group opening inner =>
          rcases List.mem_cons.mp member with rfl | member
          · exact here base text opening inner fragment_member
          · have shorter := length_lt_of_inner? fragment_member rfl
            exact inside base text opening inner capture fragment_member
              (ih inner.length shorter member rfl)
      | literal c => cases member
      | union position => cases member
      | quantifier q position => cases member

/-- What is captured is captured from the text around it. -/
theorem captured_of_mem_captures
    {base : Nat} {capture : Capture} (member : capture ∈ d.captures base text) :
    d.Captured capture.outer capture.opening capture.inner := by
  refine captures_induction
    (motive := fun _ _ capture => d.Captured capture.outer capture.opening capture.inner)
    (fun base text opening inner completed => ?_) (fun _ _ _ _ _ _ captured => captured) member
  exact captured_of_mem_fragments completed

theorem exists_around_of_mem_captures
    {base : Nat} {capture : Capture} (member : capture ∈ d.captures base text) :
    ∃ front back, text = front ++ capture.outer ++ back ∧ capture.base = base + front.length := by
  refine captures_induction
    (motive := fun base text capture => ∃ front back,
      text = front ++ capture.outer ++ back ∧ capture.base = base + front.length)
    (fun base text opening inner _ => ⟨[], [], by simp, rfl⟩)
    (fun base text opening inner capture completed around => ?_) member
  obtain ⟨before, c, rest, text_eq, rfl, _⟩ := exists_enclosed_of_mem_fragments completed
  obtain ⟨front, back, inner_eq, base_eq⟩ := around
  refine ⟨before ++ d.symbol .groupBegin :: front, back ++ c :: rest, ?_, ?_⟩
  · rw [text_eq, inner_eq]
    simp
  · rw [base_eq, List.length_append, List.length_cons]
    omega

theorem map_position_captures_append
    {base : Nat} {before : Text} {more : List Fragment}
    (fragments_eq : (d.scan text).fragments = (d.scan before).fragments ++ more) :
    (d.captures base text).map Capture.position =
      (d.captures base before).map Capture.position ++
        more.flatMap fun fragment => (d.capturesOf base text fragment).map Capture.position := by
  have same : ∀ fragment, (d.capturesOf base text fragment).map Capture.position =
      (d.capturesOf base before fragment).map Capture.position := by
    intro fragment
    cases fragment <;> rfl
  rw [captures_eq, captures_eq, fragments_eq, List.flatMap_append, List.map_append,
    List.map_flatMap, List.map_flatMap, List.map_flatMap]
  simp only [same]

/-- Outside of all groups a character that opens none adds no capture, and no group begins at it. -/
theorem map_position_captures_concat
    {c : Char} (sound : (d.scan text).stray = none) (outside : (d.scan text).openings = [])
    (still_outside : (d.scan (text ++ [c])).openings = []) (base : Nat) :
    (d.captures base (text ++ [c])).map Capture.position =
        (d.captures base text).map Capture.position ∧
      d.groupBegins (text ++ [c]) = d.groupBegins text := by
  rw [scan_append, Scan.step_of_stray_none sound] at still_outside
  constructor
  · obtain ⟨more, fragments_eq, no_group⟩ :=
      Scan.exists_fragments_take_of_outside (d := d) (c := c) outside
    have same : (d.scan (text ++ [c])).fragments = (d.scan text).fragments ++ more := by
      rw [scan_append, Scan.step_of_stray_none sound]
      exact fragments_eq
    rw [map_position_captures_append same, List.append_right_eq_self, List.flatMap_eq_nil_iff]
    intro fragment member
    have no_inner := no_group fragment member
    cases fragment with
    | group opening inner => cases no_inner
    | _ => rfl
  · refine groupBegins_concat fun begins => ?_
    obtain ⟨plain, role⟩ := roleAt_length_iff.mp begins
    rw [← escaped_scan sound] at plain
    simp [Scan.openings_take, plain, role] at still_outside

theorem map_position_captures_enclosed
    {before inner : Text} {c : Char} (top : (d.scan before).Top)
    (sound : (d.scan inner).stray = none) (closing : Scan.Closing d (d.scan inner) c)
    (outermost : (d.scan inner).openings = []) (base : Nat) :
    (d.captures base (before ++ d.symbol .groupBegin :: inner ++ [c])).map Capture.position =
      (d.captures base before).map Capture.position ++ (base + before.length) ::
        (d.captures (base + before.length + 1) inner).map Capture.position := by
  have completed : (d.scan (before ++ d.symbol .groupBegin :: inner ++ [c])).fragments =
      (d.scan before).fragments ++ [.group before.length inner] := by
    rw [scan_append, scan_enclosed top sound,
      Scan.step_enclosing_of_closing _ _ closing outermost, position_scan top.stray]
  rw [map_position_captures_append completed, List.flatMap_singleton, capturesOf, List.map_cons]
  rfl

/-- The captures of a text without open groups begin where its groups begin. -/
theorem map_position_captures
    (base : Nat) (sound : (d.scan text).stray = none) (outside : (d.scan text).openings = []) :
    (d.captures base text).map Capture.position = (d.groupBegins text).map (base + ·) := by
  induction length : text.length using Nat.strongRecOn generalizing text base with
  | ind n ih =>
      subst length
      rcases List.eq_nil_or_concat' text with rfl | ⟨text, c, rfl⟩
      · rw [captures_eq]
        rfl
      have earlier := stray_scan_of_concat sound
      by_cases before_outside : (d.scan text).openings = []
      · obtain ⟨positions_eq, begins_eq⟩ :=
          map_position_captures_concat earlier before_outside outside base
        rw [positions_eq, begins_eq]
        exact ih text.length (by simp) base earlier before_outside rfl
      · -- The character leaves no group open, so that it closes the outermost one.
        rw [scan_append] at outside
        obtain ⟨before, inner, rfl, top, inner_sound, closing, outermost⟩ :=
          exists_closed before_outside outside
        have front := ih before.length (by simp) base top.stray top.openings rfl
        have inside := ih inner.length (by simp; omega) (base + before.length + 1) inner_sound
          outermost rfl
        rw [map_position_captures_enclosed top inner_sound closing outermost, front, inside,
          groupBegins_enclosed (plain_of_top top) (by rw [closing.2]; simp)]
        simp [Function.comp_def, Nat.add_assoc]

theorem outside_of_read {tree : Expression} (read : (d.read text).outcome = .ok tree) :
    (d.scan text).stray = none ∧ (d.scan text).openings = [] := by
  rw [outcome_read] at read
  obtain ⟨assembly, _, finished⟩ := Outcome.bind_eq_ok_iff.mp read
  split at finished
  · cases finished
  next sound =>
    unfold Scan.misread? at sound
    split at sound
    · cases sound
    · cases sound
    next stray outside => exact ⟨stray, outside⟩

/--
Each report of a group on the way through a text, at any depth, is of a group that is captured
exactly, and reading what is in the group blames neither an unmatched parenthesis nor a dangling
escape. If the text is read, then the reports are those of its captures, each of which is counted
from where the text around it starts, and the captures begin, in increasing order, exactly where
groups begin in the text.
-/
theorem groups_captured_in_order (d : Dialect) (text : Text) :
    (∀ inner offset outer, .group inner offset outer ∈ (d.read text).events →
      (∃ opening, offset = opening + 1 ∧ d.Captured outer opening inner) ∧
      inner.length + 2 ≤ outer.length ∧
      ∀ position, (d.read inner).outcome ≠ .error (.unmatchedParenthesis position) ∧
        (d.read inner).outcome ≠ .error (.danglingEscape position)) ∧
    ∀ tree, (d.read text).outcome = .ok tree →
      (d.read text).events = (d.captures 0 text).map Capture.event ∧
      (∀ capture ∈ d.captures 0 text, ∃ front back,
        text = front ++ capture.outer ++ back ∧ capture.base = front.length) ∧
      (d.captures 0 text).map Capture.position = d.groupBegins text := by
  have keeps := read_keepsTo d 0 text
  refine ⟨fun inner offset outer member => ?_, fun tree read => ⟨keeps.complete tree read, ?_, ?_⟩⟩
  · obtain ⟨capture, capture_member, event_eq⟩ := List.mem_map.mp (keeps.reported.mem member)
    have captured := captured_of_mem_captures capture_member
    cases event_eq
    exact ⟨⟨capture.opening, rfl, captured⟩, captured.length_add_two_le, fun position =>
      ⟨captured.balanced.outcome_read_ne_unmatched position,
        outcome_read_ne_dangling captured.plain position⟩⟩
  · intro capture member
    simpa using exists_around_of_mem_captures member
  · obtain ⟨sound, outside⟩ := outside_of_read read
    rw [map_position_captures 0 sound outside]
    simp

/-- A group with an escaped character and a group inside of it, and one behind it. -/
theorem nested_groups_captured_in_order :
    ∃ tree, (standard.read ['(', 'a', '(', 'b', ')', '\\', ')', ')', '(', 'c', ')']).outcome =
        .ok tree ∧
      .group ['b'] 2 ['a', '(', 'b', ')', '\\', ')'] ∈
        (standard.read ['(', 'a', '(', 'b', ')', '\\', ')', ')', '(', 'c', ')']).events ∧
      standard.Captured ['a', '(', 'b', ')', '\\', ')'] 1 ['b'] ∧
      (standard.captures 0 ['(', 'a', '(', 'b', ')', '\\', ')', ')', '(', 'c', ')']).map
        Capture.position = [0, 2, 8] := by
  let text : Text := ['(', 'a', '(', 'b', ')', '\\', ')', ')', '(', 'c', ')']
  let tree : Expression := .sequence [.literal 'a', .literal 'b', .literal ')', .literal 'c']
  have read : (standard.read text).outcome = .ok tree := outcome_read_eq_ok_iff.mpr (by rfl)
  have inner_member :
      ⟨1, 1, ['b'], ['a', '(', 'b', ')', '\\', ')']⟩ ∈ standard.captures 0 text := by
    rw [captures_eq]
    refine List.mem_flatMap.mpr ⟨.group 0 ['a', '(', 'b', ')', '\\', ')'], by decide, ?_⟩
    refine List.mem_cons_of_mem _ ?_
    rw [captures_eq]
    exact List.mem_flatMap.mpr ⟨.group 1 ['b'], by decide, List.mem_cons_self⟩
  obtain ⟨reports, succeeds⟩ := groups_captured_in_order standard text
  obtain ⟨events_eq, _, positions_eq⟩ := succeeds tree read
  have reported : .group ['b'] 2 ['a', '(', 'b', ')', '\\', ')'] ∈ (standard.read text).events := by
    rw [events_eq]
    exact List.mem_map_of_mem inner_member
  obtain ⟨⟨opening, offset_eq, captured⟩, _⟩ := reports _ _ _ reported
  cases offset_eq
  exact ⟨tree, read, reported, captured, positions_eq.trans (by decide)⟩

end Dialect

end PatternMachine
