import Mathlib.Data.List.Induction
import PatternMachine.Pattern.Scan

/-!
# Scans inside of groups

While a group is open at the top level, a scan does to the rest of the text what a scan of its own
would do to the captured text, at positions behind the opening character. `scan_enclosed` states
this as one equation, and `exists_enclosed` says that every scan with an open group is of this
form. `Scan.step_enclosing_of_closing` adds the character that closes the group.
-/

namespace PatternMachine

namespace Scan

variable {d : Dialect} {s inner : Scan} {c : Char}

/-- Whether a scan stands outside of all groups and the next character counts by its role. -/
structure Top (s : Scan) : Prop where
  openings : s.openings = []
  escaped : s.escaped = false
  stray : s.stray = none

/-- Whether the next character closes a group, or would if one were open. -/
def Closing (d : Dialect) (s : Scan) (c : Char) : Prop :=
  s.escaped = false ∧ d.role? c = some .groupEnd

/-! ## What a character does to each part of a scan -/

theorem openings_take :
    (s.take d c).openings =
      if s.escaped then s.openings
      else
        match d.role? c with
        | some .groupBegin => s.position :: s.openings
        | some .groupEnd => s.openings.tail
        | _ => s.openings := by
  unfold take deliver announce openGroup closeGroup
  repeat' split
  all_goals simp_all

theorem escaped_take :
    (s.take d c).escaped = (!s.escaped && decide (d.role? c = some .escape)) := by
  unfold take deliver announce openGroup closeGroup
  repeat' split
  all_goals simp_all

theorem stray_take_of_openings (inside : s.openings ≠ []) : (s.take d c).stray = s.stray := by
  unfold take deliver announce openGroup closeGroup
  repeat' split
  all_goals simp_all

theorem stray_take_of_not_closing (other : ¬ Closing d s c) : (s.take d c).stray = s.stray := by
  unfold Closing at other
  unfold take deliver announce openGroup closeGroup
  repeat' split
  all_goals simp_all

theorem stray_take_of_closing (closing : Closing d s c) (outside : s.openings = []) :
    (s.take d c).stray = some s.position := by
  obtain ⟨plain, role⟩ := closing
  simp [take, plain, role, closeGroup, outside]

theorem captured_take_of_openings
    (inside : s.openings ≠ []) (stays : (s.take d c).openings ≠ []) :
    (s.take d c).captured = s.captured ++ [c] := by
  revert stays
  unfold take deliver announce openGroup closeGroup
  repeat' split
  all_goals simp_all

theorem fragments_take_of_openings
    (inside : s.openings ≠ []) (stays : (s.take d c).openings ≠ []) :
    (s.take d c).fragments = s.fragments := by
  revert stays
  unfold take deliver announce openGroup closeGroup
  repeat' split
  all_goals simp_all

theorem exists_fragments_take_of_outside (outside : s.openings = []) :
    ∃ more, (s.take d c).fragments = s.fragments ++ more ∧
      ∀ fragment ∈ more, fragment.inner? = none := by
  unfold take deliver announce openGroup closeGroup
  repeat' split
  all_goals simp_all [Fragment.inner?]

theorem step_of_stray_none (sound : s.stray = none) :
    s.step d c = { s.take d c with position := s.position + 1 } := by
  simp [step, sound]

theorem step_of_stray (ended : s.stray ≠ none) : s.step d c = s := by
  simp [step, Option.isSome_iff_ne_none.mpr ended]

/-! ## Scans inside of a group -/

/--
The scan of a text behind which a group is opened, where the text captured since then has a scan
of its own.
-/
def enclosing (outer inner : Scan) (captured : Text) : Scan where
  position := outer.position + 1 + inner.position
  openings := inner.openings.map (outer.position + 1 + ·) ++ [outer.position]
  captured := captured
  escaped := inner.escaped
  fragments := outer.fragments
  stray := none

@[simp]
theorem position_enclosing (outer inner : Scan) (captured : Text) :
    (outer.enclosing inner captured).position = outer.position + 1 + inner.position := rfl

@[simp]
theorem openings_enclosing (outer inner : Scan) (captured : Text) :
    (outer.enclosing inner captured).openings =
      inner.openings.map (outer.position + 1 + ·) ++ [outer.position] := rfl

@[simp]
theorem escaped_enclosing (outer inner : Scan) (captured : Text) :
    (outer.enclosing inner captured).escaped = inner.escaped := rfl

theorem openings_take_enclosing
    (outer : Scan) {inner : Scan} (captured : Text)
    (stays : Closing d inner c → inner.openings ≠ []) :
    ((outer.enclosing inner captured).take d c).openings =
      (inner.take d c).openings.map (outer.position + 1 + ·) ++ [outer.position] := by
  rw [openings_take, openings_take]
  by_cases escaped : inner.escaped = true
  · simp [escaped]
  · have plain : inner.escaped = false := by simpa using escaped
    simp only [escaped_enclosing, plain, Bool.false_eq_true, if_false, openings_enclosing,
      position_enclosing]
    split
    · simp
    next role =>
      cases opened : inner.openings with
      | nil => exact absurd opened (stays ⟨plain, role⟩)
      | cons opening rest => simp
    · rfl

theorem stray_step_of_stays
    (sound : s.stray = none) (stays : Closing d s c → s.openings ≠ []) :
    (s.step d c).stray = none := by
  rw [step_of_stray_none sound]
  by_cases closing : Closing d s c
  · exact (stray_take_of_openings (stays closing)).trans sound
  · exact (stray_take_of_not_closing closing).trans sound

theorem closing_of_stray (sound : s.stray = none) (ended : (s.step d c).stray ≠ none) :
    Closing d s c ∧ s.openings = [] := by
  by_contra stays
  exact ended (stray_step_of_stays sound fun closing outside => stays ⟨closing, outside⟩)

theorem step_of_closing
    (sound : s.stray = none) (closing : Closing d s c) (outside : s.openings = []) :
    (s.step d c).fragments = s.fragments ∧ (s.step d c).stray = some s.position := by
  rw [step_of_stray_none sound]
  refine ⟨?_, stray_take_of_closing closing outside⟩
  simp [take, closing.1, closing.2, closeGroup, outside]

/-- A character that does not close the outermost group acts on the inner scan. -/
theorem step_enclosing
    {outer inner : Scan} {captured : Text}
    (sound : inner.stray = none) (stays : Closing d inner c → inner.openings ≠ []) :
    (outer.enclosing inner captured).step d c =
      outer.enclosing (inner.step d c) (captured ++ [c]) := by
  have inside : (outer.enclosing inner captured).openings ≠ [] := by simp [enclosing]
  have openings := openings_take_enclosing outer captured stays
  have still_inside : ((outer.enclosing inner captured).take d c).openings ≠ [] := by
    simp [openings]
  have captured_eq := captured_take_of_openings inside still_inside
  have fragments_eq := fragments_take_of_openings inside still_inside
  have stray_eq := stray_take_of_openings (d := d) (c := c) inside
  rw [step_of_stray_none rfl, step_of_stray_none sound]
  simp only [enclosing, Scan.mk.injEq] at openings captured_eq fragments_eq stray_eq ⊢
  refine ⟨by omega, openings, captured_eq, ?_, fragments_eq, stray_eq⟩
  rw [escaped_take, escaped_take]

/-- A character that closes the outermost group completes it as a fragment. -/
theorem step_enclosing_of_closing
    (outer : Scan) {inner : Scan} (captured : Text)
    (closing : Closing d inner c) (outermost : inner.openings = []) :
    (outer.enclosing inner captured).step d c =
      { position := outer.position + 1 + inner.position + 1
        openings := []
        captured := captured
        escaped := false
        fragments := outer.fragments ++ [.group outer.position captured]
        stray := none } := by
  obtain ⟨plain, role⟩ := closing
  rw [step_of_stray_none rfl]
  simp [enclosing, take, plain, role, closeGroup, outermost]

theorem step_of_top (top : s.Top) (role : d.role? c = some .groupBegin) :
    s.step d c = s.enclosing start [] := by
  obtain ⟨openings, escaped, stray⟩ := top
  rw [step_of_stray_none stray]
  simp [take, escaped, role, openGroup, enclosing, openings, stray, start]

end Scan

namespace Dialect

variable {d : Dialect} {text before inner : Text}

theorem stray_scan_of_concat {c : Char} (sound : (d.scan (text ++ [c])).stray = none) :
    (d.scan text).stray = none := by
  by_contra ended
  rw [scan_append, Scan.step_of_stray ended] at sound
  exact ended sound

theorem stray_scan_of_append {rest : Text} (sound : (d.scan (text ++ rest)).stray = none) :
    (d.scan text).stray = none := by
  induction rest using List.reverseRecOn with
  | nil => simpa using sound
  | append_singleton rest c ih =>
      rw [← List.append_assoc] at sound
      exact ih (stray_scan_of_concat sound)

theorem openings_of_closing {c : Char}
    (sound : (d.scan (text ++ [c])).stray = none) (closing : Scan.Closing d (d.scan text) c) :
    (d.scan text).openings ≠ [] := by
  intro outside
  have earlier := stray_scan_of_concat sound
  rw [scan_append, Scan.step_of_stray_none earlier] at sound
  cases (Scan.stray_take_of_closing closing outside).symm.trans sound

theorem position_scan (sound : (d.scan text).stray = none) :
    (d.scan text).position = text.length := by
  induction text using List.reverseRecOn with
  | nil => rfl
  | append_singleton text c ih =>
      have earlier := stray_scan_of_concat sound
      rw [scan_append, Scan.step_of_stray_none earlier]
      simp [ih earlier]

/-- The scan of a text with an open group encloses the scan of what is in the group. -/
theorem scan_enclosed
    (top : (d.scan before).Top) (sound : (d.scan inner).stray = none) :
    d.scan (before ++ d.symbol .groupBegin :: inner) =
      (d.scan before).enclosing (d.scan inner) inner := by
  induction inner using List.reverseRecOn with
  | nil =>
      rw [scan_append, Scan.step_of_top top (role?_symbol d .groupBegin)]
      rfl
  | append_singleton inner c ih =>
      have earlier := stray_scan_of_concat sound
      rw [← List.cons_append, ← List.append_assoc, scan_append, ih earlier,
        Scan.step_enclosing earlier (openings_of_closing sound), scan_append]

theorem openings_of_stray (ended : (d.scan text).stray ≠ none) : (d.scan text).openings = [] := by
  induction text using List.reverseRecOn with
  | nil => exact absurd rfl ended
  | append_singleton text c ih =>
      rw [scan_append] at ended ⊢
      by_cases earlier : (d.scan text).stray = none
      · rw [Scan.step_of_stray_none earlier] at ended ⊢
        by_cases closing : Scan.Closing d (d.scan text) c
        · by_cases outside : (d.scan text).openings = []
          · simp [Scan.openings_take, closing.1, closing.2, outside]
          · exact absurd ((Scan.stray_take_of_openings outside).trans earlier) ended
        · exact absurd ((Scan.stray_take_of_not_closing closing).trans earlier) ended
      · rw [Scan.step_of_stray earlier]
        exact ih earlier

theorem exists_stray (ended : (d.scan text).stray ≠ none) :
    ∃ before c rest, text = before ++ c :: rest ∧
      (d.scan before).stray = none ∧ (d.scan before).openings = [] ∧
      Scan.Closing d (d.scan before) c ∧
      (d.scan text).fragments = (d.scan before).fragments ∧
      (d.scan text).stray = some (d.scan before).position := by
  induction text using List.reverseRecOn with
  | nil => exact absurd rfl ended
  | append_singleton text c ih =>
      rw [scan_append] at ended ⊢
      by_cases sound : (d.scan text).stray = none
      · obtain ⟨closing, outside⟩ := Scan.closing_of_stray sound ended
        exact ⟨text, c, [], rfl, sound, outside, closing,
          Scan.step_of_closing sound closing outside⟩
      · obtain ⟨before, c', rest, rfl, spec⟩ := ih sound
        refine ⟨before, c', rest ++ [c], by simp, ?_⟩
        rw [Scan.step_of_stray sound]
        exact spec

/-- Every scan with an open group is the scan of a text with a group opened at the top level. -/
theorem exists_enclosed (opened : (d.scan text).openings ≠ []) :
    ∃ before inner, text = before ++ d.symbol .groupBegin :: inner ∧
      (d.scan before).Top ∧ (d.scan inner).stray = none := by
  induction text using List.reverseRecOn with
  | nil => exact absurd rfl opened
  | append_singleton text c ih =>
      rw [scan_append] at opened
      by_cases sound : (d.scan text).stray = none
      · rw [Scan.step_of_stray_none sound] at opened
        by_cases outside : (d.scan text).openings = []
        · -- Outside of all groups only a character that begins one leaves one open.
          simp only [Scan.openings_take, outside] at opened
          split at opened
          next => exact absurd rfl opened
          next plain =>
            split at opened
            next role =>
              obtain rfl := role?_eq_some_iff.mp role
              exact ⟨text, [], rfl, ⟨outside, by simpa using plain, sound⟩, rfl⟩
            · exact absurd rfl opened
            · exact absurd rfl opened
        · obtain ⟨before, inner, rfl, top, inner_sound⟩ := ih outside
          refine ⟨before, inner ++ [c], by simp, top, ?_⟩
          rw [scan_append]
          apply Scan.stray_step_of_stays inner_sound
          intro closing outermost
          apply opened
          have closed := Scan.step_enclosing_of_closing (d.scan before) inner closing outermost
          rw [scan_enclosed top inner_sound]
          rw [Scan.step_of_stray_none rfl] at closed
          exact congrArg Scan.openings closed
      · rw [Scan.step_of_stray sound] at opened
        exact absurd (openings_of_stray sound) opened

theorem exists_closed
    {c : Char} (opened : (d.scan text).openings ≠ [])
    (closed : ((d.scan text).step d c).openings = []) :
    ∃ before inner, text = before ++ d.symbol .groupBegin :: inner ∧
      (d.scan before).Top ∧ (d.scan inner).stray = none ∧
      Scan.Closing d (d.scan inner) c ∧ (d.scan inner).openings = [] := by
  obtain ⟨before, inner, rfl, top, sound⟩ := exists_enclosed opened
  refine ⟨before, inner, rfl, top, sound, ?_⟩
  by_contra stays
  rw [scan_enclosed top sound,
    Scan.step_enclosing sound fun closing outermost => stays ⟨closing, outermost⟩] at closed
  simp at closed

end Dialect

end PatternMachine
