import PatternMachine.Proofs.Pattern.Nesting

/-!
# Open groups

Which groups are open behind a text depends only on the order of the characters that begin and end
groups and are not escaped. `groups_scan` says that a scan keeps track of this as long as no stray
character ends it, and `length_lt_of_mem_unclosed` that only later groups are open behind such a
character.
-/

namespace PatternMachine

/-- Which groups are open behind some characters of a text. -/
structure Groups where
  /-- The number of characters. -/
  position : Nat
  /-- Whether the next character stands for itself. -/
  escaped : Bool
  /-- The positions at which the open groups begin, innermost first. -/
  openings : List Nat

namespace Groups

def start : Groups :=
  ⟨0, false, []⟩

/-- One more character; one that ends a group although none is open changes nothing. -/
def step (d : Dialect) (groups : Groups) (c : Char) : Groups where
  position := groups.position + 1
  escaped := !groups.escaped && decide (d.role? c = some .escape)
  openings :=
    if groups.escaped then groups.openings
    else
      match d.role? c with
      | some .groupBegin => groups.position :: groups.openings
      | some .groupEnd => groups.openings.tail
      | _ => groups.openings

end Groups

def Dialect.groups (d : Dialect) (text : Text) : Groups :=
  text.foldl (Groups.step d) .start

/-- Where the groups of a text begin that are left unclosed, innermost first. -/
def Dialect.unclosed (d : Dialect) (text : Text) : List Nat :=
  (d.groups text).openings

def Scan.groups (s : Scan) : Groups :=
  ⟨s.position, s.escaped, s.openings⟩

theorem Scan.groups_step {d : Dialect} {s : Scan} (c : Char) (sound : s.stray = none) :
    (s.step d c).groups = s.groups.step d c := by
  rw [Scan.step_of_stray_none sound]
  simp only [groups, Groups.step, escaped_take, openings_take]
  rfl

theorem Groups.mem_openings_foldl
    {d : Dialect} {groups : Groups} {text : Text} {opening : Nat}
    (opened : opening ∈ (text.foldl (step d) groups).openings) :
    opening ∈ groups.openings ∨ groups.position ≤ opening := by
  induction text generalizing groups with
  | nil => exact .inl opened
  | cons c text ih =>
      rcases ih opened with earlier | later
      · simp only [step] at earlier
        split at earlier
        · exact .inl earlier
        · split at earlier
          · rcases List.mem_cons.mp earlier with rfl | earlier
            · exact .inr (Nat.le_refl _)
            · exact .inl earlier
          · exact .inl (List.mem_of_mem_tail earlier)
          · exact .inl earlier
      · exact .inr (Nat.le_of_succ_le later)

namespace Dialect

variable {d : Dialect} {text : Text}

theorem groups_append (d : Dialect) (text rest : Text) :
    d.groups (text ++ rest) = rest.foldl (Groups.step d) (d.groups text) :=
  List.foldl_append

theorem groups_scan (sound : (d.scan text).stray = none) :
    (d.scan text).groups = d.groups text := by
  induction text using List.reverseRecOn with
  | nil => rfl
  | append_singleton text c ih =>
      have earlier := stray_scan_of_concat sound
      rw [scan_append, Scan.groups_step c earlier, ih earlier, groups_append]
      rfl

theorem openings_scan (sound : (d.scan text).stray = none) :
    (d.scan text).openings = d.unclosed text :=
  congrArg Groups.openings (groups_scan sound)

theorem escaped_scan (sound : (d.scan text).stray = none) :
    (d.scan text).escaped = (d.groups text).escaped :=
  congrArg Groups.escaped (groups_scan sound)

theorem plain_of_top (top : (d.scan text).Top) : (d.groups text).escaped = false :=
  (escaped_scan top.stray).symm.trans top.escaped

theorem length_lt_of_mem_unclosed
    {before rest : Text} {c : Char} {opening : Nat}
    (sound : (d.scan before).stray = none) (outside : (d.scan before).openings = [])
    (closing : Scan.Closing d (d.scan before) c)
    (opened : opening ∈ d.unclosed (before ++ c :: rest)) :
    before.length < opening := by
  unfold unclosed at opened
  rw [groups_append, List.foldl_cons, ← groups_scan sound] at opened
  rcases Groups.mem_openings_foldl opened with earlier | later
  · simp [Groups.step, Scan.groups, closing.1, closing.2, outside] at earlier
  · exact position_scan sound ▸ later

end Dialect

end PatternMachine
