import PatternMachine.Pattern.Assembly
import PatternMachine.Proofs.Outcome
import PatternMachine.Proofs.Pattern.Groups

/-!
# Reading in one pass

A pattern can be read without capturing groups: one pass over the text keeps a frame for each open
group, and stops at the first character that fits nowhere. All positions are those of the whole
text. `Pass.follows_of_passOver` says that a pass agrees with a scan on which groups are open, and
`foldlM_within` that a pass inside of a group is a pass of its own at positions behind the
character that begins the group.
-/

namespace PatternMachine

/-- How far one pass over a pattern has come. -/
structure Pass where
  /-- The number of characters read. -/
  position : Nat
  /-- Whether the next character stands for itself. -/
  escaped : Bool
  /-- What has been put together in the innermost open group. -/
  assembly : Assembly
  /-- For each open group, innermost first, where it begins and what stands around it. -/
  frames : List (Nat × Assembly)

namespace Pass

def start : Pass :=
  ⟨0, false, .empty, []⟩

def openFrame (pass : Pass) : Pass :=
  { pass with
    assembly := .empty
    frames := (pass.position, pass.assembly) :: pass.frames }

/--
A character that ends a group closes the innermost frame. The frame has to be there, something
has to have been read in it, and its last branch must not be empty.
-/
def closeFrame (pass : Pass) : Except Misread Pass :=
  match pass.frames with
  | [] => .error (.unmatchedParenthesis pass.position)
  | (opening, around) :: frames =>
      match pass.assembly.operands, pass.assembly.branches with
      | [], [] => .error (.emptyGroup opening)
      | [], _ :: _ => .error (.emptyAlternative (pass.position - 1))
      | _ :: _, branches =>
          let tree := Tree.choice (pass.assembly.branch :: branches).reverse
          .ok { pass with assembly := around.push tree, frames := frames }

def take (d : Dialect) (pass : Pass) (c : Char) : Except Misread Pass :=
  if pass.escaped then
    .ok { pass with escaped := false, assembly := pass.assembly.push (.literal c) }
  else
    match d.role? c with
    | none => .ok { pass with assembly := pass.assembly.push (.literal c) }
    | some .escape => .ok { pass with escaped := true }
    | some .groupBegin => .ok pass.openFrame
    | some .groupEnd => pass.closeFrame
    | some .union =>
        (pass.assembly.union? pass.position).map fun assembly => { pass with assembly := assembly }
    | some (.quantifier q) =>
        (pass.assembly.quantify? q pass.position).map fun assembly =>
          { pass with assembly := assembly }

def step (d : Dialect) (pass : Pass) (c : Char) : Except Misread Pass :=
  (pass.take d c).map fun next => { next with position := pass.position + 1 }

/--
The end of a pass. A group that is still open is blamed first, then an escape that is left over,
then an empty pattern or an empty last branch.
-/
def finish (pass : Pass) : Except Misread Expression :=
  match pass.frames with
  | (opening, _) :: _ => .error (.unmatchedParenthesis opening)
  | [] =>
      if pass.escaped then .error (.danglingEscape (pass.position - 1))
      else pass.assembly.finish? pass.position

end Pass

namespace Dialect

/-- One pass over a text up to the first character that fits nowhere. -/
def passOver (d : Dialect) (text : Text) : Except Misread Pass :=
  text.foldlM (Pass.step d) .start

/-- Read a text as a pattern in one pass. -/
def readOnce (d : Dialect) (text : Text) : Except Misread Expression := do
  (← d.passOver text).finish

theorem passOver_append (d : Dialect) (text rest : Text) :
    d.passOver (text ++ rest) = d.passOver text >>= fun pass => rest.foldlM (Pass.step d) pass :=
  List.foldlM_append

theorem passOver_concat (d : Dialect) (text : Text) (c : Char) :
    d.passOver (text ++ [c]) = d.passOver text >>= fun pass => pass.step d c := by
  rw [passOver_append]
  congr 1
  funext pass
  exact List.foldlM_cons.trans (bind_pure _)

end Dialect

namespace Pass

variable {d : Dialect} {pass next : Pass} {s : Scan} {c : Char}

/-! ## Open groups -/

def groups (pass : Pass) : Groups :=
  ⟨pass.position, pass.escaped, pass.frames.map Prod.fst⟩

theorem groups_of_step (stepped : pass.step d c = .ok next) :
    next.groups = pass.groups.step d c := by
  obtain ⟨middle, taken, rfl⟩ := Outcome.map_eq_ok_iff.mp stepped
  unfold take closeFrame openFrame at taken
  repeat' split at taken
  all_goals simp_all [Outcome.map_eq_ok_iff, groups, Groups.step]
  all_goals grind

theorem frames_ne_nil_of_step
    (stepped : pass.step d c = .ok next)
    (plain : pass.escaped = false) (role : d.role? c = some .groupEnd) :
    pass.frames ≠ [] := by
  intro outside
  simp [step, take, plain, role, closeFrame, outside] at stepped

/-- A pass over a text knows which groups are open, and no stray character has ended the scan. -/
theorem groups_of_passOver {text : Text} (passed : d.passOver text = .ok pass) :
    pass.groups = d.groups text ∧ (d.scan text).stray = none := by
  induction text using List.reverseRecOn generalizing pass with
  | nil =>
      cases passed
      exact ⟨rfl, rfl⟩
  | append_singleton text c ih =>
      rw [Dialect.passOver_concat] at passed
      obtain ⟨earlier, passed, stepped⟩ := Outcome.bind_eq_ok_iff.mp passed
      obtain ⟨groups_eq, sound⟩ := ih passed
      have same : earlier.groups = (d.scan text).groups :=
        groups_eq.trans (Dialect.groups_scan sound).symm
      constructor
      · rw [groups_of_step stepped, groups_eq, Dialect.groups_append]
        rfl
      · rw [Dialect.scan_append]
        apply Scan.stray_step_of_stays sound
        intro closing outside
        have plain := (congrArg Groups.escaped same).trans closing.1
        have unframed := (congrArg Groups.openings same).trans outside
        exact frames_ne_nil_of_step stepped plain closing.2 (List.map_eq_nil_iff.mp unframed)

/-! ## Passes inside of a group -/

/-- The pass inside of a group that begins behind an assembly at a position of the text. -/
def within (opening : Nat) (around : Assembly) (pass : Pass) : Pass :=
  { pass with
    position := opening + 1 + pass.position
    frames := pass.frames.map (fun frame => (opening + 1 + frame.1, frame.2)) ++
      [(opening, around)] }

theorem union?_within (assembly : Assembly) (opening position : Nat) :
    assembly.union? (opening + 1 + position) =
      (assembly.union? position).mapError (Misread.outward opening) := by
  unfold Assembly.union?
  split <;> rfl

theorem quantify?_within
    (assembly : Assembly) (q : Quantifier) (opening position : Nat) :
    assembly.quantify? q (opening + 1 + position) =
      (assembly.quantify? q position).mapError (Misread.outward opening) := by
  unfold Assembly.quantify?
  split <;> rfl

theorem closeFrame_within
    (opening : Nat) (around : Assembly)
    (inside : pass.frames ≠ []) (behind : 0 < pass.position) :
    (pass.within opening around).closeFrame =
      (pass.closeFrame.mapError (Misread.outward opening)).map (within opening around) := by
  obtain ⟨position, escaped, ⟨branches, operands⟩, frames⟩ := pass
  cases frames with
  | nil => exact absurd rfl inside
  | cons frame frames =>
      obtain ⟨begins, before⟩ := frame
      cases operands with
      | cons operand operands => rfl
      | nil =>
          cases branches with
          | nil => rfl
          | cons branch branches =>
              have shift : opening + 1 + position - 1 = opening + 1 + (position - 1) := by
                have positive : 0 < position := behind
                omega
              simp [closeFrame, within, Misread.outward, shift]

theorem map_assembly_within
    (opening : Nat) (around : Assembly) (pass : Pass) (outcome : Except Misread Assembly) :
    (outcome.mapError (Misread.outward opening)).map
        (fun assembly => { pass.within opening around with assembly := assembly }) =
      ((outcome.map fun assembly => { pass with assembly := assembly }).mapError
        (Misread.outward opening)).map (within opening around) := by
  cases outcome <;> rfl

theorem take_within
    (opening : Nat) (around : Assembly)
    (stays : pass.escaped = false → d.role? c = some .groupEnd → pass.frames ≠ [])
    (behind : pass.frames ≠ [] → 0 < pass.position) :
    (pass.within opening around).take d c =
      ((pass.take d c).mapError (Misread.outward opening)).map (within opening around) := by
  obtain ⟨position, escaped, assembly, frames⟩ := pass
  cases escaped with
  | true => rfl
  | false =>
      simp only [take, within, Bool.false_eq_true, if_false]
      cases found : d.role? c with
      | none => rfl
      | some role =>
          cases role with
          | escape => rfl
          | groupBegin => rfl
          | groupEnd =>
              have inside := stays rfl found
              exact closeFrame_within opening around inside (behind inside)
          | union =>
              simp only [union?_within]
              exact map_assembly_within opening around ⟨position, false, assembly, frames⟩ _
          | quantifier q =>
              simp only [quantify?_within]
              exact map_assembly_within opening around ⟨position, false, assembly, frames⟩ _

/-- A character that does not close the outermost group acts on the pass inside of it. -/
theorem step_within
    (opening : Nat) (around : Assembly)
    (stays : pass.escaped = false → d.role? c = some .groupEnd → pass.frames ≠ [])
    (behind : pass.frames ≠ [] → 0 < pass.position) :
    (pass.within opening around).step d c =
      ((pass.step d c).mapError (Misread.outward opening)).map (within opening around) := by
  unfold step
  rw [take_within opening around stays behind]
  cases pass.take d c with
  | error misread => rfl
  | ok next => simp [within, Nat.add_assoc]

theorem foldlM_within
    (opening : Nat) (around : Assembly) {text : Text} (sound : (d.scan text).stray = none) :
    text.foldlM (step d) (start.within opening around) =
      ((d.passOver text).mapError (Misread.outward opening)).map (within opening around) := by
  induction text using List.reverseRecOn with
  | nil => rfl
  | append_singleton text c ih =>
      have earlier := Dialect.stray_scan_of_concat sound
      rw [List.foldlM_append, ih earlier, Dialect.passOver_concat]
      cases passed : d.passOver text with
      | error misread => rfl
      | ok pass =>
          obtain ⟨groups_eq, _⟩ := groups_of_passOver passed
          have same : pass.groups = (d.scan text).groups :=
            groups_eq.trans (Dialect.groups_scan earlier).symm
          have stays : pass.escaped = false → d.role? c = some .groupEnd → pass.frames ≠ [] := by
            intro plain role unframed
            have closing : Scan.Closing d (d.scan text) c :=
              ⟨(congrArg Groups.escaped same).symm.trans plain, role⟩
            apply Dialect.openings_of_closing sound closing
            apply (congrArg Groups.openings same).symm.trans
            simp [groups, unframed]
          have behind : pass.frames ≠ [] → 0 < pass.position := by
            intro framed
            cases text with
            | nil =>
                cases passed
                exact absurd rfl framed
            | cons first rest =>
                have length : pass.position = (first :: rest).length :=
                  (congrArg Groups.position same).trans (Dialect.position_scan earlier)
                simp [length]
          simp only [Outcome.mapError_ok, Outcome.map_ok, Outcome.ok_bind, List.foldlM_cons,
            List.foldlM_nil, bind_pure]
          exact step_within opening around stays behind

end Pass

end PatternMachine
