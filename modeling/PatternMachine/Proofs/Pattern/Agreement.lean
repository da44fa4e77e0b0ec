import Mathlib.Data.List.Basic
import PatternMachine.Dialect.Spelling
import PatternMachine.Pattern.Reading
import PatternMachine.Proofs.Pattern.OnePass

/-!
# Capturing groups agrees with one pass

A reader that captures groups and reads them later finds the same tree as one pass, or the same
fault, unless a group is left unclosed. Then it blames the innermost of these groups, but not
before everything in front of the outermost of them fits.
-/

namespace PatternMachine

namespace Dialect

/-- Put a fragment into an assembly, reading a group as a pattern of its own. -/
def put (d : Dialect) (assembly : Assembly) : Fragment → Except Misread Assembly
  | .literal c => .ok (assembly.push (.literal c))
  | .group opening inner =>
      ((d.read inner).outcome.mapError (Misread.outward opening)).map assembly.push
  | .union position => assembly.union? position
  | .quantifier q position => assembly.quantify? q position

def assemble (d : Dialect) (fragments : List Fragment) : Except Misread Assembly :=
  fragments.foldlM d.put .empty

variable {d : Dialect} {text before inner : Text}

theorem assemble_concat (d : Dialect) (fragments : List Fragment) (fragment : Fragment) :
    d.assemble (fragments ++ [fragment]) =
      d.assemble fragments >>= fun assembly => d.put assembly fragment := by
  unfold assemble
  rw [List.foldlM_append]
  congr 1
  funext assembly
  exact List.foldlM_cons.trans (bind_pure _)

theorem outcome_place (d : Dialect) (outer : Text) (assembly : Assembly) (fragment : Fragment) :
    (assembly.place outer fragment fun inner _ => d.read inner).outcome =
      d.put assembly fragment := by
  cases fragment with
  | group opening inner =>
      simp only [Assembly.place, Traced.outcome_bind, Traced.outcome_report,
        Traced.outcome_mapFault, put, Outcome.ok_bind]
      cases (d.read inner).outcome <;> rfl
  | literal c => rfl
  | union position => rfl
  | quantifier q position => rfl

theorem outcome_read (d : Dialect) (text : Text) :
    (d.read text).outcome =
      d.assemble (d.scan text).fragments >>= fun assembly =>
        match (d.scan text).misread? with
        | some misread => .error misread
        | none => assembly.finish? text.length := by
  rw [read_eq, Traced.outcome_bind, Traced.outcome_foldlM]
  simp only [outcome_place, Assembly.conclude]
  unfold assemble
  congr 1
  funext assembly
  cases (d.scan text).misread? <;> rfl

end Dialect

/-- The pass that has come as far as a scan outside of all groups. -/
def Scan.pass (s : Scan) (assembly : Assembly) : Pass :=
  ⟨s.position, s.escaped, assembly, []⟩

namespace Dialect

variable {d : Dialect} {text before inner : Text}

theorem step_pass_of_fragment
    {s : Scan} {c : Char} (fragment : Fragment)
    (completed : (s.step d c).fragments = s.fragments ++ [fragment])
    (put_eq : ∀ assembly,
      (s.pass assembly).step d c = (d.put assembly fragment).map (s.step d c).pass) :
    ((d.assemble s.fragments).map s.pass >>= fun pass => pass.step d c) =
      (d.assemble (s.step d c).fragments).map (s.step d c).pass := by
  rw [completed, assemble_concat]
  cases d.assemble s.fragments with
  | error misread => rfl
  | ok assembly => exact put_eq assembly

theorem step_pass_of_outside
    {s : Scan} {c : Char} (sound : s.stray = none) (outside : s.openings = [])
    (still_sound : (s.step d c).stray = none) (still_outside : (s.step d c).openings = []) :
    ((d.assemble s.fragments).map s.pass >>= fun pass => pass.step d c) =
      (d.assemble (s.step d c).fragments).map (s.step d c).pass := by
  obtain ⟨position, openings, captured, escaped, fragments, stray⟩ := s
  subst sound outside
  cases escaped with
  | true =>
      apply step_pass_of_fragment (.literal c) rfl
      intro assembly
      rfl
  | false =>
      cases found : d.role? c with
      | none =>
          apply step_pass_of_fragment (.literal c)
          · simp [Scan.step, Scan.take, found, Scan.deliver]
          · intro assembly
            simp [Scan.step, Scan.take, Pass.step, Pass.take, found, Scan.deliver, Scan.pass, put]
      | some role =>
          cases role with
          | escape =>
              simp only [Scan.step, Scan.take, found, Scan.announce, List.isEmpty_nil, if_true,
                Option.isSome_none, Bool.false_eq_true, if_false]
              cases d.assemble fragments <;> simp [Pass.step, Pass.take, found, Scan.pass]
          | groupBegin =>
              simp [Scan.step, Scan.take, found, Scan.openGroup] at still_outside
          | groupEnd =>
              simp [Scan.step, Scan.take, found, Scan.closeGroup] at still_sound
          | union =>
              apply step_pass_of_fragment (.union position)
              · simp [Scan.step, Scan.take, found, Scan.deliver]
              · intro assembly
                simp only [Scan.step, Scan.take, Pass.step, Pass.take, found, Scan.deliver,
                  Scan.pass, put, Bool.false_eq_true, if_false]
                cases assembly.union? position <;> rfl
          | quantifier q =>
              apply step_pass_of_fragment (.quantifier q position)
              · simp [Scan.step, Scan.take, found, Scan.deliver]
              · intro assembly
                simp only [Scan.step, Scan.take, Pass.step, Pass.take, found, Scan.deliver,
                  Scan.pass, put, Bool.false_eq_true, if_false]
                cases assembly.quantify? q position <;> rfl

/-- A pass over an unfinished group is a pass of its own inside of what stands in front. -/
theorem passOver_enclosed
    (top : (d.scan before).Top) (sound : (d.scan inner).stray = none)
    (passed : d.passOver before =
      (d.assemble (d.scan before).fragments).map (d.scan before).pass) :
    d.passOver (before ++ d.symbol .groupBegin :: inner) =
      d.assemble (d.scan before).fragments >>= fun around =>
        ((d.passOver inner).mapError (Misread.outward (d.scan before).position)).map
          (Pass.within (d.scan before).position around) := by
  rw [passOver_append, passed, Outcome.map_bind]
  congr 1
  funext around
  rw [← Pass.foldlM_within _ around sound, List.foldlM_cons]
  have opened : ((d.scan before).pass around).step d (d.symbol .groupBegin) =
      .ok (Pass.start.within (d.scan before).position around) := by
    simp [Pass.step, Pass.take, Scan.pass, top.escaped, Pass.openFrame, Pass.within, Pass.start]
  rw [opened]
  rfl

/-- A group that is closed puts the tree of its content behind what stands around it. -/
theorem step_within_of_closing
    {s : Scan} {c : Char} {opening : Nat} {around assembly : Assembly}
    (closing : Scan.Closing d s c) (begun : assembly.branches ≠ [] → 0 < s.position) :
    ((s.pass assembly).within opening around).step d c =
      ((assembly.finish? s.position).mapError (Misread.outward opening)).map fun tree =>
        ⟨opening + 1 + s.position + 1, false, around.push tree, []⟩ := by
  obtain ⟨plain, role⟩ := closing
  obtain ⟨branches, operands⟩ := assembly
  simp only [Pass.step, Pass.take, Pass.within, Scan.pass, plain, role, Bool.false_eq_true,
    if_false, Pass.closeFrame, List.map_nil, List.nil_append]
  cases operands with
  | cons operand operands => rfl
  | nil =>
      cases branches with
      | nil => rfl
      | cons branch branches =>
          have positive : 0 < s.position := begun (by simp)
          have shift : opening + 1 + s.position - 1 = opening + 1 + (s.position - 1) := by omega
          simp [Assembly.finish?, Misread.outward, shift]

/-- Reading a text without open groups ends with its fragments put together. -/
theorem outcome_read_of_outside
    (sound : (d.scan text).stray = none) (outside : (d.scan text).openings = []) :
    (d.read text).outcome =
      (d.assemble (d.scan text).fragments).map (d.scan text).pass >>= Pass.finish := by
  have length := position_scan sound
  rw [outcome_read, Outcome.map_bind]
  congr 1
  funext assembly
  simp only [Scan.misread?, sound, outside, Pass.finish, Scan.pass]
  rw [length]
  by_cases escaped : (d.scan text).escaped = true <;> simp [escaped]

theorem passOver_closed
    {c : Char} (top : (d.scan before).Top) (sound : (d.scan inner).stray = none)
    (closing : Scan.Closing d (d.scan inner) c) (outermost : (d.scan inner).openings = [])
    (passed : d.passOver before =
      (d.assemble (d.scan before).fragments).map (d.scan before).pass)
    (passed_inner : d.passOver inner =
      (d.assemble (d.scan inner).fragments).map (d.scan inner).pass) :
    d.passOver (before ++ d.symbol .groupBegin :: inner ++ [c]) =
      (d.assemble (d.scan (before ++ d.symbol .groupBegin :: inner ++ [c])).fragments).map
        (d.scan (before ++ d.symbol .groupBegin :: inner ++ [c])).pass := by
  rw [passOver_concat, passOver_enclosed top sound passed, passed_inner, scan_append,
    scan_enclosed top sound, Scan.step_enclosing_of_closing _ _ closing outermost, assemble_concat]
  simp only [put, outcome_read_of_outside sound outermost]
  cases d.assemble (d.scan before).fragments with
  | error misread => rfl
  | ok around =>
      cases put_inner : d.assemble (d.scan inner).fragments with
      | error misread => rfl
      | ok assembly =>
          have begun : assembly.branches ≠ [] → 0 < (d.scan inner).position := by
            intro branched
            cases inner with
            | nil =>
                cases put_inner
                exact absurd rfl branched
            | cons first rest => simp [position_scan sound]
          have finished : ((d.scan inner).pass assembly).finish =
              assembly.finish? (d.scan inner).position := by
            simp [Pass.finish, Scan.pass, closing.1]
          simp only [Outcome.ok_bind, Outcome.map_ok, Outcome.mapError_ok, finished]
          rw [step_within_of_closing closing begun]
          cases assembly.finish? (d.scan inner).position <;> rfl

/-- A pass over a text without open groups puts the fragments of its scan together. -/
theorem passOver_of_outside
    (sound : (d.scan text).stray = none) (outside : (d.scan text).openings = []) :
    d.passOver text = (d.assemble (d.scan text).fragments).map (d.scan text).pass := by
  induction length : text.length using Nat.strongRecOn generalizing text with
  | ind n ih =>
      subst length
      rcases List.eq_nil_or_concat' text with rfl | ⟨text, c, rfl⟩
      · rfl
      · have earlier := stray_scan_of_concat sound
        by_cases before_outside : (d.scan text).openings = []
        · rw [passOver_concat, ih text.length (by simp) earlier before_outside rfl, scan_append]
          rw [scan_append] at sound outside
          exact step_pass_of_outside earlier before_outside sound outside
        · -- The character leaves no group open, so that it closes the outermost one.
          rw [scan_append] at outside
          obtain ⟨before, inner, rfl, top, inner_sound, closing, outermost⟩ :=
            exists_closed before_outside outside
          have passed := ih before.length (by simp) top.stray top.openings rfl
          have passed_inner := ih inner.length (by simp; omega) inner_sound outermost rfl
          exact passOver_closed top inner_sound closing outermost passed passed_inner

theorem passOver_of_closing
    {c : Char} (sound : (d.scan before).stray = none) (outside : (d.scan before).openings = [])
    (closing : Scan.Closing d (d.scan before) c) (rest : Text) :
    d.passOver (before ++ c :: rest) =
      d.assemble (d.scan before).fragments >>= fun _ =>
        .error (.unmatchedParenthesis (d.scan before).position) := by
  rw [passOver_append, passOver_of_outside sound outside, Outcome.map_bind]
  congr 1
  funext assembly
  obtain ⟨plain, role⟩ := closing
  simp [Pass.step, Pass.take, Scan.pass, plain, role, Pass.closeFrame]

/-- Reading agrees with one pass if no group is left unclosed. -/
theorem outcome_read_of_closed (closed : d.unclosed text = []) :
    (d.read text).outcome = d.readOnce text := by
  by_cases sound : (d.scan text).stray = none
  · have outside : (d.scan text).openings = [] :=
      (openings_scan sound).trans closed
    rw [outcome_read_of_outside sound outside, ← passOver_of_outside sound outside]
    rfl
  · obtain ⟨before, c, rest, rfl, before_sound, outside, closing, fragments_eq, stray_eq⟩ :=
      exists_stray sound
    rw [outcome_read, readOnce, passOver_of_closing before_sound outside closing, fragments_eq]
    simp only [Scan.misread?, stray_eq]
    cases d.assemble (d.scan before).fragments <;> rfl

/-- What stands in front of the outermost open group is read before the group is blamed. -/
theorem outcome_read_of_openings
    {innermost : Nat} {around : List Nat} (sound : (d.scan text).stray = none)
    (openings : (d.scan text).openings = innermost :: around) :
    (d.read text).outcome =
      d.passOver (text.take (around.getLastD innermost)) >>= fun _ =>
        .error (.unmatchedParenthesis innermost) := by
  have opened : (d.scan text).openings ≠ [] := by simp [openings]
  obtain ⟨before, inner, rfl, top, inner_sound⟩ := exists_enclosed opened
  have enclosed := scan_enclosed top inner_sound
  have outermost : around.getLastD innermost = before.length := by
    have last := congrArg List.getLast? openings
    rw [enclosed, Scan.openings_enclosing, List.getLast?_concat, List.getLast?_cons,
      ← List.getLastD_eq_getLast?] at last
    exact (Option.some.inj last).symm.trans (position_scan top.stray)
  rw [outermost, List.take_left' rfl, passOver_of_outside top.stray top.openings, outcome_read,
    Outcome.map_bind]
  simp only [Scan.misread?, sound, openings]
  rw [enclosed]
  rfl

theorem outcome_read_of_stray
    {opening : Nat} (ended : (d.scan text).stray ≠ none) (opened : opening ∈ d.unclosed text)
    (innermost : Nat) :
    (d.read text).outcome =
      d.passOver (text.take opening) >>= fun _ => .error (.unmatchedParenthesis innermost) := by
  obtain ⟨before, c, rest, rfl, before_sound, outside, closing, fragments_eq, stray_eq⟩ :=
    exists_stray ended
  have behind : before.length < opening :=
    length_lt_of_mem_unclosed before_sound outside closing opened
  have cut : (before ++ c :: rest).take opening =
      before ++ c :: rest.take (opening - before.length - 1) := by
    rw [List.take_append, List.take_of_length_le (Nat.le_of_lt behind),
      List.take_cons (Nat.sub_pos_of_lt behind)]
  rw [cut, passOver_of_closing before_sound outside closing, outcome_read, fragments_eq]
  simp only [Scan.misread?, stray_eq]
  cases d.assemble (d.scan before).fragments <;> rfl

/-- If a group is left unclosed, only what stands in front of the outermost one is blamed first. -/
theorem outcome_read_of_unclosed
    {innermost : Nat} {around : List Nat} (unclosed : d.unclosed text = innermost :: around) :
    (d.read text).outcome =
      d.passOver (text.take (around.getLastD innermost)) >>= fun _ =>
        .error (.unmatchedParenthesis innermost) := by
  by_cases sound : (d.scan text).stray = none
  · apply outcome_read_of_openings sound
    exact (openings_scan sound).trans unclosed
  · have last : (d.unclosed text).getLast? = some (around.getLastD innermost) := by
      rw [unclosed, List.getLast?_cons, List.getLastD_eq_getLast?]
    exact outcome_read_of_stray sound (List.mem_of_getLast? last) innermost

theorem outcome_read_eq_ok_iff {tree : Expression} :
    (d.read text).outcome = .ok tree ↔ d.readOnce text = .ok tree := by
  cases unclosed : d.unclosed text with
  | nil => rw [outcome_read_of_closed unclosed]
  | cons innermost around =>
      -- Both blame the innermost open group if they come to the end of the text.
      constructor
      · intro read
        rw [outcome_read_of_unclosed unclosed] at read
        obtain ⟨_, _, impossible⟩ := Outcome.bind_eq_ok_iff.mp read
        cases impossible
      · intro read
        obtain ⟨pass, passed, finished⟩ := Outcome.bind_eq_ok_iff.mp read
        obtain ⟨groups_eq, _⟩ := Pass.groups_of_passOver passed
        have framed : pass.frames.map Prod.fst = innermost :: around :=
          (congrArg Groups.openings groups_eq).trans unclosed
        obtain ⟨position, escaped, assembly, frames⟩ := pass
        cases frames with
        | nil => cases framed
        | cons frame frames => cases finished

/--
Reading finds what one pass finds if no group is left unclosed. Otherwise it blames the innermost
of these groups, unless one pass meets a fault in front of the outermost of them.
-/
theorem outcome_read_eq_one_pass (d : Dialect) (text : Text) :
    (d.read text).outcome =
      match d.unclosed text with
      | [] => d.readOnce text
      | innermost :: around =>
          match d.passOver (text.take (around.getLastD innermost)) with
          | .error misread => .error misread
          | .ok _ => .error (.unmatchedParenthesis innermost) := by
  cases unclosed : d.unclosed text with
  | nil => exact outcome_read_of_closed unclosed
  | cons innermost around =>
      rw [outcome_read_of_unclosed unclosed]
      dsimp only
      cases d.passOver (text.take (around.getLastD innermost)) <;> rfl

example : standard.readOnce ['a', '(', 'b', '|', ')', '?'] = .error (.emptyAlternative 3) := by rfl

end Dialect

end PatternMachine
