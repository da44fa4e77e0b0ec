import PatternMachine.Proofs.Pattern.OneStack

/-!
# Reports

Reading with one stack goes as far as a scan and has on its stack what the fragments of the scan
have been put together to (`StackReader.foldlM_step`). So it comes to the same tree as reading, or
stops with the report of the same misreading, and never breaks down otherwise (`readStack_eq`).
-/

namespace PatternMachine

namespace StackReader

open Breakdown (raise regroup)

variable {d : Dialect} {text inner : Text} {s : Scan} {assembly : Assembly} {c : Char}
  {readInner : Text → Except Breakdown Expression}

/-- How far a reader with one stack has come over the text of a scan. -/
def progress (d : Dialect) (text : Text) (s : Scan) : Except Breakdown StackReader :=
  ((d.assemble s.fragments).mapError (Misread.report text)).map s.reader

theorem progress_of_kept
    (kept : (s.step d c).fragments = s.fragments)
    (step_eq : ∀ assembly, (s.reader assembly).step d readInner text s.position c =
      .ok ((s.step d c).reader assembly)) :
    (progress d text s >>= fun reader => reader.step d readInner text s.position c) =
      progress d text (s.step d c) := by
  rw [progress, progress, kept]
  cases d.assemble s.fragments with
  | error misread => rfl
  | ok assembly => exact step_eq assembly

theorem progress_of_fragment
    (fragment : Fragment) (completed : (s.step d c).fragments = s.fragments ++ [fragment])
    (step_eq : ∀ assembly, (s.reader assembly).step d readInner text s.position c =
      ((d.put assembly fragment).mapError (Misread.report text)).map (s.step d c).reader) :
    (progress d text s >>= fun reader => reader.step d readInner text s.position c) =
      progress d text (s.step d c) := by
  rw [progress, progress, completed, Dialect.assemble_concat]
  cases d.assemble s.fragments with
  | error misread => rfl
  | ok assembly => exact step_eq assembly

theorem progress_of_inside
    (sound : s.stray = none) (inside : s.openings ≠ []) (stays : (s.step d c).openings ≠ []) :
    (progress d text s >>= fun reader => reader.step d readInner text s.position c) =
      progress d text (s.step d c) := by
  rw [Scan.step_of_stray_none sound] at stays
  have kept : (s.step d c).fragments = s.fragments := by
    rw [Scan.step_of_stray_none sound]
    exact Scan.fragments_take_of_openings inside stays
  refine progress_of_kept kept fun assembly => ?_
  rw [Scan.step_of_stray_none sound]
  obtain ⟨position, _ | ⟨opening, around⟩, captured, escaped, fragments, stray⟩ := s
  · exact absurd rfl inside
  have deep : (0 : Int) < around.length + 1 := by omega
  cases escaped with
  | true => simp [step, Scan.reader, deep, capture, Scan.take, Scan.deliver]
  | false =>
      cases found : d.role? c with
      | none => simp [step, Scan.reader, found, deep, capture, Scan.take, Scan.deliver]
      | some role =>
          cases role with
          | escape => simp [step, Scan.reader, found, deep, capture, Scan.take, Scan.announce]
          | groupBegin => simp [step, Scan.reader, found, deep, Scan.take, Scan.openGroup]
          | union => simp [step, Scan.reader, found, deep, capture, Scan.take, Scan.deliver]
          | quantifier q => simp [step, Scan.reader, found, deep, capture, Scan.take, Scan.deliver]
          | groupEnd =>
              cases around with
              | nil => simp [Scan.take, found, Scan.closeGroup] at stays
              | cons next around =>
                  have still : ¬ (around.length : Int) + 1 < 0 := by omega
                  have deeper : (around.length : Int) + 1 ≠ 0 := by omega
                  simp [step, Scan.reader, found, closeGroup, still, deeper, capture, Scan.take,
                    Scan.closeGroup]

theorem progress_of_outside
    (sound : s.stray = none) (outside : s.openings = []) (stays : (s.step d c).stray = none)
    (inside : s.position < text.length) :
    (progress d text s >>= fun reader => reader.step d readInner text s.position c) =
      progress d text (s.step d c) := by
  obtain ⟨position, openings, captured, escaped, fragments, stray⟩ := s
  subst sound outside
  cases escaped with
  | true => exact progress_of_fragment (.literal c) rfl fun assembly => rfl
  | false =>
      cases found : d.role? c with
      | none =>
          apply progress_of_fragment (.literal c)
          · simp [Scan.step, Scan.take, found, Scan.deliver]
          · intro assembly
            simp [step, Scan.reader, found, literal, Tree.literal?, Scan.step, Scan.take,
              Scan.deliver, Dialect.put, push, Assembly.push]
      | some role =>
          cases role with
          | escape =>
              apply progress_of_kept
              · simp [Scan.step, Scan.take, found, Scan.announce]
              · simp [step, Scan.reader, found, Scan.step, Scan.take, Scan.announce]
          | groupBegin =>
              apply progress_of_kept
              · simp [Scan.step, Scan.take, found, Scan.openGroup]
              · simp [step, Scan.reader, found, Scan.step, Scan.take, Scan.openGroup]
          | groupEnd => simp [Scan.step, Scan.take, found, Scan.closeGroup] at stays
          | union =>
              apply progress_of_fragment (.union position)
              · simp [Scan.step, Scan.take, found, Scan.deliver]
              · intro assembly
                have closes := closeBranch_reader
                  ⟨position + 1, [], captured, false, fragments ++ [.union position], none⟩
                  assembly inside
                simpa [step, Scan.reader, found, Scan.step, Scan.take, Scan.deliver, Dialect.put]
                  using closes
          | quantifier q =>
              apply progress_of_fragment (.quantifier q position)
              · simp [Scan.step, Scan.take, found, Scan.deliver]
              · intro assembly
                have quantifies := quantify_reader
                  ⟨position + 1, [], captured, false, fragments ++ [.quantifier q position], none⟩
                  assembly q inside
                simpa [step, Scan.reader, found, Scan.step, Scan.take, Scan.deliver, Dialect.put]
                  using quantifies

theorem progress_of_closing
    {outer : Scan} (closing : Scan.Closing d s c) (outermost : s.openings = [])
    (inside : outer.position + 1 + s.position < text.length)
    (sound : s.position = inner.length)
    (inner_read : readInner inner = (d.read inner).outcome.mapError (Misread.report inner)) :
    (progress d text (outer.enclosing s inner) >>= fun reader =>
        reader.step d readInner text (outer.enclosing s inner).position c) =
      progress d text ((outer.enclosing s inner).step d c) := by
  have closed := Scan.step_enclosing_of_closing outer inner closing outermost
  apply progress_of_fragment (.group outer.position inner)
  · rw [closed]
    rfl
  · intro assembly
    obtain ⟨plain, role⟩ := closing
    have regrouped : ((outer.enclosing s inner).reader assembly).step d readInner text
        (outer.enclosing s inner).position c =
          (regroup text inner (outer.position + 1 + s.position) (readInner inner)).map
            ((Scan.step d (outer.enclosing s inner) c).reader assembly).push := by
      rw [closed]
      simp [step, Scan.reader, Scan.enclosing, plain, role, closeGroup, outermost]
    rw [regrouped, inner_read, regroup_report (by rw [sound]) inside, closed, Dialect.put]
    cases (d.read inner).outcome <;> rfl

theorem progress_of_stray
    (closing : Scan.Closing d s c) (outside : s.openings = [])
    (inside : s.position < text.length) :
    (progress d text s >>= fun reader => reader.step d readInner text s.position c) =
      (d.assemble s.fragments).mapError (Misread.report text) >>= fun _ =>
        .error (Misread.report text (.unmatchedParenthesis s.position)) := by
  obtain ⟨plain, role⟩ := closing
  rw [progress, Outcome.map_bind]
  congr 1
  funext assembly
  have raised : (raise .unmatchedParenthesis s.position text : Except Breakdown StackReader) =
      .error (Misread.report text (.unmatchedParenthesis s.position)) :=
    raise_eq_report (.unmatchedParenthesis s.position) rfl inside
  simpa [step, Scan.reader, plain, role, closeGroup, outside, Misread.kind] using raised

theorem progress_scan
    (inner_read : ∀ inner, inner.length < text.length →
      readInner inner = (d.read inner).outcome.mapError (Misread.report inner))
    {before rest : Text} (cut : text = before ++ c :: rest)
    (sound : (d.scan before).stray = none) (stays : ((d.scan before).step d c).stray = none) :
    (progress d text (d.scan before) >>= fun reader =>
        reader.step d readInner text (d.scan before).position c) =
      progress d text ((d.scan before).step d c) := by
  have inside : (d.scan before).position < text.length := by
    simp [Dialect.position_scan sound, cut]
  by_cases outside : (d.scan before).openings = []
  · exact progress_of_outside sound outside stays inside
  · by_cases closed : ((d.scan before).step d c).openings = []
    · obtain ⟨front, inner, rfl, top, inner_sound, closing, outermost⟩ :=
        Dialect.exists_closed outside closed
      have shorter : inner.length < text.length := by
        simp only [cut, List.length_append, List.length_cons]
        omega
      rw [Dialect.scan_enclosed top inner_sound] at inside ⊢
      exact progress_of_closing closing outermost inside (Dialect.position_scan inner_sound)
        (inner_read inner shorter)
    · exact progress_of_inside sound outside closed

/-- A reader with one stack that knows how groups are read goes as far as a scan. -/
theorem foldlM_step
    (inner_read : ∀ inner, inner.length < text.length →
      readInner inner = (d.read inner).outcome.mapError (Misread.report inner))
    {before rest : Text} (cut : text = before ++ rest) :
    before.zipIdx.foldlM (fun reader (c, position) => reader.step d readInner text position c)
        start =
      match (d.scan before).stray with
      | none => progress d text (d.scan before)
      | some position =>
          (d.assemble (d.scan before).fragments).mapError (Misread.report text) >>= fun _ =>
            .error (Misread.report text (.unmatchedParenthesis position)) := by
  induction before using List.reverseRecOn generalizing rest with
  | nil => rfl
  | append_singleton before c ih =>
      have cut : text = before ++ c :: rest := by simp [cut]
      have zipped : (before ++ [c]).zipIdx = before.zipIdx ++ [(c, before.length)] := by
        simp [List.zipIdx_append]
      have single : ∀ reader : StackReader, [(c, before.length)].foldlM
          (fun reader (c, position) => reader.step d readInner text position c) reader =
            reader.step d readInner text before.length c :=
        fun reader => List.foldlM_cons.trans (bind_pure _)
      rw [zipped, List.foldlM_append, ih cut]
      simp only [single, Dialect.scan_append]
      cases sound : (d.scan before).stray with
      | some position =>
          -- The reader has stopped at the stray character, and the scan stands still behind it.
          have ended : (d.scan before).stray ≠ none := by simp [sound]
          simp only [Scan.step_of_stray ended, sound]
          cases d.assemble (d.scan before).fragments <;> rfl
      | none =>
          have come := Dialect.position_scan sound
          rw [← come]
          cases stray : ((d.scan before).step d c).stray with
          | none => exact progress_scan inner_read cut sound stray
          | some position =>
              have ended : ((d.scan before).step d c).stray ≠ none := by simp [stray]
              obtain ⟨closing, outside⟩ := Scan.closing_of_stray sound ended
              obtain ⟨fragments_eq, stray_eq⟩ := Scan.step_of_closing sound closing outside
              obtain rfl := Option.some.inj (stray.symm.trans stray_eq)
              simp only [fragments_eq]
              exact progress_of_stray closing outside (by simp [come, cut])

theorem finish_reader
    (sound : (d.scan text).stray = none)
    (assembled : d.assemble (d.scan text).fragments = .ok assembly) :
    ((d.scan text).reader assembly).finish text =
      Except.mapError (Misread.report text) (
        match (d.scan text).misread? with
        | some misread => .error misread
        | none => assembly.finish? text.length) := by
  rcases List.eq_nil_or_concat' text with rfl | ⟨before, c, rfl⟩
  · cases assembled
    rfl
  generalize whole : before ++ [c] = text at *
  have positive : 0 < text.length := by simp [← whole]
  unfold finish Scan.misread?
  cases openings : (d.scan text).openings with
  | cons opening around =>
      have unclosed : opening ∈ d.unclosed text := by
        rw [← Dialect.openings_scan sound, openings]
        exact List.mem_cons_self
      have deep : 0 < ((d.scan text).reader assembly).depth := by
        simp only [Scan.reader, openings, List.length_cons]
        omega
      rw [if_pos deep]
      simp only [Scan.reader, openings, sound]
      exact raise_eq_report (.unmatchedParenthesis opening) rfl
        (Dialect.roleAt_of_mem_unclosed unclosed).lt_length
  | nil =>
      have flat : ¬ 0 < ((d.scan text).reader assembly).depth := by simp [Scan.reader, openings]
      rw [if_neg flat, sound, Dialect.position_scan sound, conclude_reader positive]
      by_cases announced : (d.scan text).escaped = true
      · have last : (text.length : Int) - 1 = (text.length - 1 : Nat) := by omega
        simp only [Scan.reader, announced, if_true, last]
        exact raise_eq_report (.danglingEscape (text.length - 1)) rfl (by omega)
      · simp [Scan.reader, announced]

end StackReader

/-- Reading with one stack never breaks down otherwise than by reporting a misreading. -/
theorem Dialect.readStack_eq (d : Dialect) (text : Text) :
    d.readStack text = (d.read text).outcome.mapError (Misread.report text) := by
  induction length : text.length using Nat.strongRecOn generalizing text with
  | ind n ih =>
      subst length
      have inner_read : ∀ inner : Text, inner.length < text.length →
          (if _ : inner.length < text.length then d.readStack inner else .error .endless) =
            (d.read inner).outcome.mapError (Misread.report inner) := by
        intro inner shorter
        rw [dif_pos shorter]
        exact ih inner.length shorter inner rfl
      rw [readStack, StackReader.foldlM_step inner_read (List.append_nil text).symm, outcome_read]
      cases sound : (d.scan text).stray with
      | some position =>
          simp only [Scan.misread?, sound]
          cases d.assemble (d.scan text).fragments <;> rfl
      | none =>
          simp only [StackReader.progress]
          cases assembled : d.assemble (d.scan text).fragments with
          | error misread => rfl
          | ok assembly => exact StackReader.finish_reader sound assembled

/--
Reading a text with one stack ends with the tree that is read, or with the report of a misreading
that is true of the text. The report is the fault that is made directly at its position of this
text, where nothing is escaped, and it is that of an empty pattern only if the text is empty.
-/
theorem Dialect.readStack_reports_blame (d : Dialect) (text : Text) :
    (d.readStack text = .error (Misread.report text .emptyPattern) ↔ text = []) ∧
      match (d.read text).outcome with
      | .ok tree => d.readStack text = .ok tree
      | .error misread =>
          d.readStack text = .error (.reported (misread.fault text)) ∧
          (misread.fault text).text = some text ∧
          d.Blames text misread ∧
          match misread.position? with
          | none => misread.fault text = .emptyPattern (some text)
          | some position =>
              position < text.length ∧ (d.groups (text.take position)).escaped = false ∧
              Fault.placed misread.kind (some position) (some text) =
                .ok (misread.fault text) := by
  rw [readStack_eq]
  constructor
  · rw [← read_eq_emptyPattern_iff (d := d)]
    cases (d.read text).outcome with
    | ok tree => simp
    | error misread =>
        simp only [Outcome.mapError_error, Except.error.injEq]
        exact StackReader.report_eq_emptyPattern_iff
  · cases read : (d.read text).outcome with
    | ok tree => rfl
    | error misread =>
        have blames := blames_of_read read
        refine ⟨rfl, rfl, blames, ?_⟩
        cases at_position : misread.position? with
        | none =>
            obtain rfl := Misread.position?_eq_none_iff.mp at_position
            rfl
        | some position =>
            obtain ⟨inside, plain⟩ := blames.plain_at at_position
            exact ⟨inside, plain, Misread.placed_misread at_position inside⟩

end PatternMachine
