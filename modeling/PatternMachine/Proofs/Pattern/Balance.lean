import Mathlib.Data.List.Basic
import PatternMachine.Proofs.Pattern.Blame

/-!
# Captured texts are balanced

A group that a scan captures stands in the text as it is, between the character that begins it and
the one that ends it. In the captured text the groups that begin and end belong together, and no
escape is left at its end (`captured_of_mem_fragments`). So reading it blames neither an unmatched
parenthesis nor a dangling escape. Roles in a text that is put together from parts are those of the
parts, as long as the first part escapes nothing behind it (`roleAt_append_iff`).
-/

namespace PatternMachine.Dialect

variable {d : Dialect} {text before inner rest : Text} {position opening : Nat} {role : Role}
  {c : Char}

/-! ## Roles in joined texts -/

/-- Behind characters that leave no escape, a text escapes what it does on its own. -/
theorem escaped_groups_append (plain : (d.groups before).escaped = false) (text : Text) :
    (d.groups (before ++ text)).escaped = (d.groups text).escaped := by
  induction text using List.reverseRecOn with
  | nil =>
      rw [List.append_nil, plain]
      rfl
  | append_singleton text c ih =>
      rw [← List.append_assoc, groups_append, groups_append d text]
      simp [Groups.step, ih]

theorem roleAt_append_iff_of_lt (inside : position < before.length) :
    d.RoleAt (before ++ rest) position role ↔ d.RoleAt before position role := by
  refine ⟨fun stands => ⟨?_, ?_⟩, fun stands => stands.append rest⟩
  · exact (List.getElem?_append_left inside).symm.trans stands.found
  · rw [← List.take_append_of_le_length (Nat.le_of_lt inside)]
    exact stands.plain

/-- Behind characters that leave no escape, a text has the roles that it has on its own. -/
theorem roleAt_append_iff (plain : (d.groups before).escaped = false) :
    d.RoleAt (before ++ rest) (before.length + position) role ↔ d.RoleAt rest position role := by
  have found_eq : (before ++ rest)[before.length + position]? = rest[position]? := by
    rw [List.getElem?_append_right (Nat.le_add_right _ _), Nat.add_sub_cancel_left]
  have escaped_eq : (d.groups ((before ++ rest).take (before.length + position))).escaped =
      (d.groups (rest.take position)).escaped := by
    rw [List.take_length_add_append]
    exact escaped_groups_append plain _
  constructor
  · rintro ⟨found, plain_at⟩
    exact ⟨found_eq ▸ found, escaped_eq ▸ plain_at⟩
  · rintro ⟨found, plain_at⟩
    exact ⟨found_eq.trans found, escaped_eq.trans plain_at⟩

theorem roleAt_length_iff :
    d.RoleAt (before ++ c :: rest) before.length role ↔
      (d.groups before).escaped = false ∧ d.role? c = some role := by
  refine ⟨fun stands => ⟨?_, ?_⟩, fun ⟨plain, found⟩ => .of_role? plain found rest⟩
  · have plain := stands.plain
    rwa [List.take_left' rfl] at plain
  · rw [role?_eq_some_iff]
    simpa using stands.found.symm

theorem RoleAt.cut (stands : d.RoleAt text position role) :
    text = text.take position ++ d.symbol role :: text.drop (position + 1) := by
  have found := (List.getElem?_eq_some_iff.mp stands.found).2
  rw [← found, ← List.drop_eq_getElem_cons stands.lt_length, List.take_append_drop]

instance : Decidable (d.RoleAt text position role) :=
  decidable_of_iff
    (text[position]? = some (d.symbol role) ∧ (d.groups (text.take position)).escaped = false)
    ⟨fun ⟨found, plain⟩ => ⟨found, plain⟩, fun ⟨found, plain⟩ => ⟨found, plain⟩⟩

/-- Where groups begin in a text, in increasing order. -/
def groupBegins (d : Dialect) (text : Text) : List Nat :=
  (List.range text.length).filter (d.RoleAt text · .groupBegin)

theorem filter_range_append (before rest : Text) :
    (List.range before.length).filter (d.RoleAt (before ++ rest) · .groupBegin) =
      d.groupBegins before := by
  refine List.filter_congr fun position inside => ?_
  rw [decide_eq_decide, roleAt_append_iff_of_lt (List.mem_range.mp inside)]

theorem groupBegins_append (plain : (d.groups before).escaped = false) (rest : Text) :
    d.groupBegins (before ++ rest) =
      d.groupBegins before ++ (d.groupBegins rest).map (before.length + ·) := by
  rw [groupBegins, List.length_append, List.range_add, List.filter_append, filter_range_append,
    List.filter_map]
  congr 2
  refine List.filter_congr fun position _ => ?_
  rw [Function.comp_apply, decide_eq_decide, roleAt_append_iff plain]

theorem groupBegins_concat (other : ¬ d.RoleAt (text ++ [c]) text.length .groupBegin) :
    d.groupBegins (text ++ [c]) = d.groupBegins text := by
  rw [groupBegins, List.length_append, List.length_singleton, List.range_succ, List.filter_append,
    filter_range_append, List.filter_singleton]
  simp [other]

/-- Where groups begin in front of a group, at it and inside of it. -/
theorem groupBegins_enclosed
    (plain : (d.groups before).escaped = false) (other : d.role? c ≠ some .groupBegin) :
    d.groupBegins (before ++ d.symbol .groupBegin :: inner ++ [c]) =
      d.groupBegins before ++
        before.length :: (d.groupBegins inner).map (before.length + 1 + ·) := by
  have begin_plain : (d.groups [d.symbol .groupBegin]).escaped = false := by
    simp [groups, Groups.step, Groups.start]
  have begin_eq : d.groupBegins [d.symbol .groupBegin] = [0] := by
    have stands : d.RoleAt [d.symbol .groupBegin] 0 .groupBegin := ⟨rfl, rfl⟩
    simp [groupBegins, List.range_succ, stands]
  have inner_eq : d.groupBegins (inner ++ [c]) = d.groupBegins inner :=
    groupBegins_concat fun stands => other (roleAt_length_iff.mp stands).2
  rw [List.append_assoc, groupBegins_append plain, List.cons_append, ← List.singleton_append,
    groupBegins_append begin_plain, begin_eq, inner_eq]
  simp [Function.comp_def, Nat.add_assoc]

/-! ## Balanced texts -/

/-- Whether the characters that begin and end groups in a text belong together in pairs. -/
structure Balanced (d : Dialect) (text : Text) : Prop where
  ends_open : ∀ position, d.RoleAt text position .groupEnd → d.unclosed (text.take position) ≠ []
  closed : d.unclosed text = []

theorem balanced_of_outside
    (sound : (d.scan text).stray = none) (outside : (d.scan text).openings = []) :
    d.Balanced text where
  ends_open position ends unclosed := by
    rw [ends.cut, ← List.singleton_append, ← List.append_assoc] at sound
    have sound_end := stray_scan_of_append sound
    have earlier := stray_scan_of_concat sound_end
    refine openings_of_closing sound_end ⟨?_, role?_symbol d .groupEnd⟩ ?_
    · exact (escaped_scan earlier).trans ends.plain
    · exact (openings_scan earlier).trans unclosed
  closed := (openings_scan sound).symm.trans outside

theorem Balanced.outcome_read_ne_unmatched (balanced : d.Balanced text) (position : Nat) :
    (d.read text).outcome ≠ .error (.unmatchedParenthesis position) := by
  intro failed
  rcases blames_of_read failed with ⟨ends, unclosed⟩ | ⟨_, innermost⟩
  · exact balanced.ends_open position ends unclosed
  · rw [balanced.closed] at innermost
    cases innermost

theorem outcome_read_ne_dangling (plain : (d.groups text).escaped = false) (position : Nat) :
    (d.read text).outcome ≠ .error (.danglingEscape position) := by
  intro failed
  obtain ⟨escape, last⟩ := blames_of_read failed
  rw [escape.cut, last, List.drop_length, groups_append] at plain
  simp [Groups.step, escape.plain] at plain

/-! ## Captured groups -/

/--
Whether a text holds a group whose begin stands at a position: what is in the group stands there as
it is, is balanced and leaves no escape at its end, and the character behind it ends this group.
-/
structure Captured (d : Dialect) (text : Text) (opening : Nat) (inner : Text) : Prop where
  verbatim : (text.drop (opening + 1)).take inner.length = inner
  begins : d.RoleAt text opening .groupBegin
  ends : d.RoleAt text (opening + 1 + inner.length) .groupEnd
  matching : d.unclosed (text.take (opening + 1 + inner.length)) = [opening]
  balanced : d.Balanced inner
  plain : (d.groups inner).escaped = false

theorem Captured.length_add_two_le (captured : d.Captured text opening inner) :
    inner.length + 2 ≤ text.length := by
  have inside := captured.ends.lt_length
  omega

/-- A group that is closed behind a text of its own is captured in every longer text. -/
theorem captured_of_enclosed
    (top : (d.scan before).Top) (sound : (d.scan inner).stray = none)
    (closing : Scan.Closing d (d.scan inner) c) (outermost : (d.scan inner).openings = [])
    (rest : Text) :
    d.Captured (before ++ d.symbol .groupBegin :: inner ++ c :: rest) before.length inner := by
  have enclosed := scan_enclosed top sound
  have still_sound : (d.scan (before ++ d.symbol .groupBegin :: inner)).stray = none := by
    rw [enclosed]
    rfl
  have length_eq : (before ++ d.symbol .groupBegin :: inner).length =
      before.length + 1 + inner.length := by
    simp only [List.length_append, List.length_cons]
    omega
  refine ⟨?_, ?_, ?_, ?_, balanced_of_outside sound outermost, ?_⟩
  · simp
  · rw [List.append_assoc]
    exact .of_role? (plain_of_top top) (role?_symbol d .groupBegin) _
  · rw [← length_eq]
    refine .of_role? ?_ closing.2 rest
    rw [← escaped_scan still_sound, enclosed]
    exact closing.1
  · rw [List.take_left' length_eq, ← openings_scan still_sound, enclosed]
    simp [outermost, position_scan top.stray]
  · exact (escaped_scan sound).symm.trans closing.1

theorem exists_enclosed_of_mem_fragments
    (member : .group opening inner ∈ (d.scan text).fragments) :
    ∃ before c rest, text = before ++ d.symbol .groupBegin :: inner ++ c :: rest ∧
      before.length = opening ∧ (d.scan before).Top ∧ (d.scan inner).stray = none ∧
      Scan.Closing d (d.scan inner) c ∧ (d.scan inner).openings = [] := by
  induction text using List.reverseRecOn with
  | nil => cases member
  | append_singleton text c ih =>
      by_cases earlier : .group opening inner ∈ (d.scan text).fragments
      · obtain ⟨before, c', rest, rfl, enclosed⟩ := ih earlier
        exact ⟨before, c', rest ++ [c], by simp, enclosed⟩
      rw [scan_append] at member
      by_cases sound : (d.scan text).stray = none
      · -- The last character completes the group, so that it closes the outermost one.
        have taken := member
        rw [Scan.step_of_stray_none sound] at taken
        have inside : (d.scan text).openings ≠ [] := by
          intro outside
          obtain ⟨more, fragments_eq, no_group⟩ :=
            Scan.exists_fragments_take_of_outside (d := d) (c := c) outside
          rw [fragments_eq] at taken
          cases no_group _ ((List.mem_append.mp taken).resolve_left earlier)
        have closed : ((d.scan text).take d c).openings = [] := by
          by_contra stays
          exact earlier (Scan.fragments_take_of_openings inside stays ▸ taken)
        obtain ⟨before, captured, rfl, top, inner_sound, closing, outermost⟩ :=
          exists_closed inside (by rw [Scan.step_of_stray_none sound]; exact closed)
        rw [scan_enclosed top inner_sound,
          Scan.step_enclosing_of_closing _ _ closing outermost] at member
        rw [scan_enclosed top inner_sound] at earlier
        cases List.mem_singleton.mp ((List.mem_append.mp member).resolve_left earlier)
        exact ⟨before, c, [], rfl, (position_scan top.stray).symm, top, inner_sound, closing,
          outermost⟩
      · rw [Scan.step_of_stray sound] at member
        exact absurd member earlier

theorem captured_of_mem_fragments (member : .group opening inner ∈ (d.scan text).fragments) :
    d.Captured text opening inner := by
  obtain ⟨before, c, rest, rfl, rfl, top, sound, closing, outermost⟩ :=
    exists_enclosed_of_mem_fragments member
  exact captured_of_enclosed top sound closing outermost rest

end PatternMachine.Dialect
