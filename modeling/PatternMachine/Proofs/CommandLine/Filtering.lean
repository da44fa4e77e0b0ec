import PatternMachine.CommandLine.Outcome
import PatternMachine.Proofs.CommandLine.Fitting
import PatternMachine.Proofs.Composition

/-!
# The command line filters texts

A choice writes those of its texts that the pattern denotes, in their order, and its status tells
whether there is any; a pattern that is none is reported. A request for a log changes nothing but
the log (`Outcome.ofTraced_silent`), wherever it stands.
-/

namespace PatternMachine.CommandLine

open PatternMachine.Tree (Denotes)

/-- The outcome of what arguments ask for. -/
def answer (arguments : List Text) : Except Misuse Outcome :=
  (Invocation.ofArguments? arguments).map Invocation.outcome

variable {pattern : Text} {texts : List Text} {verbose : Bool}

/-! ## Reading and choosing -/

theorem outcome_filterM {ε α : Type} {test : α → Traced ε Bool} {decides : α → Bool}
    (each : ∀ entry, (test entry).outcome = .ok (decides entry)) (entries : List α) :
    (entries.filterM test).outcome = .ok (entries.filter decides) := by
  have collected (kept : List α) :
      (entries.filterAuxM test kept).outcome =
        .ok ((entries.filter decides).reverse ++ kept) := by
    induction entries generalizing kept with
    | nil => rfl
    | cons entry entries ih =>
        rw [List.filterAuxM, Traced.outcome_bind, each, Outcome.ok_bind, ih]
        cases decided : decides entry <;> simp [decided]
  rw [List.filterM, Traced.outcome_bind, collected, Outcome.ok_bind]
  simp

theorem outcome_readPattern_of_derivation {whole : Derivation .alternatives}
    (spelled : Dialect.standard.tokens? pattern = some whole.tokens) :
    (readPattern pattern).outcome = .ok whole.tree := by
  rw [outcome_readPattern,
    Dialect.outcome_read_eq_ok_iff_derives.mpr ⟨_, spelled, whole, rfl, rfl⟩, Outcome.mapError_ok]

theorem exists_fault_of_no_derivation
    (none : ¬ ∃ whole : Derivation .alternatives,
      Dialect.standard.tokens? pattern = some whole.tokens) :
    ∃ fault, (readPattern pattern).outcome = .error fault := by
  rw [outcome_readPattern]
  cases read : (Dialect.standard.read pattern).outcome with
  | error misread => exact ⟨_, rfl⟩
  | ok tree =>
      obtain ⟨_, spelled, whole, rfl, _⟩ := Dialect.outcome_read_eq_ok_iff_derives.mp read
      exact absurd ⟨whole, spelled⟩ none

theorem outcome_chosen_of_ok {tree : Expression} (read : (readPattern pattern).outcome = .ok tree)
    (texts : List Text) :
    (chosen pattern texts).outcome = .ok (texts.filter tree.program.accepts) := by
  simp only [chosen, compilePattern, Traced.outcome_bind, read, Outcome.ok_bind, outcome_compile]
  exact outcome_filterM (fun text => outcome_run tree.program text) texts

theorem outcome_chosen_of_error
    {fault : Fault} (read : (readPattern pattern).outcome = .error fault) (texts : List Text) :
    (chosen pattern texts).outcome = .error fault := by
  simp only [chosen, compilePattern, Traced.outcome_bind, read, Outcome.error_bind]

/-! ## Outcomes and their logs -/

namespace Outcome

variable {α : Type} {computation : Traced Fault α} {conclude : α → Nat × Text}

theorem ofTraced_of_ok {value : α} (completed : computation.outcome = .ok value) :
    ofTraced verbose computation conclude =
      ⟨(conclude value).1, (conclude value).2, [], if verbose then computation.events else []⟩ := by
  rw [ofTraced, completed]

theorem ofTraced_of_error {fault : Fault} (failed : computation.outcome = .error fault) :
    ofTraced verbose computation conclude =
      ⟨2, [], printed [fault.message], if verbose then computation.events else []⟩ := by
  rw [ofTraced, failed]

/-- A request for a log changes the log and nothing else; without it the log is empty. -/
theorem ofTraced_silent (computation : Traced Fault α) (conclude : α → Nat × Text) :
    (ofTraced false computation conclude).log = [] ∧
      ofTraced true computation conclude =
        { ofTraced false computation conclude with log := computation.events } := by
  cases concluded : computation.outcome with
  | ok value =>
      rw [ofTraced_of_ok concluded, ofTraced_of_ok concluded]
      exact ⟨rfl, rfl⟩
  | error fault =>
      rw [ofTraced_of_error concluded, ofTraced_of_error concluded]
      exact ⟨rfl, rfl⟩

end Outcome

/-! ## What is asked and what is answered -/

theorem outcome_choose_of_error
    {fault : Fault} (read : (readPattern pattern).outcome = .error fault)
    (verbose : Bool) (texts : List Text) :
    let outcome := (Invocation.choose verbose pattern texts).outcome
    outcome.status = 2 ∧ outcome.output = [] ∧ outcome.errors = fault.message ++ ['\n'] := by
  have failed := outcome_chosen_of_error read texts
  simp [Invocation.outcome, Outcome.ofTraced_of_error failed, printed]

/-- A choice writes the texts that its pattern denotes. -/
theorem outcome_choose_of_derivation {whole : Derivation .alternatives}
    (spelled : Dialect.standard.tokens? pattern = some whole.tokens)
    (verbose : Bool) (texts : List Text) :
    let outcome := (Invocation.choose verbose pattern texts).outcome
    ∃ matched : Text → Bool, (∀ text, matched text = true ↔ Denotes whole.tree text) ∧
      outcome.status = (if texts.any matched then 0 else 1) ∧
      outcome.output = (texts.filter matched).flatMap (· ++ ['\n']) ∧ outcome.errors = [] := by
  have canonical : whole.tree.Canonical := Derives.canonical ⟨whole, rfl, rfl⟩
  have completed := outcome_chosen_of_ok (outcome_readPattern_of_derivation spelled) texts
  refine ⟨whole.tree.program.accepts, fun text => ?_, ?_⟩
  · rw [Program.accepts_iff_admits, Tree.admits_program_iff canonical]
  · simp only [Invocation.outcome, Outcome.ofTraced_of_ok completed, printed, and_true]
    cases found : texts.any whole.tree.program.accepts with
    | true => simp_all
    | false => simp_all

theorem exists_outcome_and_log
    {α : Type} {computation : Traced Fault α} {conclude : α → Nat × Text}
    {arguments others : List Text} (ask : Bool → Invocation)
    (traced : ∀ verbose, (ask verbose).outcome = .ofTraced verbose computation conclude)
    (silent : Invocation.ofArguments? arguments = .ok (ask false))
    (logged : Invocation.ofArguments? others = .ok (ask true)) :
    ∃ outcome log, answer arguments = .ok outcome ∧ outcome.log = [] ∧
      answer others = .ok { outcome with log := log } := by
  obtain ⟨log_eq, same⟩ := Outcome.ofTraced_silent computation conclude
  refine ⟨_, computation.events, ?_, log_eq, ?_⟩
  · rw [answer, silent, Outcome.map_ok, traced]
  · rw [answer, logged, Outcome.map_ok, traced, same]

/--
Arguments that fit a choice are answered as follows. If the pattern has no derivation, its fault is
reported with status two and nothing is written. Otherwise the texts are written that the tree of
the derivation denotes, each with a line feed behind it, in order and as often as they are given,
and the status is zero if there is any and one if there is none. A request for a log that is added
to a choice or a dump anywhere in front of a double dash changes the log, which is empty without
it, and nothing else.
-/
theorem choice_filters_texts :
    (∀ arguments pattern texts (verbose : Bool), texts ≠ [] →
      Fits arguments ("match".toList :: pattern :: texts) verbose.toNat →
      ∃ outcome, answer arguments = .ok outcome ∧
        ((¬ ∃ whole : Derivation .alternatives,
            Dialect.standard.tokens? pattern = some whole.tokens) →
          ∃ fault, (readPattern pattern).outcome = .error fault ∧
            outcome.status = 2 ∧ outcome.output = [] ∧
            outcome.errors = fault.message ++ ['\n']) ∧
        ∀ whole : Derivation .alternatives,
          Dialect.standard.tokens? pattern = some whole.tokens →
          ∃ matched : Text → Bool, (∀ text, matched text = true ↔ Denotes whole.tree text) ∧
            outcome.status = (if texts.any matched then 0 else 1) ∧
            outcome.output = (texts.filter matched).flatMap (· ++ ['\n']) ∧
            outcome.errors = []) ∧
    ∀ front back request, request = "-v".toList ∨ request = "--verbose".toList →
      ['-', '-'] ∉ front →
      (∃ pattern texts, texts ≠ [] ∧
          Fits (front ++ back) ("match".toList :: pattern :: texts) 0) ∨
        (∃ pattern, Fits (front ++ back) ["dump".toList, pattern] 0) →
      ∃ outcome log, answer (front ++ back) = .ok outcome ∧ outcome.log = [] ∧
        answer (front ++ request :: back) = .ok { outcome with log := log } := by
  constructor
  · intro arguments pattern texts verbose nonempty fits
    have asked := ofArguments?_eq_choose_iff.mpr ⟨nonempty, fits⟩
    refine ⟨_, by rw [answer, asked, Outcome.map_ok], fun none => ?_, fun whole spelled => ?_⟩
    · obtain ⟨fault, read⟩ := exists_fault_of_no_derivation none
      exact ⟨fault, read, outcome_choose_of_error read verbose texts⟩
    · exact outcome_choose_of_derivation spelled verbose texts
  · rintro front back request asks before (⟨pattern, texts, nonempty, fits⟩ | ⟨pattern, fits⟩)
    · exact exists_outcome_and_log (fun verbose => .choose verbose pattern texts) (fun _ => rfl)
        (ofArguments?_eq_choose_iff.mpr ⟨nonempty, fits⟩)
        (ofArguments?_eq_choose_iff.mpr ⟨nonempty, fits.inserted asks before⟩)
    · exact exists_outcome_and_log (fun verbose => .dump verbose pattern) (fun _ => rfl)
        (ofArguments?_eq_dump_iff.mpr fits)
        (ofArguments?_eq_dump_iff.mpr (fits.inserted asks before))

/-- A text given twice is written twice, and a request may stand right before a double dash. -/
theorem choice_filters_repeated_text :
    (∃ outcome, answer (["match", "--verb", "a|b", "b", "ab", "b"].map String.toList) =
        .ok outcome ∧
      outcome.status = 0 ∧ outcome.output = "b\nb\n".toList ∧ outcome.errors = []) ∧
    (∃ outcome, answer (["match", "(", "b"].map String.toList) = .ok outcome ∧
      outcome.status = 2 ∧ outcome.output = []) ∧
    ∃ outcome log, answer (["match", "a", "--", "-v"].map String.toList) = .ok outcome ∧
      outcome.log = [] ∧
      answer (["match", "a", "-v", "--", "-v"].map String.toList) =
        .ok { outcome with log := log } := by
  obtain ⟨filters, silent⟩ := choice_filters_texts
  have plain {argument : Text} {arguments given : List Text} {requests : Nat}
      (other : argument.head? ≠ some '-') (behind : Fits arguments given requests) :
      Fits (argument :: arguments) (argument :: given) requests :=
    .operand (.inl other) behind
  refine ⟨?_, ?_, ?_⟩
  · let item (c : Char) : Derivation .branch := .lastItem (.quantified (.literal c) [])
    let whole : Derivation .alternatives := .branches (item 'a') (.lastBranch (item 'b'))
    have fits : Fits (["match", "--verb", "a|b", "b", "ab", "b"].map String.toList)
        ("match".toList :: "a|b".toList :: ["b", "ab", "b"].map String.toList) 1 :=
      plain (by decide) (.long (by decide) (by decide) (plain (by decide) (plain (by decide)
        (plain (by decide) (plain (by decide) .nil)))))
    have spelled : Dialect.standard.tokens? "a|b".toList = some whole.tokens := by cbv
    obtain ⟨outcome, answered, _, denoted⟩ := filters _ _ _ true (by simp) fits
    obtain ⟨matched, matched_iff, status_eq, output_eq, errors_eq⟩ := denoted whole spelled
    have one : matched ['b'] = true := (matched_iff _).mpr (.inr (.inl rfl))
    have other : matched ['a', 'b'] = false := by
      refine Bool.eq_false_iff.mpr fun both => ?_
      rcases (matched_iff _).mp both with first | second | none
      · cases first
      · cases second
      · exact none
    refine ⟨outcome, answered, ?_, ?_, errors_eq⟩
    · simpa [one] using status_eq
    · simpa [one, other] using output_eq
  · have fits : Fits (["match", "(", "b"].map String.toList)
        ("match".toList :: "(".toList :: ["b"].map String.toList) 0 :=
      plain (by decide) (plain (by decide) (plain (by decide) .nil))
    have misread : (Dialect.standard.read "(".toList).outcome.toOption = none := by cbv
    have none : ¬ ∃ whole : Derivation .alternatives,
        Dialect.standard.tokens? "(".toList = some whole.tokens := by
      rintro ⟨whole, spelled⟩
      rw [Dialect.outcome_read_eq_ok_iff_derives.mpr ⟨_, spelled, whole, rfl, rfl⟩] at misread
      cases misread
    obtain ⟨outcome, answered, refused, _⟩ := filters _ _ _ false (by simp) fits
    obtain ⟨_, _, status_eq, output_eq, _⟩ := refused none
    exact ⟨outcome, answered, status_eq, output_eq⟩
  · have fits : Fits (["match", "a", "--", "-v"].map String.toList)
        ("match".toList :: "a".toList :: ["--", "-v"].map String.toList) 0 :=
      plain (by decide) (plain (by decide) (.dashes _))
    exact silent (["match", "a"].map String.toList) (["--", "-v"].map String.toList) _ (.inl rfl)
      (by decide) (.inl ⟨_, _, by simp, fits⟩)

end PatternMachine.CommandLine
