import Mathlib.Data.List.TakeDrop
import PatternMachine.CommandLine.Invocation
import PatternMachine.Proofs.Outcome

/-!
# Arguments that fit

Arguments fit if they are operands and requests for a log, up to a double dash behind which
everything is an operand. Sorting finds these operands and requests and refuses or adds something
else otherwise (`fits_iff_sort_eq`), so the arguments that ask for a choice or a dump are known
(`ofArguments?_eq_choose_iff`, `ofArguments?_eq_dump_iff`). A request may be inserted at any place
in front of a double dash (`Fits.inserted`).
-/

namespace PatternMachine.CommandLine

/--
Whether arguments have the given operands and ask for a log the given number of times. The short
request may be repeated behind its dash, and the long one may be cut short.
-/
inductive Fits : List Text → List Text → Nat → Prop where
  | nil : Fits [] [] 0
  | dashes (arguments : List Text) : Fits (['-', '-'] :: arguments) (['-', '-'] :: arguments) 0
  | operand {argument : Text} {arguments given : List Text} {requests : Nat}
      (plain : argument.head? ≠ some '-' ∨ argument = ['-'])
      (behind : Fits arguments given requests) :
      Fits (argument :: arguments) (argument :: given) requests
  | short {arguments given : List Text} {requests : Nat}
      (more : Nat) (behind : Fits arguments given requests) :
      Fits (('-' :: 'v' :: List.replicate more 'v') :: arguments) given (more + 1 + requests)
  | long {argument : Text} {arguments given : List Text} {requests : Nat}
      (begins : "--v".toList <+: argument) (cut : argument <+: "--verbose".toList)
      (behind : Fits arguments given requests) :
      Fits (argument :: arguments) given (1 + requests)

/-! ## What arguments mean -/

section

variable {known : List Flag} {argument : Text} {arguments given : List Text} {requests : Nat}

theorem sort_operand (plain : argument.head? ≠ some '-' ∨ argument = ['-']) :
    sort known (argument :: arguments) = (sort known arguments).map (.operand argument :: ·) := by
  have single (name : Text) : argument ≠ '-' :: '-' :: name := by
    rintro rfl
    simp at plain
  rcases plain with other | rfl
  · have not_dash (names : Text) : argument ≠ '-' :: names := by
      rintro rfl
      simp at other
    rw [sort]
    · cases sort known arguments <;> rfl
    all_goals simp [single, not_dash]
  · rw [sort]
    cases sort known arguments <;> rfl

theorem sort_short {c : Char} (single : c ≠ '-') (names : Text) :
    sort known (('-' :: c :: names) :: arguments) =
      (sort known arguments).map
        ((c :: names).map (fun name => .flag (shortFlag known name)) ++ ·) := by
  rw [sort]
  · cases sort known arguments <;> rfl
  all_goals simp [single]

theorem sort_long {c : Char} {name : Text} {flag : Flag} (member : flag ∈ known)
    (found : longFlag? known ('-' :: '-' :: c :: name) = .ok (flag, false)) :
    sort known (('-' :: '-' :: c :: name) :: arguments) =
      (sort known arguments).map (.flag flag :: ·) := by
  rw [sort, found]
  · simp only [Outcome.ok_bind, if_pos member, Bool.false_eq_true, if_false]
    cases sort known arguments <;> rfl
  · simp

theorem exists_flag_of_sort_long {c : Char} {name : Text} {words : List Word}
    (sorted : sort known (('-' :: '-' :: c :: name) :: arguments) = .ok words) :
    ∃ flag valueBehind others,
      longFlag? known ('-' :: '-' :: c :: name) = .ok (flag, valueBehind) ∧
        words = .flag flag :: others := by
  rw [sort] at sorted
  · obtain ⟨⟨flag, valueBehind⟩, found, sorted⟩ := Outcome.bind_eq_ok_iff.mp sorted
    dsimp only at sorted
    have made :
        ∃ others, (pure (.flag flag :: others) : Except Misuse (List Word)) = .ok words := by
      split at sorted
      · cases arguments with
        | nil => cases sorted
        | cons value arguments =>
            obtain ⟨others, _, made⟩ := Outcome.bind_eq_ok_iff.mp sorted
            exact ⟨others, made⟩
      · obtain ⟨others, _, made⟩ := Outcome.bind_eq_ok_iff.mp sorted
        exact ⟨others, made⟩
    obtain ⟨others, made⟩ := made
    exact ⟨flag, valueBehind, others, found, (Except.ok.inj made).symm⟩
  · simp

theorem eq_of_splitValue {name : Text} (whole : splitValue argument = (name, none)) :
    argument = name := by
  unfold splitValue at whole
  rw [List.span_eq_takeWhile_dropWhile] at whole
  split at whole
  · next name' cut =>
      have parts := List.takeWhile_append_dropWhile (p := (· ≠ '=')) (l := argument)
      obtain ⟨rfl, nothing⟩ := Prod.mk.inj cut
      rw [nothing, List.append_nil] at parts
      exact parts.symm.trans (Prod.mk.inj whole).1
  · cases whole

theorem longBegins_of_mem_candidates {name : Text} {flag : Flag}
    (member : flag ∈ candidates known name) :
    flag.longBegins name = true := by
  unfold candidates at member
  split at member
  · exact (List.mem_filter.mp member).2
  · next exact =>
      have named := (List.mem_filter.mp member).2
      simp_all [Flag.longBegins]

/-- A long name asks for a log if it is cut short behind its first letter. -/
theorem longFlag?_all_of_cut
    (begins : "--v".toList <+: argument) (cut : argument <+: "--verbose".toList) :
    longFlag? Flag.all argument = .ok (.verbose, false) := by
  have each : ∀ n < 10, 3 ≤ n →
      longFlag? Flag.all ("--verbose".toList.take n) = .ok (.verbose, false) := by
    decide
  rw [List.prefix_iff_eq_take.mp cut]
  exact each _ (Nat.lt_succ_of_le cut.length_le) begins.length_le

theorem cut_of_longFlag?_all
    {valueBehind : Bool} (found : longFlag? Flag.all argument = .ok (.verbose, valueBehind)) :
    argument <+: "--verbose".toList := by
  rcases whole : splitValue argument with ⟨name, value⟩
  rw [longFlag?, whole] at found
  dsimp only at found
  split at found
  · cases (Prod.mk.inj (Except.ok.inj found)).1
  · next flag only =>
      have candidate : flag ∈ candidates Flag.all name := only ▸ List.mem_singleton_self flag
      split at found
      · next taken =>
          obtain rfl := (Prod.mk.inj (Except.ok.inj found)).1
          cases taken
      · split at found
        · cases found
        · next no_value =>
            obtain rfl := (Prod.mk.inj (Except.ok.inj found)).1
            obtain rfl := Option.not_isSome_iff_eq_none.mp no_value
            rw [eq_of_splitValue whole]
            exact List.isPrefixOf_iff_prefix.mp (longBegins_of_mem_candidates candidate)
  · cases found

theorem shortFlag_all_eq_verbose_iff {name : Char} :
    shortFlag Flag.all name = .verbose ↔ name = 'v' := by
  constructor
  · intro meant
    by_cases asks : name = 'v'
    · exact asks
    · by_cases helps : name = 'h'
      · subst helps
        cases meant
      · simp [shortFlag, Flag.all, Flag.help, Flag.verbose, asks, helps, eq_comm] at meant
  · rintro rfl
    rfl

end

/-! ## Fitting and sorting -/

section

variable {word : Word} {words others : List Word} {text : Text} {flag : Flag}

@[simp]
theorem operands_operand : operands (.operand text :: words) = text :: operands words := rfl

@[simp]
theorem operands_flag : operands (.flag flag :: words) = operands words := rfl

@[simp]
theorem flags_operand : flags (.operand text :: words) = flags words := rfl

@[simp]
theorem flags_flag : flags (.flag flag :: words) = flag :: flags words := rfl

@[simp]
theorem operands_append : operands (words ++ others) = operands words ++ operands others :=
  List.filterMap_append

@[simp]
theorem flags_append : flags (words ++ others) = flags words ++ flags others :=
  List.filterMap_append

@[simp]
theorem operands_map_operand (texts : List Text) : operands (texts.map .operand) = texts := by
  induction texts with
  | nil => rfl
  | cons text texts ih => rw [List.map_cons, operands_operand, ih]

@[simp]
theorem flags_map_operand (texts : List Text) : flags (texts.map .operand) = [] := by
  induction texts with
  | nil => rfl
  | cons text texts ih => rw [List.map_cons, flags_operand, ih]

@[simp]
theorem operands_map_flag (names : Text) (meaning : Char → Flag) :
    operands (names.map fun name => .flag (meaning name)) = [] := by
  induction names with
  | nil => rfl
  | cons name names ih => rw [List.map_cons, operands_flag, ih]

@[simp]
theorem flags_map_flag (names : Text) (meaning : Char → Flag) :
    flags (names.map fun name => .flag (meaning name)) = names.map meaning := by
  induction names with
  | nil => rfl
  | cons name names ih => rw [List.map_cons, flags_flag, ih, List.map_cons]

end

section

variable {arguments given : List Text} {requests : Nat}

/-- How an argument begins decides what it may be. -/
theorem argument_cases (argument : Text) :
    argument = ['-', '-'] ∨ (argument.head? ≠ some '-' ∨ argument = ['-']) ∨
      (∃ c names, c ≠ '-' ∧ argument = '-' :: c :: names) ∨
      ∃ c name, argument = '-' :: '-' :: c :: name := by
  rcases argument with _ | ⟨first, _ | ⟨second, rest⟩⟩
  · exact .inr (.inl (.inl (by simp)))
  · by_cases dash : first = '-'
    · exact .inr (.inl (.inr (by rw [dash])))
    · exact .inr (.inl (.inl (by simpa using dash)))
  · by_cases dash : first = '-'
    · subst dash
      by_cases double : second = '-'
      · subst double
        rcases rest with _ | ⟨c, name⟩
        · exact .inl rfl
        · exact .inr (.inr (.inr ⟨c, name, rfl⟩))
      · exact .inr (.inr (.inl ⟨second, rest, double, rfl⟩))
    · exact .inr (.inl (.inl (by simpa using dash)))

theorem Fits.exists_words (fits : Fits arguments given requests) :
    ∃ words, sort Flag.all arguments = .ok words ∧ operands words = given ∧
      flags words = List.replicate requests .verbose := by
  induction fits with
  | nil => exact ⟨[], rfl, rfl, rfl⟩
  | dashes arguments => exact ⟨_, rfl, operands_map_operand _, flags_map_operand _⟩
  | @operand argument arguments given requests plain behind ih =>
      obtain ⟨words, sorted, given_eq, flags_eq⟩ := ih
      exact ⟨.operand argument :: words, by rw [sort_operand plain, sorted]; rfl,
        by rw [operands_operand, given_eq], by rw [flags_operand, flags_eq]⟩
  | @short arguments given requests more behind ih =>
      obtain ⟨words, sorted, given_eq, flags_eq⟩ := ih
      have meant : shortFlag Flag.all 'v' = .verbose := rfl
      refine ⟨_, by rw [sort_short (by decide), sorted, Outcome.map_ok], ?_, ?_⟩
      · rw [operands_append, operands_map_flag, List.nil_append, given_eq]
      · rw [flags_append, flags_map_flag, flags_eq, ← List.replicate_succ, List.map_replicate,
          meant, List.replicate_append_replicate]
  | @long argument arguments given requests begins cut behind ih =>
      obtain ⟨words, sorted, given_eq, flags_eq⟩ := ih
      have found := longFlag?_all_of_cut begins cut
      obtain ⟨name, rfl⟩ := begins
      refine ⟨.flag .verbose :: words, ?_, given_eq, ?_⟩
      · have known : Flag.verbose ∈ Flag.all := by decide
        exact (sort_long known found).trans (by rw [sorted]; rfl)
      · rw [flags_flag, flags_eq, Nat.add_comm, List.replicate_succ]

theorem fits_of_sort {words : List Word} (sorted : sort Flag.all arguments = .ok words)
    (flags_eq : flags words = List.replicate requests .verbose) :
    Fits arguments (operands words) requests := by
  induction arguments generalizing words requests with
  | nil =>
      cases sorted
      obtain rfl : requests = 0 := by simpa [flags] using flags_eq.symm
      exact .nil
  | cons argument arguments ih =>
      rcases argument_cases argument with rfl | plain | ⟨c, names, single, rfl⟩ | ⟨c, name, rfl⟩
      · cases sorted
        rw [flags_map_operand] at flags_eq
        obtain rfl : requests = 0 := by simpa using flags_eq.symm
        rw [operands_map_operand]
        exact .dashes arguments
      · rw [sort_operand plain] at sorted
        obtain ⟨others, others_sorted, rfl⟩ := Outcome.map_eq_ok_iff.mp sorted
        exact .operand plain (ih others_sorted flags_eq)
      · rw [sort_short single] at sorted
        obtain ⟨others, others_sorted, rfl⟩ := Outcome.map_eq_ok_iff.mp sorted
        rw [flags_append, flags_map_flag, List.append_eq_replicate_iff] at flags_eq
        obtain ⟨count, names_eq, others_eq⟩ := flags_eq
        have each : ∀ name ∈ c :: names, name = 'v' := fun name member =>
          shortFlag_all_eq_verbose_iff.mp
            (List.eq_of_mem_replicate (names_eq ▸ List.mem_map_of_mem member))
        obtain rfl : c = 'v' := each c List.mem_cons_self
        obtain ⟨more, rfl⟩ : ∃ more, names = List.replicate more 'v' :=
          ⟨_, List.eq_replicate_of_mem fun name member => each name (List.mem_cons_of_mem _ member)⟩
        rw [List.length_map, List.length_cons, List.length_replicate] at count
        rw [operands_append, operands_map_flag, List.nil_append, ← count]
        exact .short more (ih others_sorted others_eq)
      · obtain ⟨flag, valueBehind, others, found, rfl⟩ := exists_flag_of_sort_long sorted
        cases requests with
        | zero => cases flags_eq
        | succ requests =>
            obtain ⟨rfl, others_eq⟩ := List.cons.inj flags_eq
            -- behind two dashes and a letter, only what begins like the long request means it
            have cut := cut_of_longFlag?_all found
            have letter := cut
            simp only [String.reduceToList, List.cons_prefix_cons, true_and] at letter
            obtain rfl := letter.1
            have begins : "--v".toList <+: '-' :: '-' :: 'v' :: name := ⟨name, rfl⟩
            have known : Flag.verbose ∈ Flag.all := by decide
            rw [sort_long known (longFlag?_all_of_cut begins cut)] at sorted
            obtain ⟨_, others_sorted, words_eq⟩ := Outcome.map_eq_ok_iff.mp sorted
            obtain rfl := (List.cons.inj words_eq).2
            rw [operands_flag, Nat.add_comm]
            exact .long begins cut (ih others_sorted others_eq)

/-- Sorting finds the operands and the requests of the arguments that fit, and of no others. -/
theorem fits_iff_sort_eq :
    Fits arguments given requests ↔
      ∃ words, sort Flag.all arguments = .ok words ∧ operands words = given ∧
        flags words = List.replicate requests .verbose := by
  constructor
  · exact Fits.exists_words
  · rintro ⟨words, sorted, rfl, flags_eq⟩
    exact fits_of_sort sorted flags_eq

/-- A request for a log may be inserted in front of any argument before a double dash. -/
theorem Fits.inserted
    {front back : List Text} {request : Text}
    (asks : request = "-v".toList ∨ request = "--verbose".toList) (before : ['-', '-'] ∉ front)
    (fits : Fits (front ++ back) given requests) :
    Fits (front ++ request :: back) given (1 + requests) := by
  induction front generalizing given requests with
  | nil =>
      rcases asks with rfl | rfl
      · exact .short 0 fits
      · exact .long (by decide) List.prefix_rfl fits
  | cons argument front ih =>
      rw [List.mem_cons, not_or] at before
      cases fits with
      | dashes => exact absurd rfl before.1
      | operand plain behind => exact .operand plain (ih before.2 behind)
      | @short _ _ requests more behind =>
          rw [Nat.add_left_comm]
          exact .short more (ih before.2 behind)
      | long begins cut behind => exact .long begins cut (ih before.2 behind)

end

/-! ## What arguments that fit ask for -/

section

variable {arguments : List Text} {verbose : Bool} {pattern : Text} {texts : List Text}

theorem verbosity?_eq_some_iff {requested : List Flag} :
    Invocation.verbosity? requested = some verbose ↔
      requested = List.replicate verbose.toNat .verbose := by
  match requested with
  | [] => cases verbose <;> simp [Invocation.verbosity?]
  | [flag] => cases verbose <;> simp [Invocation.verbosity?]
  | _ :: _ :: _ => cases verbose <;> simp [Invocation.verbosity?]

theorem ofWords?_eq_choose_iff {given : List Text} {requested : List Flag} :
    Invocation.ofWords? given requested = some (.choose verbose pattern texts) ↔
      given = "match".toList :: pattern :: texts ∧ texts ≠ [] ∧
        requested = List.replicate verbose.toNat .verbose := by
  rw [← verbosity?_eq_some_iff]
  constructor
  · intro asked
    rcases given with _ | ⟨command, arguments⟩
    · cases asked
    · simp only [Invocation.ofWords?] at asked
      split at asked
      · next matching =>
          split at asked
          · next found =>
              cases asked
              exact ⟨by rw [matching], by simp, found⟩
          · cases asked
      · split at asked <;> split at asked <;> cases asked
  · rintro ⟨rfl, nonempty, found⟩
    obtain ⟨text, texts, rfl⟩ := List.exists_cons_of_ne_nil nonempty
    simp [Invocation.ofWords?, found]

theorem ofWords?_eq_dump_iff {given : List Text} {requested : List Flag} :
    Invocation.ofWords? given requested = some (.dump verbose pattern) ↔
      given = ["dump".toList, pattern] ∧ requested = List.replicate verbose.toNat .verbose := by
  rw [← verbosity?_eq_some_iff]
  constructor
  · intro asked
    rcases given with _ | ⟨command, arguments⟩
    · cases asked
    · simp only [Invocation.ofWords?] at asked
      split at asked
      · split at asked <;> cases asked
      · split at asked
        · next dumping =>
            split at asked
            · next found =>
                cases asked
                exact ⟨by rw [dumping], found⟩
            · cases asked
        · split at asked <;> cases asked
  · rintro ⟨rfl, found⟩
    simp [Invocation.ofWords?, found]

theorem ofArguments?_eq_ok_iff {invocation : Invocation} (other : invocation ≠ .help) :
    Invocation.ofArguments? arguments = .ok invocation ↔
      ∃ words, sort Flag.all arguments = .ok words ∧ .help ∉ flags words ∧
        Invocation.ofWords? (operands words) (flags words) = some invocation := by
  constructor
  · intro asked
    obtain ⟨words, sorted, concluded⟩ := Outcome.bind_eq_ok_iff.mp asked
    refine ⟨words, sorted, ?_⟩
    split at concluded
    · exact absurd (Except.ok.inj concluded).symm other
    · next silent =>
        split at concluded
        · next found => exact ⟨silent, found.trans (congrArg some (Except.ok.inj concluded))⟩
        · cases concluded
  · rintro ⟨words, sorted, silent, found⟩
    refine Outcome.bind_eq_ok_iff.mpr ⟨words, sorted, ?_⟩
    rw [if_neg silent, found]
    rfl

theorem help_not_mem_replicate (requests : Nat) :
    Flag.help ∉ List.replicate requests .verbose := by
  intro member
  cases List.eq_of_mem_replicate member

/-- A choice is asked for by its name, a pattern and at least one text, with at most one request. -/
theorem ofArguments?_eq_choose_iff :
    Invocation.ofArguments? arguments = .ok (.choose verbose pattern texts) ↔
      texts ≠ [] ∧ Fits arguments ("match".toList :: pattern :: texts) verbose.toNat := by
  rw [ofArguments?_eq_ok_iff (by simp), fits_iff_sort_eq]
  constructor
  · rintro ⟨words, sorted, _, asked⟩
    obtain ⟨given_eq, nonempty, flags_eq⟩ := ofWords?_eq_choose_iff.mp asked
    exact ⟨nonempty, words, sorted, given_eq, flags_eq⟩
  · rintro ⟨nonempty, words, sorted, given_eq, flags_eq⟩
    exact ⟨words, sorted, flags_eq ▸ help_not_mem_replicate _,
      ofWords?_eq_choose_iff.mpr ⟨given_eq, nonempty, flags_eq⟩⟩

theorem ofArguments?_eq_dump_iff :
    Invocation.ofArguments? arguments = .ok (.dump verbose pattern) ↔
      Fits arguments ["dump".toList, pattern] verbose.toNat := by
  rw [ofArguments?_eq_ok_iff (by simp), fits_iff_sort_eq]
  constructor
  · rintro ⟨words, sorted, _, asked⟩
    obtain ⟨given_eq, flags_eq⟩ := ofWords?_eq_dump_iff.mp asked
    exact ⟨words, sorted, given_eq, flags_eq⟩
  · rintro ⟨words, sorted, given_eq, flags_eq⟩
    exact ⟨words, sorted, flags_eq ▸ help_not_mem_replicate _,
      ofWords?_eq_dump_iff.mpr ⟨given_eq, flags_eq⟩⟩

end

end PatternMachine.CommandLine
