import PatternMachine.Matching
import PatternMachine.Proofs.Expression.Execution
import PatternMachine.Proofs.Expression.Language
import PatternMachine.Proofs.Pattern.RoundTrip
import PatternMachine.Proofs.Program.Lockstep

/-!
# Composed patterns

A pattern that is composed of readable patterns is readable and matches what its parts match,
composed in the same way. The derivation of a composed pattern is put together from those of its
parts: a union lines up the branches on both of its sides, also if they are several, and a group
makes any pattern an item, behind which quantifiers may follow.
-/

namespace PatternMachine

open PatternMachine.Tree (language_concat language_choice)
open scoped Computability

namespace Derivation

def joined : Derivation .alternatives → Derivation .alternatives → Derivation .alternatives
  | .lastBranch branch, second => .branches branch second
  | .branches branch others, second => .branches branch (others.joined second)

theorem tokens_joined (first second : Derivation .alternatives) :
    (first.joined second).tokens = first.tokens ++ .union :: second.tokens := by
  fun_induction joined first second with
  | case1 second branch => rfl
  | case2 second branch others ih => simp [tokens, ih]

theorem trees_joined (first second : Derivation .alternatives) :
    (first.joined second).trees = first.trees ++ second.trees := by
  fun_induction joined first second with
  | case1 second branch => rfl
  | case2 second branch others ih => simp [trees, ih]

theorem language_tree_joined (first second : Derivation .alternatives) :
    (first.joined second).tree.language = first.tree.language + second.tree.language := by
  simp only [tree, language_choice, trees_joined, List.map_append, List.sum_append]

theorem language_tree_lastBranch (branch : Derivation .branch) :
    (lastBranch branch).tree.language = (branch.trees.map Tree.language).prod := by
  simp [tree, trees, language_choice, language_concat]

end Derivation

namespace Dialect

variable {d : Dialect} {pattern other : Text} {first second : Language Char}

/-- Whether a text is read to an expression that denotes the given language. -/
def Expresses (d : Dialect) (pattern : Text) (denoted : Language Char) : Prop :=
  ∃ tree, (d.read pattern).outcome = .ok tree ∧ tree.language = denoted

theorem expresses_iff_exists_derivation :
    d.Expresses pattern first ↔
      ∃ whole : Derivation .alternatives,
        d.Spells pattern whole.tokens ∧ whole.tree.language = first := by
  unfold Expresses
  constructor
  · rintro ⟨_, read, language_eq⟩
    obtain ⟨_, spelled, whole, rfl, rfl⟩ := outcome_read_eq_ok_iff_derives.mp read
    exact ⟨whole, spells_of_tokens? spelled, language_eq⟩
  · rintro ⟨whole, spells, language_eq⟩
    exact ⟨whole.tree,
      outcome_read_eq_ok_iff_derives.mpr ⟨_, spells.tokens?_eq, whole, rfl, rfl⟩, language_eq⟩

/-- A union expresses the sum of what its sides express. -/
theorem Expresses.union (left : d.Expresses pattern first) (right : d.Expresses other second) :
    d.Expresses (pattern ++ d.symbol .union :: other) (first + second) := by
  obtain ⟨front, left_spells, rfl⟩ := expresses_iff_exists_derivation.mp left
  obtain ⟨back, right_spells, rfl⟩ := expresses_iff_exists_derivation.mp right
  have united : d.Spells [d.symbol .union] [.union] := d.spells_symbol (by simp)
  refine expresses_iff_exists_derivation.mpr
    ⟨front.joined back, ?_, Derivation.language_tree_joined front back⟩
  rw [Derivation.tokens_joined]
  exact left_spells.append (united.append right_spells)

/-- Quantifiers behind a group act on what the group expresses, from the first to the last. -/
theorem Expresses.quantified
    (inner : d.Expresses pattern first) (quantifiers : List Quantifier) :
    d.Expresses (d.grouped pattern ++ quantifiers.map fun q => d.symbol (.quantifier q))
      (quantifiers.foldl (fun operand q => q.applied operand) first) := by
  obtain ⟨whole, spells, rfl⟩ := expresses_iff_exists_derivation.mp inner
  refine expresses_iff_exists_derivation.mpr
    ⟨.lastBranch (.lastItem (.quantified (.group whole) quantifiers)),
      spells.grouped.append (d.spells_quantifiers quantifiers), ?_⟩
  rw [Derivation.language_tree_lastBranch]
  simp only [Derivation.trees, List.map_cons, List.map_nil, List.prod_singleton,
    Tree.language_foldl_quantified, Derivation.tree]

theorem Expresses.grouped (inner : d.Expresses pattern first) :
    d.Expresses (d.grouped pattern) first := by
  simpa using inner.quantified []

theorem Expresses.grouped_append
    (left : d.Expresses pattern first) (right : d.Expresses other second) :
    d.Expresses (d.grouped pattern ++ d.grouped other) (first * second) := by
  obtain ⟨front, left_spells, rfl⟩ := expresses_iff_exists_derivation.mp left
  obtain ⟨back, right_spells, rfl⟩ := expresses_iff_exists_derivation.mp right
  let item (inner : Derivation .alternatives) : Derivation .item := .quantified (.group inner) []
  refine expresses_iff_exists_derivation.mpr
    ⟨.lastBranch (.items (item front) (.lastItem (item back))), ?_, ?_⟩
  · simpa [item, Derivation.tokens] using left_spells.grouped.append right_spells.grouped
  · rw [Derivation.language_tree_lastBranch]
    simp [item, Derivation.trees, Derivation.tree]

theorem expresses_escaped (d : Dialect) {text : Text} (nonempty : text ≠ []) :
    d.Expresses (text.flatMap d.escaped) {text} := by
  let literals : List Expression := text.map .literal
  have literals_nonempty : literals ≠ [] := by simpa [literals] using nonempty
  have each : ∀ item ∈ literals, Tree.WrittenAsItem d item := by
    intro item member
    obtain ⟨c, _, rfl⟩ := List.mem_map.mp member
    exact Tree.writtenAsItem_literal c
  obtain ⟨branch, spells, trees_eq⟩ := Tree.exists_branch_of_items literals_nonempty each
  refine expresses_iff_exists_derivation.mpr ⟨.lastBranch branch, ?_, ?_⟩
  · simpa [literals, List.flatMap_def, Function.comp_def, Tree.written, Derivation.tokens]
      using spells
  · rw [Derivation.language_tree_lastBranch, trees_eq, ← language_concat,
      Tree.language_concat_literals]

end Dialect

def matchedBy (pattern : Text) : Language Char :=
  {text | (matchPattern pattern text).outcome = .ok true}

/-- Whether matching a pattern fails with no text and tells the texts of a language from others. -/
def Recognizes (pattern : Text) (texts : Language Char) : Prop :=
  ∀ text, ∃ matched,
    (matchPattern pattern text).outcome = .ok matched ∧ (matched = true ↔ text ∈ texts)

theorem Recognizes.matchedBy_eq {pattern : Text} {texts : Language Char}
    (recognizes : Recognizes pattern texts) : matchedBy pattern = texts := by
  ext text
  obtain ⟨matched, outcome, matched_iff⟩ := recognizes text
  change (matchPattern pattern text).outcome = .ok true ↔ _
  rw [outcome, Except.ok.injEq, matched_iff]

theorem Dialect.Expresses.recognizes {pattern : Text} {texts : Language Char}
    (expresses : standard.Expresses pattern texts) : Recognizes pattern texts := by
  obtain ⟨tree, read, rfl⟩ := expresses
  intro text
  refine ⟨tree.program.accepts text, ?_, ?_⟩
  · simp [matchPattern, compilePattern, readPattern, read]
  · rw [Program.accepts_iff_admits, Tree.admits_program_iff (canonical_of_read read)]
    rfl

theorem outcome_readPattern (pattern : Text) :
    (readPattern pattern).outcome =
      (Dialect.standard.read pattern).outcome.mapError (Misread.fault pattern) := by
  rw [readPattern, Traced.outcome_bind, Traced.outcome_mapFault]
  cases (Dialect.standard.read pattern).outcome <;> rfl

theorem expresses_matchedBy {pattern : Text}
    (readable : ∃ tree, (readPattern pattern).outcome = .ok tree) :
    Dialect.standard.Expresses pattern (matchedBy pattern) := by
  obtain ⟨tree, read⟩ := readable
  have read_standard : (Dialect.standard.read pattern).outcome = .ok tree := by
    rw [outcome_readPattern] at read
    cases outcome : (Dialect.standard.read pattern).outcome <;> simp_all
  have expresses : Dialect.standard.Expresses pattern tree.language := ⟨tree, read_standard, rfl⟩
  rwa [expresses.recognizes.matchedBy_eq]

/--
Matching is compositional in the text of patterns. A union of two readable patterns matches what
either matches, their groups in a row match texts of both one after the other, a group alone
changes nothing, and a quantifier behind it repeats its texts. Escaped characters match their own
text and nothing else.
-/
theorem recognizes_composed :
    (∀ p q : Text, (∃ tree, (readPattern p).outcome = .ok tree) →
      (∃ tree, (readPattern q).outcome = .ok tree) →
      Recognizes (p ++ '|' :: q) (matchedBy p + matchedBy q) ∧
        Recognizes ('(' :: p ++ [')'] ++ ('(' :: q ++ [')'])) (matchedBy p * matchedBy q)) ∧
    (∀ p : Text, (∃ tree, (readPattern p).outcome = .ok tree) →
      Recognizes ('(' :: p ++ [')']) (matchedBy p) ∧
        Recognizes ('(' :: p ++ [')', '?']) (1 + matchedBy p) ∧
        Recognizes ('(' :: p ++ [')', '*']) (matchedBy p)∗ ∧
        Recognizes ('(' :: p ++ [')', '+']) (matchedBy p * (matchedBy p)∗)) ∧
    ∀ text : Text, text ≠ [] → Recognizes (text.flatMap Dialect.standard.escaped) {text} := by
  refine ⟨fun p q p_readable q_readable => ?_, fun p readable => ?_, fun text nonempty => ?_⟩
  · have left := expresses_matchedBy p_readable
    have right := expresses_matchedBy q_readable
    exact ⟨(left.union right).recognizes, (left.grouped_append right).recognizes⟩
  · have inner := expresses_matchedBy readable
    have repeated (q : Quantifier) :
        Recognizes ('(' :: p ++ [')', Dialect.standard.symbol (.quantifier q)])
          (q.applied (matchedBy p)) := by
      have quantified := inner.quantified [q]
      -- The end of the group and the quantifier behind it are one tail of the pattern.
      rw [Dialect.grouped, List.append_assoc] at quantified
      exact quantified.recognizes
    exact ⟨inner.grouped.recognizes, repeated .optional, repeated .zeroOrMore, repeated .oneOrMore⟩
  · exact (Dialect.standard.expresses_escaped nonempty).recognizes

/-- Unions on both sides of a union, of which one side matches the empty text. -/
theorem recognizes_composed_unions :
    (∃ tree, (readPattern ['a', '|', 'b', '*']).outcome = .ok tree) ∧
      (∃ tree, (readPattern ['c', '?', '|', 'd']).outcome = .ok tree) ∧
      Recognizes ['a', '|', 'b', '*', '|', 'c', '?', '|', 'd']
        (matchedBy ['a', '|', 'b', '*'] + matchedBy ['c', '?', '|', 'd']) ∧
      Recognizes ['(', 'a', '|', 'b', '*', ')', '(', 'c', '?', '|', 'd', ')']
        (matchedBy ['a', '|', 'b', '*'] * matchedBy ['c', '?', '|', 'd']) ∧
      Recognizes ['(', 'a', '|', 'b', '*', ')', '+']
        (matchedBy ['a', '|', 'b', '*'] * (matchedBy ['a', '|', 'b', '*'])∗) ∧
      Recognizes ['\\', '(', 'a', '\\', '\\'] {['(', 'a', '\\']} := by
  have p_readable : ∃ tree, (readPattern ['a', '|', 'b', '*']).outcome = .ok tree :=
    ⟨.alternation [.literal 'a', .quantified .zeroOrMore (.literal 'b')], by cbv⟩
  have q_readable : ∃ tree, (readPattern ['c', '?', '|', 'd']).outcome = .ok tree :=
    ⟨.alternation [.quantified .optional (.literal 'c'), .literal 'd'], by cbv⟩
  obtain ⟨pairs, groups, texts⟩ := recognizes_composed
  obtain ⟨union, product⟩ := pairs _ _ p_readable q_readable
  obtain ⟨_, _, _, repeated⟩ := groups _ p_readable
  have escaped : ['(', 'a', '\\'].flatMap Dialect.standard.escaped =
      ['\\', '(', 'a', '\\', '\\'] := by
    cbv
  have only := texts ['(', 'a', '\\'] (by simp)
  rw [escaped] at only
  exact ⟨p_readable, q_readable, union, product, repeated, only⟩

end PatternMachine
