import PatternMachine.Expression.Term
import PatternMachine.Proofs.Expression.Constructed
import PatternMachine.Proofs.Text.Quoting

/-!
# Reading terms

The term of an expression determines the expression. A term is read by naming the kind of its root
and constructing the tree of its argument, which is a quoted character, another term, or a tuple of
at least two terms. Since a term ends with the parenthesis that closes it, it is read back whatever
follows it (`readsTo_term`), so no term is the beginning of another one.
-/

namespace PatternMachine.Tree

open PatternMachine.Text (Reading ReadsTo)

def namedKinds : List Kind :=
  [.literal, .sequence, .alternation,
    .quantified .optional, .quantified .oneOrMore, .quantified .zeroOrMore]

def readKind? : (text : Text) → Option (Reading Kind text)
  | [] => none
  | c :: rest =>
      (namedKinds.find? fun kind => (kind.name ++ ['(']).isPrefixOf (c :: rest)).map fun kind =>
        ⟨kind, rest.drop kind.name.length, Nat.lt_succ_of_le (List.length_drop ▸ Nat.sub_le _ _)⟩

def constructed? {α : Type} {text : Text} (construct : α → Option Expression)
    (argument : Reading α text) :
    Option (Reading Expression text) :=
  (argument.expecting? [')']).bind fun closed => closed.mapValue? construct

/-- The expression that operands of a combination make; a tuple has at least two entries. -/
def combined? (kind : Kind) (operands : List Expression) : Option Expression :=
  if operands.length < 2 then none
  else
    match kind with
    | .sequence => (sequence? operands).toOption
    | .alternation => (alternation? operands).toOption
    | _ => none

mutual

/-- The expression that a term at the front of a text constructs. -/
def readTerm? (text : Text) : Option (Reading Expression text) :=
  (readKind? text).bind fun head =>
    match head.value with
    | .literal =>
        (Text.readQuoted? head.rest).bind fun argument =>
          constructed? (fun character => (literal? character).toOption)
            (head.followed (fun _ character => character) argument)
    | .quantified q =>
        (readTerm? head.rest).bind fun argument =>
          constructed? (fun body => some (.quantified q body))
            (head.followed (fun _ body => body) argument)
    | kind =>
        (readTuple? head.rest).bind fun argument =>
          constructed? (combined? kind) (head.followed (fun _ operands => operands) argument)
termination_by (text.length, 0)
decreasing_by
  all_goals exact Prod.Lex.left _ _ head.shorter

def readTuple? (text : Text) : Option (Reading (List Expression) text) :=
  match text with
  | '(' :: inner =>
      let opening : Reading Char ('(' :: inner) := ⟨'(', inner, Nat.lt_succ_self _⟩
      (readTerms? inner).bind fun operands =>
        (opening.followed (fun _ operands => operands) operands).expecting? [')']
  | _ => none
termination_by (text.length, 0)
decreasing_by exact Prod.Lex.left _ _ (Nat.lt_succ_self _)

def readTerms? (text : Text) : Option (Reading (List Expression) text) :=
  (readTerm? text).bind fun first =>
    match first.expecting? [',', ' '] with
    | some next => (readTerms? next.rest).map (next.followed List.cons)
    | none => first.mapValue? fun tree => some [tree]
termination_by (text.length, 1)
decreasing_by
  · exact Prod.Lex.right _ Nat.zero_lt_one
  · exact Prod.Lex.left _ _ next.shorter

end

/-! ## Terms are read back -/

theorem applied_append (name argument rest : Text) :
    applied name argument ++ rest = name ++ '(' :: (argument ++ ')' :: rest) := by
  simp [applied]

theorem readsTo_kind {kind : Kind} (named : kind ≠ .gap) (rest : Text) :
    ReadsTo (readKind? (kind.name ++ '(' :: rest)) kind rest := by
  rcases kind with _ | _ | _ | _ | _ | _ | _
  · exact absurd rfl named
  all_goals exact ⟨_, rfl, rfl, rfl⟩

theorem readsTo_constructed
    {α : Type} {text rest : Text} {construct : α → Option Expression} {argument : Reading α text}
    {tree : Expression} (made : construct argument.value = some tree)
    (closed : argument.rest = ')' :: rest) :
    ReadsTo (constructed? construct argument) tree rest := by
  have closing : ReadsTo (argument.expecting? [')']) argument.value rest := .expecting? rfl closed
  exact closing.bind fun reading value_eq behind => .mapValue? (value_eq ▸ made) behind

theorem readsTo_term_literal (c : Char) (rest : Text) :
    ReadsTo (readTerm? (term (.literal c : Expression) ++ rest)) (.literal c) rest := by
  have character := Text.readsTo_quoted [c] (')' :: rest)
  have named : Kind.literal ≠ .gap := by simp
  rw [term, applied_append, readTerm?]
  refine (readsTo_kind named _).bind fun head kind_eq behind => ?_
  simp only [kind_eq]
  rw [← behind] at character
  refine character.bind fun argument value_eq closed => ?_
  exact readsTo_constructed (by simp only [Reading.followed, value_eq]; rfl) closed

theorem readsTo_term_quantified
    (q : Quantifier) {body : Expression} {rest : Text}
    (inner : ReadsTo (readTerm? (term body ++ ')' :: rest)) body (')' :: rest)) :
    ReadsTo (readTerm? (term (.quantified q body) ++ rest)) (.quantified q body) rest := by
  have named : Kind.quantified q ≠ .gap := by simp
  rw [term, applied_append, readTerm?]
  refine (readsTo_kind named _).bind fun head kind_eq behind => ?_
  simp only [kind_eq]
  rw [← behind] at inner
  refine inner.bind fun argument value_eq closed => ?_
  exact readsTo_constructed (by simp only [Reading.followed, value_eq]) closed

/-- Whether the term of an expression is read back, whatever follows it. -/
def ReadBack (tree : Expression) : Prop :=
  ∀ rest, ReadsTo (readTerm? (term tree ++ rest)) tree rest

theorem readsTo_terms
    {trees : List Expression} (nonempty : trees ≠ []) (each : ∀ tree ∈ trees, ReadBack tree)
    (rest : Text) :
    ReadsTo (readTerms? (Text.commaSeparated (trees.map term) ++ ')' :: rest)) trees
      (')' :: rest) := by
  induction trees with
  | nil => exact absurd rfl nonempty
  | cons tree trees ih =>
      have head : ReadBack tree := each tree List.mem_cons_self
      cases trees with
      | nil =>
          have alone : Text.commaSeparated ([tree].map term) = term tree := by
            simp [Text.commaSeparated]
          rw [alone, readTerms?]
          refine (head (')' :: rest)).bind fun first value_eq behind => ?_
          have no_comma : first.expecting? [',', ' '] = none := by
            simp [Reading.expecting?, behind]
          simp only [no_comma]
          exact .mapValue? (by rw [value_eq]) behind
      | cons next trees =>
          have tail :=
            ih (by simp) fun other member => each other (List.mem_cons_of_mem tree member)
          have several : Text.commaSeparated ((tree :: next :: trees).map term) ++ ')' :: rest =
              term tree ++ ([',', ' '] ++
                (Text.commaSeparated ((next :: trees).map term) ++ ')' :: rest)) := by
            simp [Text.commaSeparated, List.intercalate_cons_cons]
          rw [several, readTerms?]
          refine (head _).bind fun first value_eq behind => ?_
          obtain ⟨comma, found, comma_eq, onward⟩ := ReadsTo.expecting? value_eq behind
          simp only [found]
          rw [← onward] at tail
          exact tail.followed (by rw [comma_eq])

theorem readsTo_tuple
    {trees : List Expression} (nonempty : trees ≠ []) (each : ∀ tree ∈ trees, ReadBack tree)
    (rest : Text) :
    ReadsTo (readTuple? (applied [] (Text.commaSeparated (trees.map term)) ++ rest)) trees
      rest := by
  rw [applied_append, List.nil_append, readTuple?]
  exact (readsTo_terms nonempty each rest).bind fun operands value_eq closed =>
    .expecting? value_eq closed

theorem ne_nil_of_several {trees : List Expression} (several : 2 ≤ trees.length) : trees ≠ [] := by
  rintro rfl
  contradiction

theorem readBack_combined
    {kind : Kind} {tree : Expression} {operands : List Expression}
    (combination : kind = .sequence ∨ kind = .alternation)
    (made : combined? kind operands = some tree) (several : 2 ≤ operands.length)
    (term_eq : term tree = applied kind.name (applied [] (Text.commaSeparated (operands.map term))))
    (each : ∀ tree ∈ operands, ReadBack tree) :
    ReadBack tree := by
  intro rest
  have tuple := readsTo_tuple (ne_nil_of_several several) each (')' :: rest)
  have named : kind ≠ .gap := by rcases combination with rfl | rfl <;> simp
  rw [term_eq, applied_append, readTerm?]
  refine (readsTo_kind named _).bind fun head kind_eq behind => ?_
  rw [← behind] at tuple
  have onward :
      ReadsTo ((readTuple? head.rest).bind fun argument =>
        constructed? (combined? kind) (head.followed (fun _ operands => operands) argument))
        tree rest := by
    refine tuple.bind fun argument value_eq closed => ?_
    exact readsTo_constructed (by simp only [Reading.followed, value_eq, made]) closed
  rcases combination with rfl | rfl
  · simpa only [kind_eq] using onward
  · simpa only [kind_eq] using onward

/-- The term of a canonical expression is read back, whatever follows it. -/
theorem Canonical.readBack {tree : Expression} (canonical : tree.Canonical) : ReadBack tree := by
  induction canonical with
  | gap g => nomatch g
  | literal c => exact readsTo_term_literal c
  | @sequence items several each flat ih =>
      have made : combined? .sequence items = some (.sequence items) := by
        have constructed : sequence? items = .ok (.sequence items) :=
          sequence?_eq_ok_iff.mpr
            ⟨ne_nil_of_several several, (concat_of_several several flat).symm⟩
        rw [combined?, if_neg (Nat.not_lt_of_le several)]
        simp only [constructed]
        rfl
      exact readBack_combined (.inl rfl) made several (by rw [term, terms_eq_map]) ih
  | @alternation branches several each ih =>
      have made : combined? .alternation branches = some (.alternation branches) := by
        have constructed : alternation? branches = .ok (.alternation branches) :=
          alternation?_eq_ok_iff.mpr
            ⟨ne_nil_of_several several, (choice_of_several several).symm⟩
        rw [combined?, if_neg (Nat.not_lt_of_le several)]
        simp only [constructed]
        rfl
      exact readBack_combined (.inr rfl) made several (by rw [term, terms_eq_map]) ih
  | @quantified q body inner ih => exact fun rest => readsTo_term_quantified q (ih _)

/--
The term of a constructed expression is read back to the expression, whatever follows it. So
expressions with the same term are equal, and no term is the beginning of another one.
-/
theorem term_determines_expression :
    (∀ tree : Expression, Constructed tree →
      ∀ rest, ReadsTo (readTerm? (tree.term ++ rest)) tree rest) ∧
    (∀ tree other : Expression, Constructed tree → Constructed other →
      (tree.term = other.term ↔ tree = other)) ∧
    ∀ tree other : Expression, Constructed tree → Constructed other →
      tree.term <+: other.term → tree = other := by
  have read_back : ∀ tree : Expression, Constructed tree → ReadBack tree :=
    fun tree constructed => (constructed_iff_canonical.mp constructed).readBack
  have eq_of_begins : ∀ tree other : Expression, Constructed tree → Constructed other →
      tree.term <+: other.term → tree = other := by
    rintro tree other constructed other_constructed ⟨rest, extended⟩
    have reads := read_back tree constructed rest
    have whole := read_back other other_constructed []
    rw [extended] at reads
    rw [List.append_nil] at whole
    exact (reads.unique whole).1
  refine ⟨read_back, fun tree other constructed other_constructed => ⟨fun same => ?_, ?_⟩,
    eq_of_begins⟩
  · exact eq_of_begins tree other constructed other_constructed (same ▸ List.prefix_rfl)
  · rintro rfl
    rfl

/-- Literals that look like parts of a term: a quotation mark, a line feed and a parenthesis. -/
theorem term_of_misleading_literals :
    ∃ tree : Expression, Constructed tree ∧
      ReadsTo (readTerm? ("Sequence((Literal(\"'\"), Optional(Literal('\\n')), ".toList ++
        "Literal(')'), Literal('\\x07')))(".toList)) tree ['('] ∧
      ¬ tree.term <+: (Tree.quantified .optional tree : Expression).term := by
  let tree : Expression := .sequence
    [.literal '\'', .quantified .optional (.literal '\n'), .literal ')', .literal '\x07']
  have term_eq : tree.term ++ ['('] =
      "Sequence((Literal(\"'\"), Optional(Literal('\\n')), ".toList ++
        "Literal(')'), Literal('\\x07')))(".toList := by
    decide +kernel
  have canonical : tree.Canonical := .sequence (by simp)
    (by simpa using ⟨.literal '\'', .quantified .optional (.literal '\n'), .literal ')',
      .literal '\x07'⟩) (by simp [Tree.kind])
  have constructed := constructed_iff_canonical.mpr canonical
  obtain ⟨read_back, _, eq_of_begins⟩ := term_determines_expression
  refine ⟨tree, constructed, term_eq ▸ read_back tree constructed ['('], fun begins => ?_⟩
  cases eq_of_begins _ _ constructed (.quantified .optional constructed) begins

end PatternMachine.Tree
