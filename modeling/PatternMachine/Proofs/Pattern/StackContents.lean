import PatternMachine.Proofs.Pattern.Extension
import PatternMachine.Proofs.Pattern.OpenGroups
import PatternMachine.Proofs.Pattern.Reports
import PatternMachine.Proofs.Pattern.RoundTrip

/-!
# What the stack holds

Between two characters, a reader with one stack knows which groups are open, and has on its stack
the trees of what stands in front of the outermost one: below the finished branches, and above them
the operands of the current branch. `Holds` states this, and `readerAfter_holds` that it is so after
every number of characters at which the reader has not reported a misreading. The trees are those
of a derivation. They are the only ones, as the tokens that make an assembly are read to it and to
nothing else (`assembled_iff_foldlM_feed`).
-/

namespace PatternMachine

/-! ## Tokens of an assembly -/

theorem TokenStack.foldlM_feed_concat
    {tokens : List Token} {token : Token} {start stack next : TokenStack}
    (read : tokens.foldlM feed start = some stack) (fed : stack.feed token = some next) :
    (tokens ++ [token]).foldlM feed start = some next := by
  rw [List.foldlM_append, read]
  simpa using fed

theorem Items.foldlM_feed
    {tokens : List Token} {operands : List Expression} (items : Items tokens operands)
    (branches : List Expression) :
    tokens.foldlM TokenStack.feed ⟨⟨branches, []⟩, []⟩ = some ⟨⟨branches, operands⟩, []⟩ := by
  rcases items with ⟨rfl, rfl⟩ | ⟨branch, rfl, trees_eq⟩
  · rfl
  · have read := branch.reads branches [] []
    rwa [trees_eq, List.reverse_reverse, List.append_nil] at read

theorem Finished.foldlM_feed
    {tokens : List Token} {branches : List Expression} (finished : Finished tokens branches) :
    tokens.foldlM TokenStack.feed .start = some ⟨⟨branches, []⟩, []⟩ := by
  rcases finished with ⟨rfl, rfl⟩ | ⟨whole, rfl, trees_eq⟩
  · rfl
  · obtain ⟨assembly, read, nonempty, branches_eq⟩ := whole.reads [] []
    have united : TokenStack.feed ⟨assembly, []⟩ .union = some ⟨⟨branches, []⟩, []⟩ := by
      refine TokenStack.feed_union_eq_some_iff.mpr ⟨nonempty, ?_⟩
      rw [trees_eq, List.reverse_nil, List.nil_append, List.reverse_inj] at branches_eq
      rw [branches_eq]
    exact TokenStack.foldlM_feed_concat read united

/-- Tokens make an assembly if and only if they are read to it without a group left open. -/
theorem assembled_iff_foldlM_feed {tokens : List Token} {assembly : Assembly} :
    Assembled tokens assembly ↔ tokens.foldlM TokenStack.feed .start = some ⟨assembly, []⟩ := by
  constructor
  · rintro ⟨finished, current, rfl, done, items⟩
    rw [List.foldlM_append, done.foldlM_feed]
    exact items.foldlM_feed assembly.branches
  · intro read
    have held : Held tokens ⟨assembly, []⟩ := (Held.outside assembled_empty).foldlM_feed read
    cases held with
    | outside assembled => exact assembled

namespace Dialect

variable {d : Dialect} {text : Text} {pass : Pass} {assembly : Assembly} {c : Char}

theorem EndsWith.exists_eq {role : Role} (ends : d.EndsWith text role) :
    ∃ before, text = before ++ [d.symbol role] := by
  obtain ⟨last, length_eq, stands⟩ := ends
  refine ⟨text.take last, stands.cut.trans ?_⟩
  rw [length_eq, List.drop_length]

theorem exists_tokens_of_passOver (passed : d.passOver text = .ok pass) :
    ∃ tokens, d.Spells (if pass.escaped then text.dropLast else text) tokens ∧
      tokens.foldlM TokenStack.feed .start = some pass.stack := by
  induction text using List.reverseRecOn generalizing pass with
  | nil =>
      cases passed
      exact ⟨[], spells_of_tokens? rfl, rfl⟩
  | append_singleton text c ih =>
      rw [passOver_concat] at passed
      obtain ⟨earlier, passed, stepped⟩ := Outcome.bind_eq_ok_iff.mp passed
      obtain ⟨tokens, spells, read⟩ := ih passed
      cases announced : earlier.escaped with
      | true =>
          -- The escape in front had no token yet; with this character it makes a literal.
          obtain ⟨before, rfl⟩ := ((Pass.placed_of_passOver passed).announced announced).exists_eq
          obtain ⟨position, escaped, assembly, frames⟩ := earlier
          subst announced
          cases stepped
          rw [if_pos rfl, List.dropLast_concat] at spells
          refine ⟨tokens ++ [.literal c], ?_, TokenStack.foldlM_feed_concat read rfl⟩
          rw [List.append_assoc]
          exact spells.append (d.spells_announced c)
      | false =>
          have groups_eq := congrArg Groups.escaped (Pass.groups_of_step stepped)
          rw [announced] at spells
          by_cases escape : d.role? c = some .escape
          · have escaped : pass.escaped = true := by
              simpa [Pass.groups, Groups.step, announced, escape] using groups_eq
            have kept : pass.stack = earlier.stack := by
              simp only [Pass.step, Pass.take, announced, Bool.false_eq_true, if_false, escape,
                Outcome.map_ok, Except.ok.injEq] at stepped
              exact stepped ▸ rfl
            refine ⟨tokens, ?_, kept ▸ read⟩
            rwa [escaped, if_pos rfl, List.dropLast_concat]
          · have plain : pass.escaped = false := by
              simpa [Pass.groups, Groups.step, announced, escape] using groups_eq
            have fed := Pass.feed_stack announced escape
            rw [stepped] at fed
            refine ⟨_, ?_, TokenStack.foldlM_feed_concat read fed⟩
            rw [plain]
            exact spells.append (spells_plain escape)

/--
The part of a text that has been read to operands: what stands in front of the outermost open group
or, if none is open, all but an escape at the end.
-/
def settled (d : Dialect) (text : Text) : Text :=
  match (d.unclosed text).getLast? with
  | some outermost => text.take outermost
  | none => if (d.groups text).escaped then text.dropLast else text

theorem exists_tokens_of_assemble
    (sound : (d.scan text).stray = none)
    (assembled : d.assemble (d.scan text).fragments = .ok assembly) :
    ∃ tokens, d.tokens? (d.settled text) = some tokens ∧ Assembled tokens assembly := by
  have unclosed_eq := openings_scan sound
  by_cases outside : (d.scan text).openings = []
  · have passed : d.passOver text = .ok ((d.scan text).pass assembly) := by
      rw [passOver_of_outside sound outside, assembled]
      rfl
    obtain ⟨tokens, spells, read⟩ := exists_tokens_of_passOver passed
    refine ⟨tokens, ?_, assembled_iff_foldlM_feed.mpr read⟩
    rw [settled, ← unclosed_eq, outside, ← escaped_scan sound]
    exact spells.tokens?_eq
  · -- Inside of a group nothing is completed, so all fragments stand in front of the outermost one.
    obtain ⟨before, inner, rfl, top, inner_sound⟩ := exists_enclosed outside
    rw [scan_enclosed top inner_sound] at assembled unclosed_eq
    have passed : d.passOver before = .ok ((d.scan before).pass assembly) := by
      rw [passOver_of_outside top.stray top.openings]
      exact congrArg (Except.map (d.scan before).pass) assembled
    obtain ⟨tokens, spells, read⟩ := exists_tokens_of_passOver passed
    refine ⟨tokens, ?_, assembled_iff_foldlM_feed.mpr read⟩
    rw [settled, ← unclosed_eq, Scan.openings_enclosing, List.getLast?_concat,
      position_scan top.stray]
    dsimp only
    rw [List.take_left' rfl]
    have plain : ((d.scan before).pass assembly).escaped = false := top.escaped
    rw [plain] at spells
    exact spells.tokens?_eq

/-- The reader that has read some characters of a text, unless it has stopped before. -/
def readerAfter (d : Dialect) (text : Text) (count : Nat) : Except Breakdown StackReader :=
  (text.take count).zipIdx.foldlM
    (fun reader (c, position) =>
      reader.step d
        (fun inner =>
          if _ : inner.length < text.length then d.readStack inner else .error .endless)
        text position c)
    StackReader.start

end Dialect

namespace StackReader

variable {d : Dialect} {text : Text} {reader : StackReader} {assembly : Assembly} {count : Nat}

def branches (reader : StackReader) : List Expression :=
  reader.stack.drop (reader.stack.length - reader.finished)

def operands (reader : StackReader) : List Expression :=
  reader.stack.take (reader.stack.length - reader.finished)

/--
What is true of a reader that has read a text. Its open groups are those of the text, and the parts
of its stack are what the tokens of the settled part of the text make, and nothing else.
-/
structure Holds (d : Dialect) (text : Text) (reader : StackReader) : Prop where
  depth : reader.depth = reader.openings.length
  increasing : reader.openings.reverse.Pairwise (· < ·)
  open_iff : ∀ opening, opening ∈ reader.openings ↔ d.StaysOpen text opening
  finished_le : reader.finished ≤ reader.stack.length
  popped : popOperands reader.finished reader.stack = (reader.operands, reader.branches)
  assembled : ∃ tokens, d.tokens? (d.settled text) = some tokens ∧
    ∀ assembly, Assembled tokens assembly ↔ assembly = ⟨reader.branches, reader.operands⟩

theorem holds_reader
    (sound : (d.scan text).stray = none)
    (put_together : d.assemble (d.scan text).fragments = .ok assembly) :
    ((d.scan text).reader assembly).Holds d text := by
  have openings_eq : ((d.scan text).reader assembly).openings = d.unclosed text :=
    Dialect.openings_scan sound
  have branches_eq : ((d.scan text).reader assembly).branches = assembly.branches := by
    simp [branches, Scan.reader]
  have operands_eq : ((d.scan text).reader assembly).operands = assembly.operands := by
    simp [operands, Scan.reader]
  refine ⟨rfl, ?_, fun opening => ?_, ?_, ?_, ?_⟩
  · rw [openings_eq, List.pairwise_reverse]
    exact d.pairwise_unclosed text
  · rw [openings_eq, Dialect.mem_unclosed_iff]
  · simp [Scan.reader]
  · rw [branches_eq, operands_eq]
    exact popOperands_append assembly.operands assembly.branches
  · obtain ⟨tokens, spelled, assembled⟩ := Dialect.exists_tokens_of_assemble sound put_together
    refine ⟨tokens, spelled, fun other => ?_⟩
    rw [branches_eq, operands_eq, assembled_iff_foldlM_feed,
      assembled_iff_foldlM_feed.mp assembled]
    simpa using eq_comm

theorem raise_ne_ok {α : Type} (kind : FaultKind) (position : Int) (text : Text) (result : α) :
    Breakdown.raise kind position text ≠ .ok result := by
  unfold Breakdown.raise
  split <;> simp

theorem Holds.closeBranch
    {closed : StackReader} {position : Int} {before : Text} (holds : reader.Holds d before)
    (closes : reader.closeBranch position text = .ok closed) :
    closed = { reader with
      stack := Tree.concat reader.operands.reverse :: reader.branches
      finished := reader.finished + 1 } := by
  simp only [StackReader.closeBranch, holds.popped] at closes
  split at closes
  · exact absurd closes (raise_ne_ok _ _ _ _)
  · obtain ⟨branch, made, rfl⟩ := Outcome.map_eq_ok_iff.mp closes
    obtain ⟨_, rfl⟩ := Tree.sequence?_eq_ok_iff.mp (Outcome.mapError_eq_ok_iff.mp made)
    rfl

end StackReader

namespace Dialect

variable {d : Dialect} {text : Text} {count : Nat}

/-- A reader comes as far as a scan of the same characters, or has reported a misreading. -/
theorem readerAfter_eq (d : Dialect) (text : Text) (count : Nat) :
    d.readerAfter text count =
      match (d.scan (text.take count)).stray with
      | none => StackReader.progress d text (d.scan (text.take count))
      | some position =>
          (d.assemble (d.scan (text.take count)).fragments).mapError (Misread.report text) >>=
            fun _ => .error (Misread.report text (.unmatchedParenthesis position)) := by
  refine StackReader.foldlM_step (fun inner shorter => ?_) (List.take_append_drop count text).symm
  rw [dif_pos shorter, readStack_eq]

/-- After some characters, a reader holds what it has read or has reported a misreading. -/
theorem readerAfter_holds (d : Dialect) (text : Text) (count : Nat) :
    match d.readerAfter text count with
    | .ok reader => reader.Holds d (text.take count)
    | .error breakdown => ∃ misread, breakdown = Misread.report text misread := by
  rw [readerAfter_eq]
  cases put_together : d.assemble (d.scan (text.take count)).fragments with
  | error misread =>
      cases (d.scan (text.take count)).stray with
      | some position => exact ⟨misread, rfl⟩
      | none =>
          simp only [StackReader.progress, put_together]
          exact ⟨misread, rfl⟩
  | ok assembly =>
      cases sound : (d.scan (text.take count)).stray with
      | some position => exact ⟨.unmatchedParenthesis position, rfl⟩
      | none =>
          simp only [StackReader.progress, put_together]
          exact StackReader.holds_reader sound put_together

theorem holds_of_readerAfter
    {reader : StackReader} (come : d.readerAfter text count = .ok reader) :
    reader.Holds d (text.take count) := by
  have holds := d.readerAfter_holds text count
  rwa [come] at holds

/--
A reader with one stack knows after every number of characters which groups are open and what trees
stand in front of them, and closing a branch leaves the finished ones as they are. When the last
branch is closed there is no single one, and what stops the reader is always a misreading.
-/
theorem stack_holds_branches_and_operands (d : Dialect) (text : Text) :
    (d.readStack text = d.readerAfter text text.length >>= fun reader => reader.finish text) ∧
    (∀ count,
      match d.readerAfter text count with
      | .ok reader =>
          reader.Holds d (text.take count) ∧
          ∀ position closed, reader.closeBranch position text = .ok closed →
            closed = { reader with
              stack := Tree.concat reader.operands.reverse :: reader.branches
              finished := reader.finished + 1 }
      | .error breakdown => ∃ misread, breakdown = Misread.report text misread) ∧
    (∀ reader closed, d.readerAfter text text.length = .ok reader →
      (if 0 < reader.finished then reader.closeBranch (text.length - 1) text else .ok reader) =
        .ok closed → closed.finished ≠ 1) ∧
    ∀ breakdown, d.readStack text = .error breakdown →
      ∃ misread, breakdown = Misread.report text misread := by
  refine ⟨?_, fun count => ?_, fun reader closed come closes => ?_, fun breakdown stopped => ?_⟩
  · rw [readStack, readerAfter, List.take_length]
  · cases come : d.readerAfter text count with
    | error breakdown =>
        have stopped := d.readerAfter_holds text count
        rwa [come] at stopped
    | ok reader =>
        have holds := holds_of_readerAfter come
        exact ⟨holds, fun position closed closes => holds.closeBranch closes⟩
  · split at closes
    next branched =>
      rw [(holds_of_readerAfter come).closeBranch closes]
      exact Nat.ne_of_gt (Nat.succ_lt_succ branched)
    next unbranched =>
      cases closes
      exact fun single => unbranched (single ▸ Nat.one_pos)
  · rw [readStack_eq] at stopped
    cases read : (d.read text).outcome with
    | ok tree =>
        rw [read] at stopped
        cases stopped
    | error misread =>
        rw [read] at stopped
        cases stopped
        exact ⟨misread, rfl⟩

example : standard.readerAfter ['a', '|', 'b', '\\', '(', '(', 'c'] 7 =
    .ok ⟨[.literal '(', .literal 'b', .literal 'a'], 1, 1, ['c'], [5], false⟩ := by rfl

end Dialect

end PatternMachine
