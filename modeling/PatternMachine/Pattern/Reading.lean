import PatternMachine.Pattern.Assembly
import PatternMachine.Pattern.Scan
import PatternMachine.Trace.Traced

/-!
# Reading patterns

A pattern is read by scanning it into fragments and putting these together in the order of the
text. A group is read like a pattern of its own when its fragment is reached, and what is wrong
in it is blamed on the text around it. Only when all fragments fit is it asked whether the scan
came to a good end. `read_eq` states this procedure as one equation, and `canonical_of_read` that
what is read is in canonical form.
-/

namespace PatternMachine

/--
Put one fragment of the text `outer` into an assembly, where `readInner` reads the content of the
fragment if it is a group.
-/
def Assembly.place
    (outer : Text) (assembly : Assembly) (fragment : Fragment)
    (readInner : ∀ inner, fragment.inner? = some inner → Traced Misread Expression) :
    Traced Misread Assembly :=
  match fragment with
  | .literal c => pure (assembly.push (.literal c))
  | .group opening inner => do
      Traced.report (.group inner (opening + 1) outer)
      let tree ← (readInner inner rfl).mapFault (Misread.outward opening)
      return assembly.push tree
  | .union position => .ofExcept (assembly.union? position)
  | .quantifier q position => .ofExcept (assembly.quantify? q position)

def Assembly.conclude (assembly : Assembly) (scan : Scan) (length : Nat) :
    Traced Misread Expression :=
  match scan.misread? with
  | some misread => .fail misread
  | none => .ofExcept (assembly.finish? length)

namespace Dialect

def read (d : Dialect) (text : Text) : Traced Misread Expression := do
  let assembly ← (d.scan text).fragments.attach.foldlM
    (fun assembly ⟨fragment, member⟩ =>
      assembly.place text fragment fun inner captured =>
        have : inner.length < text.length := length_lt_of_inner? member captured
        d.read inner)
    Assembly.empty
  assembly.conclude (d.scan text) text.length
termination_by text.length

/-- Reading puts the fragments of a scan together in order and reads their groups on the way. -/
theorem read_eq (d : Dialect) (text : Text) :
    d.read text = (do
      let assembly ← (d.scan text).fragments.foldlM
        (fun assembly fragment => assembly.place text fragment fun inner _ => d.read inner)
        Assembly.empty
      assembly.conclude (d.scan text) text.length) := by
  rw [read]
  congr 1
  rw [List.foldlM_subtype (g := fun assembly fragment =>
    Assembly.place text assembly fragment fun inner _ => d.read inner), List.unattach_attach]
  intros
  rfl

end Dialect

theorem Assembly.Canonical.place
    {assembly next : Assembly} (canonical : assembly.Canonical)
    {outer : Text} {fragment : Fragment}
    {readInner : ∀ inner, fragment.inner? = some inner → Traced Misread Expression}
    (inner_canonical : ∀ inner captured tree,
      (readInner inner captured).outcome = .ok tree → tree.Canonical)
    (placed : (assembly.place outer fragment readInner).outcome = .ok next) :
    next.Canonical := by
  cases fragment with
  | literal c =>
      cases placed
      exact canonical.push (.literal c)
  | union position => exact canonical.union? placed
  | quantifier q position => exact canonical.quantify? placed
  | group opening inner =>
      simp only [Assembly.place, Traced.outcome_bind, Traced.outcome_report,
        Traced.outcome_mapFault] at placed
      cases read : (readInner inner rfl).outcome with
      | error fault =>
          rw [read] at placed
          cases placed
      | ok tree =>
          rw [read] at placed
          cases placed
          exact canonical.push (inner_canonical inner rfl tree read)

theorem Dialect.canonical_of_read
    {d : Dialect} {text : Text} {tree : Expression}
    (read : (d.read text).outcome = .ok tree) :
    tree.Canonical := by
  induction length : text.length using Nat.strongRecOn generalizing text tree with
  | ind n ih =>
      subst length
      rw [read_eq, Traced.outcome_bind] at read
      cases folded : (List.foldlM (fun assembly fragment => Assembly.place text assembly fragment
          fun inner _ => d.read inner) Assembly.empty (d.scan text).fragments).outcome with
      | error misread => simp [folded, bind, Except.bind] at read
      | ok assembly =>
          have canonical : assembly.Canonical := by
            refine Traced.foldlM_invariant (fun fragment member state next canonical placed => ?_)
              Assembly.canonical_empty folded
            refine canonical.place (fun inner captured tree read => ?_) placed
            exact ih inner.length (length_lt_of_inner? member captured) read rfl
          simp only [folded, bind, Except.bind, Assembly.conclude] at read
          split at read
          · contradiction
          · exact canonical.finish? read

end PatternMachine
