import PatternMachine.Text.Basic

/-!
# Lines

Lines joined by line feeds are found again by splitting at line feeds, if none of them holds one
(`splitOn_ofLines`). Joining puts the separator in front of every part but the first.
-/

namespace PatternMachine.Text

theorem intercalate_cons (separator : Char) (first : Text) (others : List Text) :
    [separator].intercalate (first :: others) =
      first ++ others.flatMap (separator :: ·) := by
  induction others generalizing first with
  | nil => simp
  | cons next others ih => rw [List.intercalate_cons_cons, ih next]; simp

theorem ofLines_cons (first : Text) (others : List Text) :
    ofLines (first :: others) = first ++ others.flatMap ('\n' :: ·) :=
  intercalate_cons '\n' first others

/-- Splitting joined lines at line feeds splits each of them. -/
theorem splitOn_ofLines_eq_flatMap {lines : List Text} (nonempty : lines ≠ []) :
    (ofLines lines).splitOn '\n' = lines.flatMap (List.splitOn '\n') := by
  induction lines with
  | nil => exact absurd rfl nonempty
  | cons first others ih =>
      cases others with
      | nil => simp [ofLines]
      | cons next others =>
          rw [ofLines, List.intercalate_cons_cons, List.append_assoc, List.singleton_append,
            List.splitOn_append_cons_self, ← ofLines, ih (by simp)]
          rfl

theorem length_splitOn (separator : Char) (text : Text) :
    (text.splitOn separator).length = text.count separator + 1 := by
  induction text with
  | nil => simp
  | cons c text ih =>
      rw [List.splitOn_cons_eq_if_modifyHead, List.count_cons]
      split <;> simp [ih]

theorem splitOn_ofLines
    {lines : List Text} (nonempty : lines ≠ []) (each : ∀ line ∈ lines, '\n' ∉ line) :
    (ofLines lines).splitOn '\n' = lines :=
  List.splitOn_intercalate '\n' each nonempty

end PatternMachine.Text
