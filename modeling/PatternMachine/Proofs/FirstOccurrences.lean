import Mathlib.Data.List.Induction

/-!
# First occurrences

What is left of a list when only the first occurrence of each entry is kept, in the order of the
list. A new entry is kept behind the others and a known one is dropped (`eraseDups_concat`), so
that dropping repetitions early or late makes no difference (`eraseDups_eraseDups_append`,
`eraseDups_flatMap_eraseDups`). `exists_first_occurrences` says that a list in an order has the
first occurrences in that order, each before all entries that count as the same.
-/

namespace PatternMachine.FirstOccurrences

variable {α β : Type} [DecidableEq α] [DecidableEq β] {entries others : List α}

theorem eraseDups_concat (entries : List α) (entry : α) :
    (entries ++ [entry]).eraseDups =
      if entry ∈ entries then entries.eraseDups else entries.eraseDups ++ [entry] := by
  rw [List.eraseDups_append, List.cons_removeAll]
  by_cases known : entry ∈ entries <;> simp [known, List.eraseDups_cons]

theorem nodup_eraseDups (entries : List α) : entries.eraseDups.Nodup := by
  induction entries using List.reverseRecOn with
  | nil => simp
  | append_singleton entries entry ih =>
      rw [eraseDups_concat]
      split
      · exact ih
      next fresh =>
        refine List.nodup_append.mpr ⟨ih, by simp, fun other member last single same => ?_⟩
        rw [same, List.mem_singleton.mp single, List.mem_eraseDups] at member
        exact fresh member

theorem eraseDups_eq_self (distinct : entries.Nodup) : entries.eraseDups = entries := by
  induction entries using List.reverseRecOn with
  | nil => rfl
  | append_singleton entries entry ih =>
      have apart := List.nodup_append.mp distinct
      rw [eraseDups_concat, ih apart.1, if_neg]
      intro known
      exact apart.2.2 entry known entry (by simp) rfl

theorem eraseDups_append_of_known (known : ∀ entry ∈ others, entry ∈ entries) :
    (entries ++ others).eraseDups = entries.eraseDups := by
  have nothing : others.removeAll entries = [] := by simpa [List.removeAll] using known
  rw [List.eraseDups_append, nothing, List.eraseDups_nil, List.append_nil]

theorem eraseDups_eraseDups_append (entries others : List α) :
    (entries.eraseDups ++ others).eraseDups = (entries ++ others).eraseDups := by
  have same : others.removeAll entries.eraseDups = others.removeAll entries := by
    simp [List.removeAll]
  rw [List.eraseDups_append, List.eraseDups_append, same,
    eraseDups_eq_self (nodup_eraseDups entries)]

/-- Repetitions may be dropped before each entry is replaced by several. -/
theorem eraseDups_flatMap_eraseDups (expand : α → List β) (entries : List α) :
    (entries.eraseDups.flatMap expand).eraseDups = (entries.flatMap expand).eraseDups := by
  induction entries using List.reverseRecOn with
  | nil => rfl
  | append_singleton entries entry ih =>
      rw [eraseDups_concat, List.flatMap_append, List.flatMap_singleton]
      split
      next known =>
        rw [ih, eraseDups_append_of_known]
        intro other member
        exact List.mem_flatMap.mpr ⟨entry, known, member⟩
      next fresh =>
        rw [List.flatMap_append, List.flatMap_singleton, ← eraseDups_eraseDups_append, ih,
          eraseDups_eraseDups_append]

/--
A list in an order has representatives, one for each entry up to a key, which stand in that order
and before all other entries with their key.
-/
theorem exists_first_occurrences
    {ι : Type} {entries : List ι} {order : ι → ι → Prop}
    (key : ι → β) (ordered : entries.Pairwise order) :
    ∃ firsts : List ι, firsts.Sublist entries ∧ firsts.map key = (entries.map key).eraseDups ∧
      ∀ first ∈ firsts, ∀ entry ∈ entries, key entry = key first →
        entry = first ∨ order first entry := by
  induction entries using List.reverseRecOn with
  | nil => exact ⟨[], by simp⟩
  | append_singleton entries entry ih =>
      obtain ⟨before, _, behind⟩ := List.pairwise_append.mp ordered
      obtain ⟨firsts, sublist, keys_eq, least⟩ := ih before
      rw [List.map_append, List.map_singleton, eraseDups_concat, ← keys_eq]
      have least_behind : ∀ first ∈ firsts, ∀ other ∈ entries ++ [entry],
          key other = key first → other = first ∨ order first other := by
        intro first member other inside same
        rcases List.mem_append.mp inside with inside | last
        · exact least first member other inside same
        · exact .inr (behind first (sublist.subset member) other last)
      split
      next known => exact ⟨firsts, sublist.trans (List.sublist_append_left _ _), rfl, least_behind⟩
      next fresh =>
        refine ⟨firsts ++ [entry], sublist.append (List.Sublist.refl _), by simp, ?_⟩
        intro first member other inside same
        rcases List.mem_append.mp member with member | last
        · exact least_behind first member other inside same
        · obtain rfl := List.mem_singleton.mp last
          rcases List.mem_append.mp inside with inside | last
          · exact absurd (same ▸ List.mem_map_of_mem inside) fresh
          · exact .inl (List.mem_singleton.mp last)

end PatternMachine.FirstOccurrences
