/-
Pruning of a list: each element in turn is deleted if it is below another one that is still there.

Deleting an element can take away what covered elements deleted before it. When the relation is transitive they are
covered all the same, by what covers the element.

- `pruneFrom_sublist`: what is left stands in the old order;
- `prune_covers`: every deleted element is below one that is left.
-/
import Mathlib.Tactic

namespace Liss

open scoped List

variable {α : Type*} {below : α → α → Bool}

/-- the loop over the elements; `kept` are those before the current one that are left -/
def pruneFrom (below : α → α → Bool) (kept : List α) : List α → List α
  | [] => kept
  | a :: rest =>
    if (kept ++ rest).any (below a) then pruneFrom below kept rest else pruneFrom below (kept ++ [a]) rest

def prune (below : α → α → Bool) (l : List α) : List α := pruneFrom below [] l

theorem pruneFrom_sublist (kept rest : List α) : (pruneFrom below kept rest).Sublist (kept ++ rest) := by
  induction rest generalizing kept with
  | nil => simp [pruneFrom]
  | cons a rest ih =>
    rw [pruneFrom]
    split_ifs
    · exact (ih kept).trans (List.Sublist.append_left (List.sublist_cons_self a rest) kept)
    · have := ih (kept ++ [a])
      rwa [List.append_assoc, List.singleton_append] at this

theorem prune_sublist (l : List α) : (prune below l).Sublist l := pruneFrom_sublist [] l

/-- the deleted elements so far stay covered -/
theorem pruneFrom_covers (htrans : ∀ a b c, below a b = true → below b c = true → below a c = true)
    {kept rest deleted : List α} (h : ∀ d ∈ deleted, ∃ b ∈ kept ++ rest, below d b = true) :
    ∃ deleted', (kept ++ rest ++ deleted).Perm (pruneFrom below kept rest ++ deleted') ∧
      ∀ d ∈ deleted', ∃ b ∈ pruneFrom below kept rest, below d b = true := by
  induction rest generalizing kept deleted with
  | nil => exact ⟨deleted, by simp [pruneFrom], by simpa [pruneFrom] using h⟩
  | cons a rest ih =>
    rw [pruneFrom]
    split_ifs with hany
    · obtain ⟨c, hc, hac⟩ := List.any_eq_true.1 hany
      have hcov : ∀ d ∈ a :: deleted, ∃ b ∈ kept ++ rest, below d b = true := by
        intro d hd
        rcases List.mem_cons.1 hd with rfl | hd
        · exact ⟨c, hc, hac⟩
        · obtain ⟨b, hb, hdb⟩ := h d hd
          rcases List.mem_append.1 hb with hb | hb
          · exact ⟨b, List.mem_append_left _ hb, hdb⟩
          · rcases List.mem_cons.1 hb with rfl | hb
            · -- it was below the element that goes now
              exact ⟨c, hc, htrans d b c hdb hac⟩
            · exact ⟨b, List.mem_append_right _ hb, hdb⟩
      obtain ⟨deleted', hperm, hcov'⟩ := ih hcov
      refine ⟨deleted', List.Perm.trans ?_ hperm, hcov'⟩
      calc kept ++ a :: rest ++ deleted
          = kept ++ (a :: (rest ++ deleted)) := by simp
        _ ~ a :: (kept ++ (rest ++ deleted)) := List.perm_middle
        _ = a :: ((kept ++ rest) ++ deleted) := by simp
        _ ~ kept ++ rest ++ a :: deleted := List.perm_middle.symm
    · have heq : kept ++ [a] ++ rest = kept ++ a :: rest := by simp
      have := @ih (kept ++ [a]) deleted (by rwa [heq])
      rwa [heq] at this

/-- **Every deleted element is below one that is left.** -/
theorem prune_covers (htrans : ∀ a b c, below a b = true → below b c = true → below a c = true) (l : List α) :
    ∃ deleted, l.Perm (prune below l ++ deleted) ∧ ∀ d ∈ deleted, ∃ b ∈ prune below l, below d b = true := by
  have h : ∀ d ∈ ([] : List α), ∃ b ∈ [] ++ l, below d b = true := by simp
  simpa [prune] using pruneFrom_covers htrans h

/-- every element is left or below one that is left -/
theorem mem_or_below_of_prune (htrans : ∀ a b c, below a b = true → below b c = true → below a c = true) {l : List α}
    {a : α} (ha : a ∈ l) : a ∈ prune below l ∨ ∃ b ∈ prune below l, below a b = true := by
  obtain ⟨deleted, hperm, hcov⟩ := prune_covers htrans l
  exact (List.mem_append.1 (hperm.mem_iff.1 ha)).imp_right (hcov a)

end Liss
