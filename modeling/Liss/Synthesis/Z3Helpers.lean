/-
`synthesis/z3_helpers.h`: `min_unsat` removes items that are not needed to make a solver answer `unsat`.

The second check of many items repeats the first one and gives the same answer; it is left out.

- `minUnsat_false`: the items are unchanged, and can be satisfied;
- `minUnsat_true`: the items that are left cannot be satisfied;
- `feasible_minUnsat`: the implications that stay in the solver do not change its later answers;
- `deleteItems_needed`: each item that the loop leaves is needed;
- `minUnsat_core`: so the items that are left are a minimal core.
-/
import Mathlib.Tactic
import Liss.Lib.Solver

namespace Liss.Synthesis

variable {α ι : Type*}

/-- the loop that tests which items are needed; `kept` are the ones before `t` that are -/
def deleteItems (z3 : Oracle α) (s : Solver α) (kept : List (ι × ℕ)) : List (ι × ℕ) → List (ι × ℕ)
  | [] => kept
  | t :: rest =>
    if (z3.check s ((kept ++ rest).map Prod.snd)).isNone then deleteItems z3 s kept rest
    else deleteItems z3 s (kept ++ [t]) rest

/-- `min_unsat`: the returned value, the items afterwards, and the solver with the implications it adds -/
def minUnsat (z3 : Oracle α) (s : Solver α) (items : List ι) (translate : ι → Formula α) : Bool × List ι × Solver α :=
  let triggers := items.zipIdx s.fresh
  let s' := s.addTriggers items translate
  match z3.check s' (triggers.map Prod.snd) with
  | some _ => (false, items, s')
  | none =>
    let core := z3.unsatCore s' (triggers.map Prod.snd)
    let triggers := if items.length > 10 then triggers.filter fun t => t.2 ∈ core else triggers
    (true, (deleteItems z3 s' [] triggers).map Prod.fst, s')

variable {z3 : Oracle α} {s : Solver α} {items : List ι} {translate : ι → Formula α}

theorem deleteItems_sublist (kept rest : List (ι × ℕ)) : (deleteItems z3 s kept rest).Sublist (kept ++ rest) := by
  induction rest generalizing kept with
  | nil => simp [deleteItems]
  | cons t rest ih =>
    rw [deleteItems]
    split_ifs
    · exact (ih kept).trans (List.Sublist.append_left (List.sublist_cons_self t rest) kept)
    · have := ih (kept ++ [t])
      rwa [List.append_assoc, List.singleton_append] at this

/-- what is left is still unsatisfiable -/
theorem deleteItems_unsat {kept rest : List (ι × ℕ)} (h : ∀ x, ¬s.Feasible ((kept ++ rest).map Prod.snd) x) (x : α) :
    ¬s.Feasible ((deleteItems z3 s kept rest).map Prod.snd) x := by
  induction rest generalizing kept with
  | nil => simpa [deleteItems] using h x
  | cons t rest ih =>
    rw [deleteItems]
    split_ifs with hc
    · exact ih (z3.complete _ _ (Option.isNone_iff_eq_none.1 hc))
    · refine ih (fun y => ?_)
      rw [List.append_assoc, List.singleton_append]
      exact h y

theorem feasible_minUnsat {x : α} : (minUnsat z3 s items translate).2.2.Feasible [] x ↔ s.Feasible [] x := by
  unfold minUnsat
  dsimp only
  split <;> exact Solver.feasible_addTriggers_nil

theorem minUnsat_false (h : (minUnsat z3 s items translate).1 = false) :
    (minUnsat z3 s items translate).2.1 = items ∧ ∃ x, s.Feasible [] x ∧ ∀ i ∈ items, translate i x = true := by
  unfold minUnsat at h ⊢
  dsimp only at h ⊢
  split at h
  · rename_i x hx
    refine ⟨rfl, x, ?_⟩
    obtain ⟨hs, hall⟩ := (Solver.feasible_addTriggers fun _ hp => hp).1 (z3.sound _ _ _ hx)
    refine ⟨hs, fun i hi => ?_⟩
    obtain ⟨k, hk⟩ := List.mem_iff_getElem?.1 hi
    exact hall (i, s.fresh + k) (List.mk_add_mem_zipIdx_iff_getElem?.2 hk)
  · simp at h

theorem minUnsat_sublist : (minUnsat z3 s items translate).2.1.Sublist items := by
  unfold minUnsat
  dsimp only
  split
  · exact List.Sublist.refl _
  · have hfst : (items.zipIdx s.fresh).map Prod.fst = items := List.zipIdx_map_fst _ _
    conv_rhs => rw [← hfst]
    refine List.Sublist.map _ ((deleteItems_sublist _ _).trans ?_)
    rw [List.nil_append]
    split_ifs
    · exact List.filter_sublist
    · exact List.Sublist.refl _

/-- when the items cannot be satisfied, neither can those that are left -/
theorem minUnsat_true (h : (minUnsat z3 s items translate).1 = true) {x : α} (hx : s.Feasible [] x) :
    ∃ i ∈ (minUnsat z3 s items translate).2.1, translate i x = false := by
  unfold minUnsat at h ⊢
  dsimp only at h ⊢
  split at h
  · simp at h
  · rename_i hnone
    dsimp only
    have hcore := z3.core_unsat _ _ hnone
    have hsub := z3.core_subset _ _ hnone
    set s' := s.addTriggers items translate with hs'
    set core := z3.unsatCore s' ((items.zipIdx s.fresh).map Prod.snd)
    set triggers :=
      if items.length > 10 then (items.zipIdx s.fresh).filter fun t => t.2 ∈ core else items.zipIdx s.fresh
      with htr
    have hmem : ∀ p ∈ triggers, p ∈ items.zipIdx s.fresh := by
      intro p hp
      rw [htr] at hp
      split_ifs at hp
      · exact (List.mem_filter.1 hp).1
      · exact hp
    have hunsat : ∀ y, ¬s'.Feasible (([] ++ triggers).map Prod.snd) y := by
      intro y hy
      rw [List.nil_append, htr] at hy
      split_ifs at hy
      · -- the triggers of the core are among those that are left
        refine hcore y (Solver.feasible_iff.2 ⟨(Solver.feasible_iff.1 hy).1, fun e he ht => ?_⟩)
        refine (Solver.feasible_iff.1 hy).2 e he ?_
        obtain ⟨p, hp, heq⟩ := List.mem_map.1 (hsub ht)
        exact List.mem_map.2 ⟨p, List.mem_filter.2 ⟨hp, by simpa [heq] using ht⟩, heq⟩
      · exact z3.complete _ _ hnone y hy
    have hleft : ¬s'.Feasible ((deleteItems z3 s' [] triggers).map Prod.snd) x := deleteItems_unsat hunsat x
    have hk : ∀ p ∈ deleteItems z3 s' [] triggers, p ∈ items.zipIdx s.fresh := fun p hp =>
      hmem p (by simpa using (deleteItems_sublist [] triggers).subset hp)
    rw [hs', Solver.feasible_addTriggers hk, not_and] at hleft
    obtain ⟨p, hp, hf⟩ := not_forall₂.1 (hleft hx)
    exact ⟨p.1, List.mem_map_of_mem hp, by simpa using hf⟩

/-! ## Minimal cores -/

/-- the solver can be satisfied together with the items -/
def Satisfiable (s : Solver α) (translate : ι → Formula α) (items : List ι) : Prop :=
  ∃ x, s.Feasible [] x ∧ ∀ i ∈ items, translate i x = true

/-- fewer assumptions are easier to satisfy -/
theorem feasible_sublist {s : Solver α} {x : α} {l l' : List (ι × ℕ)} (hsub : l'.Sublist l)
    (h : s.Feasible (l.map Prod.snd) x) : s.Feasible (l'.map Prod.snd) x := by
  obtain ⟨ha, hi⟩ := Solver.feasible_iff.1 h
  exact Solver.feasible_iff.2 ⟨ha, fun e he ht => hi e he ((hsub.map Prod.snd).subset ht)⟩

/-- **The deletion loop.** Without any one of the items that are left the solver can be satisfied, when this is so
for the items kept so far. -/
theorem deleteItems_needed {kept rest : List (ι × ℕ)}
    (h : ∀ k < kept.length, ∃ x, s.Feasible ((kept.eraseIdx k ++ rest).map Prod.snd) x) :
    ∀ k < (deleteItems z3 s kept rest).length,
      ∃ x, s.Feasible (((deleteItems z3 s kept rest).eraseIdx k).map Prod.snd) x := by
  induction rest generalizing kept with
  | nil => simpa [deleteItems] using h
  | cons t rest ih =>
    rw [deleteItems]
    split_ifs with hc
    · apply ih
      intro k hk
      obtain ⟨x, hx⟩ := h k hk
      exact ⟨x, feasible_sublist (List.Sublist.append_left (List.sublist_cons_self t rest) _) hx⟩
    · apply ih
      intro k hk
      rw [List.length_append, List.length_singleton] at hk
      rcases Nat.lt_succ_iff_lt_or_eq.1 hk with hlt | rfl
      · obtain ⟨x, hx⟩ := h k hlt
        rw [List.eraseIdx_append_of_lt_length hlt, List.append_assoc, List.singleton_append]
        exact ⟨x, hx⟩
      · -- the solver has found a model without `t`
        obtain ⟨x, hx⟩ := Option.ne_none_iff_exists'.1 fun hnone => hc (Option.isNone_iff_eq_none.2 hnone)
        rw [List.eraseIdx_append_of_length_le le_rfl, Nat.sub_self]
        exact ⟨x, by simpa using z3.sound _ _ _ hx⟩

theorem minUnsat_needed (h : (minUnsat z3 s items translate).1 = true) :
    ∀ k < (minUnsat z3 s items translate).2.1.length,
      Satisfiable s translate ((minUnsat z3 s items translate).2.1.eraseIdx k) := by
  unfold minUnsat at h ⊢
  dsimp only at h ⊢
  split at h
  · simp at h
  · dsimp only
    set core := z3.unsatCore (s.addTriggers items translate) ((items.zipIdx s.fresh).map Prod.snd)
    set triggers :=
      if items.length > 10 then (items.zipIdx s.fresh).filter fun t => t.2 ∈ core else items.zipIdx s.fresh
      with htr
    have hsub : triggers.Sublist (items.zipIdx s.fresh) := by
      rw [htr]
      split_ifs
      · exact List.filter_sublist
      · exact List.Sublist.refl _
    have hleft : (deleteItems z3 (s.addTriggers items translate) [] triggers).Sublist (items.zipIdx s.fresh) :=
      (deleteItems_sublist [] triggers).trans hsub
    intro k hk
    rw [List.length_map] at hk
    have hnone : ∀ k < ([] : List (ι × ℕ)).length,
        ∃ x, (s.addTriggers items translate).Feasible ((([] : List (ι × ℕ)).eraseIdx k ++ triggers).map Prod.snd) x := by
      simp
    obtain ⟨x, hx⟩ := deleteItems_needed hnone k hk
    rw [List.eraseIdx_map]
    have hmem : ∀ p ∈ (deleteItems z3 (s.addTriggers items translate) [] triggers).eraseIdx k,
        p ∈ items.zipIdx s.fresh := fun p hp => hleft.subset ((List.eraseIdx_sublist _ _).subset hp)
    obtain ⟨hs, hall⟩ := (Solver.feasible_addTriggers hmem).1 hx
    refine ⟨x, hs, fun i hi => ?_⟩
    obtain ⟨p, hp, rfl⟩ := List.mem_map.1 hi
    exact hall p hp

/-- an old trigger is not one of the new ones, so assuming it means what it did -/
theorem feasible_minUnsat_assuming {es : List (Formula α)} {ts : List ℕ} (ht : ∀ t ∈ ts, t < s.fresh) {x : α} :
    (es.foldl Solver.add (minUnsat z3 s items translate).2.2).Feasible ts x ↔ (es.foldl Solver.add s).Feasible ts x := by
  induction es using List.reverseRecOn with
  | nil =>
    have heq : (minUnsat z3 s items translate).2.2 = s.addTriggers items translate := by
      unfold minUnsat
      dsimp only
      split <;> rfl
    rw [List.foldl_nil, List.foldl_nil, heq, Solver.feasible_iff, Solver.feasible_iff]
    apply and_congr_right
    intro _
    constructor
    · exact fun h e he => h e (List.mem_append_left _ he)
    · intro h e he hts
      rcases List.mem_append.1 he with he | he
      · exact h e he hts
      · obtain ⟨p, hp, rfl⟩ := List.mem_map.1 he
        exact absurd (ht _ hts) (Nat.not_lt.2 (List.le_snd_of_mem_zipIdx hp))
  | append_singleton es e ih =>
    rw [List.foldl_append, List.foldl_append]
    simp only [List.foldl_cons, List.foldl_nil, Solver.feasible_add, ih]

/-- **Minimal cores.** `min_unsat` answers false and leaves the items alone when they can be satisfied. Otherwise it
answers true and leaves a part of them, in their order, that cannot be satisfied, but can without any one of them.
What else the solver is asked later, it answers as before. -/
theorem minUnsat_core (z3 : Oracle α) (s : Solver α) (items : List ι) (translate : ι → Formula α) :
    (Satisfiable s translate items →
      (minUnsat z3 s items translate).1 = false ∧ (minUnsat z3 s items translate).2.1 = items) ∧
    (¬Satisfiable s translate items →
      (minUnsat z3 s items translate).1 = true ∧ (minUnsat z3 s items translate).2.1.Sublist items ∧
      ¬Satisfiable s translate (minUnsat z3 s items translate).2.1 ∧
      ∀ k < (minUnsat z3 s items translate).2.1.length,
        Satisfiable s translate ((minUnsat z3 s items translate).2.1.eraseIdx k)) ∧
    ∀ (es : List (Formula α)) (ts : List ℕ), (∀ t ∈ ts, t < s.fresh) →
      ((∃ x, (es.foldl Solver.add (minUnsat z3 s items translate).2.2).Feasible ts x) ↔
        ∃ x, (es.foldl Solver.add s).Feasible ts x) := by
  refine ⟨fun hsat => ?_, fun hunsat => ?_, fun es ts ht => exists_congr fun x => feasible_minUnsat_assuming ht⟩
  · cases h : (minUnsat z3 s items translate).1 with
    | false => exact ⟨rfl, (minUnsat_false h).1⟩
    | true =>
      obtain ⟨x, hx, hall⟩ := hsat
      obtain ⟨i, hi, hf⟩ := minUnsat_true h hx
      rw [hall i (minUnsat_sublist.subset hi)] at hf
      exact absurd hf (by simp)
  · cases h : (minUnsat z3 s items translate).1 with
    | false => exact absurd (minUnsat_false h).2 hunsat
    | true =>
      refine ⟨rfl, minUnsat_sublist, ?_, minUnsat_needed h⟩
      rintro ⟨x, hx, hall⟩
      obtain ⟨i, hi, hf⟩ := minUnsat_true h hx
      rw [hall i hi] at hf
      exact absurd hf (by simp)

end Liss.Synthesis
