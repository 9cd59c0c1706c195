/-
A solver with assertions over a type of interpretations. Some assertions are guarded by a trigger constant, which can be
assumed when the solver is asked; an oracle answers whether there is an interpretation.

- `Solver`: the assertions, with a trigger constant that none of them uses yet;
- `Feasible`: an interpretation of the assertions in which the assumed triggers are true;
- `feasible_iff`: only the implications of assumed triggers count;
- `Oracle`: sound and complete answers, and unsatisfiable cores; `ideal` and `preferring` are two of them;
- `feasible_addTriggers`: under new triggers an interpretation satisfies the formulas of those that are assumed;
- `Optimizer`: an interpretation of least weight.
-/
import Mathlib.Data.List.Basic
import Mathlib.Order.WellFounded

namespace Liss

/-- a formula is known by its truth values -/
abbrev Formula (α : Type*) := α → Bool

structure Solver (α : Type*) where
  asserted : List (Formula α)
  /-- implications from trigger constants -/
  implied : List (ℕ × Formula α) := []
  /-- the next trigger constant -/
  fresh : ℕ := 0
  lt_fresh : ∀ e ∈ implied, e.1 < fresh := by simp

namespace Solver

variable {α ι : Type*} {s : Solver α} {x : α} {ts : List ℕ}

def add (s : Solver α) (e : Formula α) : Solver α := { s with asserted := s.asserted ++ [e] }

/-- a fresh trigger for each item, which implies its translation -/
def addTriggers (s : Solver α) (items : List ι) (translate : ι → Formula α) : Solver α where
  asserted := s.asserted
  implied := s.implied ++ (items.zipIdx s.fresh).map fun p => (p.2, translate p.1)
  fresh := s.fresh + items.length
  lt_fresh := by
    intro e he
    rcases List.mem_append.1 he with he | he
    · exact Nat.lt_add_right _ (s.lt_fresh e he)
    · obtain ⟨p, hp, rfl⟩ := List.mem_map.1 he
      have := List.snd_lt_of_mem_zipIdx hp
      omega

/-- the interpretation satisfies all assertions, for values of the triggers under which the assumed ones are true -/
def Feasible (s : Solver α) (ts : List ℕ) (x : α) : Prop :=
  ∃ trigger : ℕ → Bool, (∀ e ∈ s.asserted, e x = true) ∧ (∀ e ∈ s.implied, trigger e.1 = true → e.2 x = true) ∧
    ∀ t ∈ ts, trigger t = true

theorem feasible_iff :
    s.Feasible ts x ↔ (∀ e ∈ s.asserted, e x = true) ∧ ∀ e ∈ s.implied, e.1 ∈ ts → e.2 x = true := by
  constructor
  · rintro ⟨trigger, ha, hi, ht⟩
    exact ⟨ha, fun e he hts => hi e he (ht _ hts)⟩
  · rintro ⟨ha, hi⟩
    exact ⟨fun t => decide (t ∈ ts), ha, fun e he hts => hi e he (by simpa using hts), fun t ht => by simpa using ht⟩

theorem feasible_nil : s.Feasible [] x ↔ ∀ e ∈ s.asserted, e x = true := by simp [feasible_iff]

theorem feasible_add {e : Formula α} : (s.add e).Feasible ts x ↔ s.Feasible ts x ∧ e x = true := by
  simp only [feasible_iff, add, List.mem_append, List.mem_singleton, or_imp, forall_and, forall_eq]
  exact and_right_comm

/-- the triggers are different -/
theorem mem_of_trigger {items : List ι} {n : ℕ} {kept : List (ι × ℕ)} (hk : ∀ p ∈ kept, p ∈ items.zipIdx n) {p : ι × ℕ}
    (hp : p ∈ items.zipIdx n) (h : p.2 ∈ kept.map Prod.snd) : p ∈ kept := by
  obtain ⟨q, hq, heq⟩ := List.mem_map.1 h
  have h1 := List.fst_eq_of_mem_zipIdx hp
  have h2 := List.fst_eq_of_mem_zipIdx (hk q hq)
  obtain rfl : q = p := Prod.ext (by rw [h1, h2]; congr 1; omega) heq
  exact hq

theorem feasible_addTriggers {items : List ι} {translate : ι → Formula α} {kept : List (ι × ℕ)}
    (hk : ∀ p ∈ kept, p ∈ items.zipIdx s.fresh) :
    (s.addTriggers items translate).Feasible (kept.map Prod.snd) x ↔
      s.Feasible [] x ∧ ∀ p ∈ kept, translate p.1 x = true := by
  rw [feasible_iff, feasible_nil]
  apply and_congr_right
  intro _
  constructor
  · intro h p hp
    exact h (p.2, translate p.1) (List.mem_append_right _ (List.mem_map_of_mem (hk p hp))) (List.mem_map_of_mem hp)
  · intro h e he ht
    rcases List.mem_append.1 he with he | he
    · -- an old trigger is not one of the new ones
      obtain ⟨p, hp, heq⟩ := List.mem_map.1 ht
      have h1 := s.lt_fresh e he
      have h2 := List.le_snd_of_mem_zipIdx (hk p hp)
      omega
    · obtain ⟨p, hp, rfl⟩ := List.mem_map.1 he
      exact h p (mem_of_trigger hk hp ht)

/-- without assumptions triggers change nothing -/
theorem feasible_addTriggers_nil {items : List ι} {translate : ι → Formula α} :
    (s.addTriggers items translate).Feasible [] x ↔ s.Feasible [] x := by
  simp only [feasible_nil, addTriggers]

end Solver

/-! ## Answers -/

/-- answers to the question whether assertions and assumed triggers can be satisfied together -/
structure Oracle (α : Type*) where
  /-- an interpretation, or `none` for `unsat` -/
  check : Solver α → List ℕ → Option α
  /-- after `unsat` -/
  unsatCore : Solver α → List ℕ → List ℕ
  sound : ∀ s ts x, check s ts = some x → s.Feasible ts x
  complete : ∀ s ts, check s ts = none → ∀ x, ¬s.Feasible ts x
  core_subset : ∀ s ts, check s ts = none → unsatCore s ts ⊆ ts
  core_unsat : ∀ s ts, check s ts = none → ∀ x, ¬s.Feasible (unsatCore s ts) x

open Classical in
/-- some interpretation whenever there is one -/
noncomputable def Oracle.ideal (α : Type*) : Oracle α where
  check s ts := if h : ∃ x, s.Feasible ts x then some h.choose else none
  unsatCore _ ts := ts
  sound := by
    intro s ts x h
    split_ifs at h with hx
    · rw [← Option.some.inj h]
      exact hx.choose_spec
  complete := by
    intro s ts h
    split_ifs at h with hx
    exact not_exists.1 hx
  core_subset := fun _ _ _ => List.Subset.refl _
  core_unsat := by
    intro s ts h
    split_ifs at h with hx
    exact not_exists.1 hx

namespace Oracle

variable {α : Type*} {s : Solver α} {ts : List ℕ} {x : α} {first : List α}

theorem check_eq_none (z3 : Oracle α) (h : ∀ x, ¬s.Feasible ts x) : z3.check s ts = none :=
  Option.eq_none_iff_forall_ne_some.2 fun x hx => h x (z3.sound s ts x hx)

open Classical in
/-- the first of the given interpretations that is one, or else any -/
noncomputable def preferring (first : List α) : Oracle α where
  check s ts := (first.find? fun x => s.Feasible ts x).or ((ideal α).check s ts)
  unsatCore _ ts := ts
  sound := by
    intro s ts x h
    rcases Option.or_eq_some_iff.1 h with hfirst | ⟨-, hideal⟩
    · simpa using List.find?_some hfirst
    · exact (ideal α).sound s ts x hideal
  complete := fun s ts h => (ideal α).complete s ts (Option.or_eq_none_iff.1 h).2
  core_subset := fun _ _ _ => List.Subset.refl _
  core_unsat := fun s ts h => (ideal α).complete s ts (Option.or_eq_none_iff.1 h).2

theorem check_preferring (h : s.Feasible ts x) : (preferring (x :: first)).check s ts = some x := by
  simp [preferring, h]

theorem check_preferring_next (h : ¬s.Feasible ts x) :
    (preferring (x :: first)).check s ts = (preferring first).check s ts := by
  simp [preferring, h]

end Oracle

/-! ## Optimisation -/

/-- answers with an interpretation of a formula that loses the least weight -/
structure Optimizer (α : Type*) where
  /-- an interpretation, or `none` for any other answer than `sat` -/
  check : Formula α → (α → ℕ) → Option α
  sound : ∀ hard weight x, check hard weight = some x → hard x = true
  least : ∀ hard weight x, check hard weight = some x → ∀ y, hard y = true → weight x ≤ weight y

open Classical in
/-- some interpretation of least weight whenever there is one -/
noncomputable def Optimizer.ideal (α : Type*) : Optimizer α where
  check hard weight :=
    if h : {x | hard x = true}.Nonempty then some (Function.argminOn weight {x | hard x = true} h) else none
  sound := by
    intro hard weight x h
    by_cases hx : {x | hard x = true}.Nonempty
    · rw [dif_pos hx] at h
      rw [← Option.some.inj h]
      exact Function.argminOn_mem weight {x | hard x = true} hx
    · rw [dif_neg hx] at h
      exact absurd h (Option.some_ne_none x).symm
  least := by
    intro hard weight x h y hy
    have hx : {x | hard x = true}.Nonempty := ⟨y, hy⟩
    rw [dif_pos hx] at h
    rw [← Option.some.inj h]
    exact Function.argminOn_le weight {x | hard x = true} hy

end Liss
