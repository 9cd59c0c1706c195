/-
The runs of a list: its maximal parts without separators, in order.

- `runs_append_cons`, `runs_of_forall`: a list splits at a separator, and one without separators is a single run; with
  `split_induction` every property of runs follows from the two;
- `mem_runs`: a run is a non-empty part of the list without separators;
- `exists_run`: every such part is inside a run.
-/
import Mathlib.Data.List.Infix

namespace Liss

variable {α : Type*} {p : α → Bool} {l r : List α}

/-- the non-empty parts between separators -/
def runs (p : α → Bool) (l : List α) : List (List α) := (l.splitOnP p).filter fun r => !r.isEmpty

theorem runs_append_cons {c : α} (hc : p c = true) (x y : List α) : runs p (x ++ c :: y) = runs p x ++ runs p y := by
  rw [runs, List.splitOnP_append_cons x y hc, List.filter_append, runs, runs]

@[simp] theorem runs_nil (p : α → Bool) : runs p [] = [] := by simp [runs]

theorem runs_of_forall (h : ∀ x ∈ l, p x = false) (hne : l ≠ []) : runs p l = [l] := by
  rw [runs, List.splitOnP_eq_singleton h]
  simp [hne]

/-- a list has no separator, or splits at the first one -/
theorem split_induction (p : α → Bool) {P : List α → Prop} (free : ∀ l, (∀ x ∈ l, p x = false) → P l)
    (split : ∀ x c y, (∀ a ∈ x, p a = false) → p c = true → P y → P (x ++ c :: y)) (l : List α) : P l := by
  suffices h : ∀ l x : List α, (∀ a ∈ x, p a = false) → P (x ++ l) from h l [] (by simp)
  intro l
  induction l with
  | nil => exact fun x hx => free _ (by simpa using hx)
  | cons c l ih =>
    intro x hx
    cases hc : p c with
    | true => exact split x c l hx hc (ih [] (by simp))
    | false =>
      have hx' : ∀ a ∈ x ++ [c], p a = false := by
        intro a ha
        rcases List.mem_append.1 ha with ha | ha
        · exact hx a ha
        · rw [List.mem_singleton.1 ha, hc]
      simpa using ih (x ++ [c]) hx'

/-- a run is a non-empty part without separators -/
theorem mem_runs (h : r ∈ runs p l) : r ≠ [] ∧ r <:+: l ∧ ∀ x ∈ r, p x = false := by
  induction l using split_induction p with
  | free l hl =>
    cases l with
    | nil => simp at h
    | cons a l =>
      rw [runs_of_forall hl (List.cons_ne_nil a l), List.mem_singleton] at h
      rw [h]
      exact ⟨List.cons_ne_nil a l, List.infix_rfl, hl⟩
  | split x c y hx hc ih =>
    rw [runs_append_cons hc, List.mem_append] at h
    rcases h with h | h
    · cases x with
      | nil => simp at h
      | cons a x =>
        rw [runs_of_forall hx (List.cons_ne_nil a x), List.mem_singleton] at h
        rw [h]
        exact ⟨List.cons_ne_nil a x, (List.prefix_append _ _).isInfix, hx⟩
    · obtain ⟨hne, hin, hall⟩ := ih h
      exact ⟨hne, hin.trans ((List.suffix_cons c y).trans (List.suffix_append x _)).isInfix, hall⟩

/-- a part that does not contain the element at which the list is split is on one side of it -/
theorem infix_append_cons {x y : List α} {c : α} (h : r <:+: x ++ c :: y) (hc : c ∉ r) : r <:+: x ∨ r <:+: y := by
  obtain ⟨pre, post, heq⟩ := h
  rw [List.append_assoc, List.append_eq_append_iff] at heq
  rcases heq with ⟨x', rfl, h⟩ | ⟨r', rfl, h⟩
  · -- the part begins on the left
    rcases List.append_eq_append_iff.1 h with ⟨x'', rfl, -⟩ | ⟨r', rfl, h'⟩
    · exact Or.inl ⟨pre, x'', by simp⟩
    · cases r' with
      | nil => exact Or.inl ⟨pre, [], by simp⟩
      | cons a r' =>
        rw [List.cons_append, List.cons.injEq] at h'
        rw [h'.1] at hc
        simp at hc
  · cases r' with
    | nil =>
      rw [List.nil_append] at h
      cases r with
      | nil => exact Or.inl (List.nil_infix)
      | cons a r =>
        rw [List.cons_append, List.cons.injEq] at h
        rw [h.1] at hc
        simp at hc
    | cons a r' =>
      rw [List.cons_append, List.cons.injEq] at h
      exact Or.inr ⟨r', post, by rw [h.2]; simp⟩

/-- every part without separators is inside a run -/
theorem exists_run (hne : r ≠ []) (hr : ∀ x ∈ r, p x = false) (h : r <:+: l) : ∃ run ∈ runs p l, r <:+: run := by
  induction l using split_induction p with
  | free l hl =>
    have hl' : l ≠ [] := by
      rintro rfl
      exact hne (List.infix_nil.1 h)
    exact ⟨l, by rw [runs_of_forall hl hl']; exact List.mem_singleton_self l, h⟩
  | split x c y hx hc ih =>
    rw [runs_append_cons hc]
    have hcr : c ∉ r := fun hcr => by simp [hr c hcr] at hc
    rcases infix_append_cons h hcr with h | h
    · have hx' : x ≠ [] := by
        rintro rfl
        exact hne (List.infix_nil.1 h)
      exact ⟨x, by rw [runs_of_forall hx hx']; simp, h⟩
    · obtain ⟨run, hrun, hin⟩ := ih h
      exact ⟨run, List.mem_append_right _ hrun, hin⟩

end Liss
