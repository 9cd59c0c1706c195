/-
Histories of events in several classes (the steps of several threads): the last event of a class and the events since.
A history grows at its end, so its lemmas are about `ev ++ [x]`, and proofs about it go by induction from the end.

- `since_eq_some`: `since key T ev` is the last event of class `T` with the events after it;
- `since_snoc`: how it changes with one more event.
-/
import Mathlib.Tactic

namespace Liss

/-- where an element of a list stands that has grown by one -/
theorem snoc_eq_append_cons {α : Type*} {ev pre post : List α} {x y : α} :
    ev ++ [y] = pre ++ x :: post ↔
      (ev = pre ∧ y = x ∧ post = []) ∨ ∃ post', post = post' ++ [y] ∧ ev = pre ++ x :: post' := by
  constructor
  · intro h
    rcases List.eq_nil_or_concat post with rfl | ⟨post', z, rfl⟩
    · obtain ⟨hev, hlast⟩ := List.append_inj' h rfl
      exact Or.inl ⟨hev, List.singleton_inj.1 hlast, rfl⟩
    · have h' : ev ++ [y] = (pre ++ x :: post') ++ [z] := by simpa using h
      obtain ⟨hev, hlast⟩ := List.append_inj' h' rfl
      exact Or.inr ⟨post', by rw [List.singleton_inj.1 hlast]; simp, hev⟩
  · rintro (⟨rfl, rfl, rfl⟩ | ⟨post', rfl, rfl⟩) <;> simp

variable {α κ : Type*} [DecidableEq κ] (key : α → κ)

/-- one more event -/
def sinceStep (T : κ) (st : Option (α × List α)) (x : α) : Option (α × List α) :=
  if key x = T then some (x, []) else st.map fun p => (p.1, p.2 ++ [x])

/-- the last event of class `T` in `ev`, and the events after it -/
def since (T : κ) (ev : List α) : Option (α × List α) := ev.foldl (sinceStep key T) none

@[simp] theorem since_nil (T : κ) : since key T [] = none := rfl

theorem since_snoc (T : κ) (ev : List α) (x : α) :
    since key T (ev ++ [x]) = if key x = T then some (x, []) else (since key T ev).map fun p => (p.1, p.2 ++ [x]) := by
  simp [since, sinceStep, List.foldl_append]

variable {key}

theorem since_snoc_own {T : κ} {ev : List α} {x : α} (h : key x = T) : since key T (ev ++ [x]) = some (x, []) := by
  rw [since_snoc, if_pos h]

theorem since_snoc_other {T : κ} {ev : List α} {x y : α} {b : List α} (h : key x ≠ T) :
    since key T (ev ++ [x]) = some (y, b) ↔ ∃ b', since key T ev = some (y, b') ∧ b = b' ++ [x] := by
  rw [since_snoc, if_neg h, Option.map_eq_some_iff]
  constructor
  · rintro ⟨⟨y', b'⟩, hs, heq⟩
    simp only [Prod.mk.injEq] at heq
    obtain ⟨rfl, rfl⟩ := heq
    exact ⟨b', hs, rfl⟩
  · rintro ⟨b', hs, rfl⟩
    exact ⟨(y, b'), hs, rfl⟩

theorem since_eq_some {T : κ} {ev : List α} {x : α} {b : List α} :
    since key T ev = some (x, b) ↔ ∃ pre, ev = pre ++ x :: b ∧ key x = T ∧ ∀ y ∈ b, key y ≠ T := by
  induction ev using List.reverseRecOn generalizing b with
  | nil => simp
  | append_singleton ev y ih =>
    by_cases hy : key y = T
    · rw [since_snoc_own hy]
      constructor
      · intro h
        simp only [Option.some.injEq, Prod.mk.injEq] at h
        obtain ⟨rfl, rfl⟩ := h
        exact ⟨ev, rfl, hy, by simp⟩
      · rintro ⟨pre, heq, -, hb⟩
        rcases snoc_eq_append_cons.1 heq with ⟨-, rfl, rfl⟩ | ⟨b', rfl, -⟩
        · rfl
        · exact absurd hy (hb y (by simp))
    · rw [since_snoc_other hy]
      constructor
      · rintro ⟨b', hs, rfl⟩
        obtain ⟨pre, rfl, hx, hb'⟩ := ih.1 hs
        refine ⟨pre, by simp, hx, fun z hz => ?_⟩
        rcases List.mem_append.1 hz with hz | hz
        · exact hb' z hz
        · rw [List.mem_singleton.1 hz]
          exact hy
      · rintro ⟨pre, heq, hx, hb⟩
        rcases snoc_eq_append_cons.1 heq with ⟨-, rfl, -⟩ | ⟨b', rfl, hev⟩
        · exact absurd hx hy
        · exact ⟨b', ih.2 ⟨pre, hev, hx, fun w hw => hb w (by simp [hw])⟩, rfl⟩

end Liss
