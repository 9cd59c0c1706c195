/-
Contraction of a relation: the elements that are not kept are replaced by their successors. `Link u ds v` says that a
path leads from `u` over the elements `ds`, none of them kept, to `v`; a contraction of `E` relates `u` to exactly the
kept `v` it has a link to.

- `through_closed`: a set that is closed under links to kept elements holds every kept element reachable from it;
- `contraction_paths`: from an element where the contraction is exact, both relations have the same sequences of kept
  elements.
-/
import Mathlib.Tactic

namespace Liss

variable {α : Type*} (E : α → α → Prop) (kept : α → Bool)

/-- a path from `u` over `ds` to `v`, where nothing on the way is kept -/
def Link (u : α) (ds : List α) (v : α) : Prop := List.IsChain E (u :: (ds ++ [v])) ∧ ∀ d ∈ ds, kept d = false

/-- `x` is `u`, or an element that is not kept and has a link from `u` -/
def Through (u x : α) : Prop := x = u ∨ (kept x = false ∧ ∃ ds, Link E kept u ds x)

variable {E kept}

theorem link_nil {u v : α} : Link E kept u [] v ↔ E u v := by simp [Link]

theorem link_cons {u d v : α} {ds : List α} :
    Link E kept u (d :: ds) v ↔ E u d ∧ kept d = false ∧ Link E kept d ds v := by
  simp only [Link, List.cons_append, List.isChain_cons_cons, List.mem_cons, forall_eq_or_imp]
  tauto

theorem link_snoc {u d v : α} {ds : List α} :
    Link E kept u (ds ++ [d]) v ↔ Link E kept u ds d ∧ kept d = false ∧ E d v := by
  induction ds generalizing u with
  | nil => simp [link_cons, link_nil]
  | cons x ds ih => simp only [List.cons_append, link_cons, ih, and_assoc]

/-- two links joined at an element that is not kept -/
theorem link_append {u d v : α} {ds ds' : List α} :
    Link E kept u (ds ++ d :: ds') v ↔ Link E kept u ds d ∧ kept d = false ∧ Link E kept d ds' v := by
  induction ds generalizing u with
  | nil => simp [link_cons, link_nil]
  | cons x ds ih => simp only [List.cons_append, link_cons, ih, and_assoc]

/-- the first step of a link -/
theorem Link.exists_first {u v : α} {ds : List α} (h : Link E kept u ds v) : ∃ x, E u x := by
  cases ds with
  | nil => exact ⟨v, link_nil.1 h⟩
  | cons d ds => exact ⟨d, (link_cons.1 h).1⟩

/-- the last step -/
theorem Link.exists_last {u v : α} {ds : List α} (h : Link E kept u ds v) : ∃ x, E x v := by
  induction ds generalizing u with
  | nil => exact ⟨u, link_nil.1 h⟩
  | cons d ds ih => exact ih (link_cons.1 h).2.2

/-- a link to `w` passes by every kept element other than `w` -/
theorem Link.way {u v w : α} {ds : List α} (h : Link E kept u ds w) (hv : kept v = true) :
    (∀ d ∈ u :: ds, Relation.ReflTransGen (fun a b => E a b ∧ b ≠ v) u d) ∧
      (w ≠ v → Relation.ReflTransGen (fun a b => E a b ∧ b ≠ v) u w) := by
  induction ds generalizing u with
  | nil =>
    refine ⟨fun d hd => ?_, fun hw => .single ⟨link_nil.1 h, hw⟩⟩
    rw [List.mem_singleton.1 hd]
  | cons x ds ih =>
    obtain ⟨hx, hxk, hl⟩ := link_cons.1 h
    have hne : x ≠ v := by
      intro hxv
      simp [← hxv, hxk] at hv
    obtain ⟨hall, hlast⟩ := ih hl
    refine ⟨fun d hd => ?_, fun hw => .head ⟨hx, hne⟩ (hlast hw)⟩
    rcases List.mem_cons.1 hd with rfl | hd
    · exact .refl
    · exact .head ⟨hx, hne⟩ (hall d hd)

/-- the same link in a graph of which some elements lead on as before, and the others at once to all kept elements that
they have a link to -/
theorem Link.mixed {E' : α → α → Prop}
    (h : ∀ u, (∀ v, E u v → E' u v) ∨ ∀ ds v, Link E kept u ds v → kept v = true → E' u v) {u v : α} {ds : List α}
    (hl : Link E kept u ds v) (hk : kept v = true) : ∃ ds', Link E' kept u ds' v := by
  induction ds generalizing u with
  | nil =>
    rcases h u with hu | hu
    · exact ⟨[], link_nil.2 (hu v (link_nil.1 hl))⟩
    · exact ⟨[], link_nil.2 (hu [] v hl hk)⟩
  | cons d ds ih =>
    obtain ⟨hd, hdk, hl'⟩ := link_cons.1 hl
    rcases h u with hu | hu
    · obtain ⟨ds', hds'⟩ := ih hl'
      exact ⟨d :: ds', link_cons.2 ⟨hu d hd, hdk, hds'⟩⟩
    · exact ⟨[], link_nil.2 (hu (d :: ds) v hl hk)⟩

/-- one step further -/
theorem Through.link {u x v : α} (h : Through E kept u x) (hv : E x v) : ∃ ds, Link E kept u ds v := by
  rcases h with rfl | ⟨hx, ds, hl⟩
  · exact ⟨[], link_nil.2 hv⟩
  · exact ⟨ds ++ [x], link_snoc.2 ⟨hl, hx, hv⟩⟩

/-- **Closure.** -/
theorem through_closed {S : α → Prop} (hS : ∀ u ds v, S u → Link E kept u ds v → kept v = true → S v) {a x : α}
    (ha : S a) (h : Relation.ReflTransGen E a x) : ∃ u, S u ∧ Through E kept u x := by
  induction h with
  | refl => exact ⟨a, ha, Or.inl rfl⟩
  | @tail x v _ hv ih =>
    obtain ⟨u, hu, ht⟩ := ih
    obtain ⟨ds, hl⟩ := ht.link hv
    cases hk : kept v with
    | true => exact ⟨v, hS u ds v hu hl hk, Or.inl rfl⟩
    | false => exact ⟨u, hu, Or.inr ⟨hk, ds, hl⟩⟩

variable {C : α → α → Prop} {S : α → Prop}

theorem exists_contracted (hC : ∀ u v, S u → (C u v ↔ kept v = true ∧ ∃ ds, Link E kept u ds v))
    (hS : ∀ u v, S u → C u v → S v) {u x : α} {p : List α} (hu : S u) (ht : Through E kept u x)
    (hp : List.IsChain E (x :: p)) : List.IsChain C (u :: p.filter kept) := by
  induction p generalizing u x with
  | nil => exact List.isChain_singleton u
  | cons v p ih =>
    obtain ⟨hv, hp⟩ := List.isChain_cons_cons.1 hp
    obtain ⟨ds, hl⟩ := ht.link hv
    cases hk : kept v with
    | true =>
      have hc : C u v := (hC u v hu).2 ⟨hk, ds, hl⟩
      rw [List.filter_cons_of_pos hk]
      exact List.isChain_cons_cons.2 ⟨hc, ih (hS u v hu hc) (Or.inl rfl) hp⟩
    | false =>
      rw [List.filter_cons_of_neg (by simp [hk])]
      exact ih hu (Or.inr ⟨hk, ds, hl⟩) hp

theorem exists_expanded (hC : ∀ u v, S u → (C u v ↔ kept v = true ∧ ∃ ds, Link E kept u ds v))
    (hS : ∀ u v, S u → C u v → S v) {u : α} {p : List α} (hu : S u) (hp : List.IsChain C (u :: p)) :
    (∃ q, List.IsChain E (u :: q) ∧ q.filter kept = p) ∧ ∀ v ∈ p, kept v = true := by
  induction p generalizing u with
  | nil => exact ⟨⟨[], List.isChain_singleton u, rfl⟩, by simp⟩
  | cons v p ih =>
    obtain ⟨hc, hp⟩ := List.isChain_cons_cons.1 hp
    obtain ⟨hk, ds, hl, hds⟩ := (hC u v hu).1 hc
    obtain ⟨⟨q, hq, hf⟩, hall⟩ := ih (hS u v hu hc) hp
    have hnone : ds.filter kept = [] := List.filter_eq_nil_iff.2 fun d hd => by simp [hds d hd]
    refine ⟨⟨ds ++ v :: q, ?_, ?_⟩, by simpa [hk] using hall⟩
    · have : u :: (ds ++ v :: q) = (u :: ds) ++ v :: q := rfl
      rw [this, List.isChain_split]
      exact ⟨hl, hq⟩
    · rw [List.filter_append, hnone, List.filter_cons_of_pos hk, hf, List.nil_append]

/-- **The sequences of kept elements are the same.** -/
theorem contraction_paths (hC : ∀ u v, S u → (C u v ↔ kept v = true ∧ ∃ ds, Link E kept u ds v))
    (hS : ∀ u v, S u → C u v → S v) {u : α} (hu : S u) (ks : List α) :
    (∃ p, List.IsChain E (u :: p) ∧ p.filter kept = ks) ↔ ∃ p, List.IsChain C (u :: p) ∧ p.filter kept = ks := by
  constructor
  · rintro ⟨p, hp, rfl⟩
    exact ⟨p.filter kept, exists_contracted hC hS hu (Or.inl rfl) hp, by simp⟩
  · rintro ⟨p, hp, rfl⟩
    obtain ⟨⟨q, hq, hf⟩, hall⟩ := exists_expanded hC hS hu hp
    refine ⟨q, hq, ?_⟩
    rw [hf, List.filter_eq_self.2 hall]

end Liss
