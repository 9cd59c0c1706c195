/-
Simple paths from a root `r`, and the edges that lead back onto them.

`RootPath E r p`: the list `p` is a simple path from `r`, its last element first. An edge from `u` leads back to `v` if
some simple path to `u` passes through `v` (`OnPath`), and for sure if all of them do (`Dominates`). A graph is
reducible if every cycle has an edge to a dominator of its source.

- `exists_rootPath`: every reachable element is at the end of a simple path;
- `dominates_of_onPath`: in a reducible graph both notions of leading back are one;
- `forward_of_reducible`: there the simple paths use no edge that leads back;
- `forward_reach_congr`: graphs that agree on the reachable elements agree on what is reached going forward;
- `not_transGen_self`: a relation along which a number grows has no cycle.
-/
import Mathlib.Tactic

namespace Liss

variable {α : Type*} {E : α → α → Prop} {r : α}

inductive RootPath (E : α → α → Prop) (r : α) : List α → Prop
  | root : RootPath E r [r]
  | step {u v : α} {p : List α} (hp : RootPath E r (u :: p)) (he : E u v) (hv : v ∉ u :: p) : RootPath E r (v :: u :: p)

/-- some simple path to `u` passes through `v`, which may be `u` itself -/
def OnPath (E : α → α → Prop) (r u v : α) : Prop := ∃ p, RootPath E r (u :: p) ∧ v ∈ u :: p

/-- every simple path to `u` passes through `v` -/
def Dominates (E : α → α → Prop) (r v u : α) : Prop := ∀ p, RootPath E r (u :: p) → v ∈ u :: p

/-- the edges that lead to no dominator have no cycle -/
def Reducible (E : α → α → Prop) (r : α) : Prop :=
  ∀ v, Relation.ReflTransGen E r v → ¬Relation.TransGen (fun a b => E a b ∧ ¬Dominates E r b a) v v

/-- the edges that lead forward -/
def Forward (E : α → α → Prop) (r u v : α) : Prop := E u v ∧ ¬OnPath E r u v

/-! ## Simple paths -/

theorem RootPath.nodup {p : List α} (h : RootPath E r p) : p.Nodup := by
  induction h with
  | root => simp
  | step _ _ hv ih => exact List.nodup_cons.2 ⟨hv, ih⟩

theorem RootPath.root_mem {p : List α} (h : RootPath E r p) : r ∈ p := by
  induction h with
  | root => simp
  | step _ _ _ ih => exact List.mem_cons_of_mem _ ih

theorem RootPath.root_suffix {p : List α} (h : RootPath E r p) : [r] <:+ p := by
  induction h with
  | root => exact List.suffix_refl _
  | step _ _ _ ih => exact ih.trans (List.suffix_cons _ _)

theorem RootPath.reachable {p : List α} (h : RootPath E r p) : ∀ x ∈ p, Relation.ReflTransGen E r x := by
  induction h with
  | root => simpa using Relation.ReflTransGen.refl
  | step _ he _ ih =>
    intro x hx
    rcases List.mem_cons.1 hx with rfl | hx
    · exact (ih _ List.mem_cons_self).tail he
    · exact ih x hx

/-- what is left of a simple path when its last elements are taken off -/
theorem RootPath.suffix {p q : List α} (h : RootPath E r p) (hs : q <:+ p) (hq : q ≠ []) : RootPath E r q := by
  induction h with
  | root =>
    rcases List.suffix_cons_iff.1 hs with rfl | hs
    · exact .root
    · exact absurd (List.suffix_nil.1 hs) hq
  | step hp he hv ih =>
    rcases List.suffix_cons_iff.1 hs with rfl | hs
    · exact .step hp he hv
    · exact ih hs

/-- the part of a simple path up to one of its elements -/
theorem RootPath.upTo {p : List α} (h : RootPath E r p) {v : α} (hv : v ∈ p) :
    ∃ q, v :: q <:+ p ∧ RootPath E r (v :: q) := by
  obtain ⟨l, q, rfl⟩ := List.append_of_mem hv
  exact ⟨q, List.suffix_append l _, h.suffix (List.suffix_append l _) (by simp)⟩

/-- **Every reachable element is at the end of a simple path.** -/
theorem exists_rootPath {u : α} (h : Relation.ReflTransGen E r u) : ∃ p, RootPath E r (u :: p) := by
  induction h with
  | refl => exact ⟨[], .root⟩
  | @tail u v _ he ih =>
    obtain ⟨p, hp⟩ := ih
    by_cases hv : v ∈ u :: p
    · obtain ⟨q, -, hq⟩ := hp.upTo hv
      exact ⟨q, hq⟩
    · exact ⟨u :: p, .step hp he hv⟩

theorem RootPath.reach {u : α} {p : List α} (h : RootPath E r (u :: p)) : Relation.ReflTransGen E r u :=
  h.reachable u List.mem_cons_self

/-- the end of a simple path is reached from each of its elements, with what holds of every step -/
theorem RootPath.steps {R : α → α → Prop}
    (hR : ∀ a b q, RootPath E r (a :: q) → E a b → b ∉ a :: q → R a b) {u v : α} {p : List α}
    (h : RootPath E r (u :: p)) (hv : v ∈ u :: p) : Relation.ReflTransGen R v u := by
  generalize hl : u :: p = l at h hv
  induction h generalizing u p with
  | root =>
    obtain ⟨rfl, -⟩ := List.cons.inj hl
    rw [List.mem_singleton.1 hv]
  | step hp he hnot ih =>
    obtain ⟨rfl, -⟩ := List.cons.inj hl
    rcases List.mem_cons.1 hv with rfl | hv
    · exact .refl
    · exact (ih rfl hv).tail (hR _ _ _ hp he hnot)

theorem RootPath.mono {E' : α → α → Prop} (hE : ∀ a b, E a b → E' a b) {p : List α} (h : RootPath E r p) :
    RootPath E' r p := by
  induction h with
  | root => exact .root
  | step _ he hv ih => exact .step ih (hE _ _ he) hv

/-- a dominator is not left out on any way -/
theorem Dominates.on_way {u v : α} (h : Dominates E r v u) (hv : v ≠ r) :
    ¬Relation.ReflTransGen (fun a b => E a b ∧ b ≠ v) r u := by
  intro hu
  obtain ⟨p, hp⟩ := exists_rootPath hu
  have hmem := h p (hp.mono fun _ _ hab => hab.1)
  rcases (hp.reachable v hmem).cases_tail with heq | ⟨_, _, _, hne⟩
  · exact hv heq
  · exact hne rfl

/-- the end of a simple path that leaves `v` out is reached without `v`, step by step -/
theorem way_of_rootPath {E' : α → α → Prop} {u v : α} {p : List α} (h : RootPath E r (u :: p)) (hv : v ∉ u :: p)
    (hE : ∀ a b, Relation.ReflTransGen E r a → E a b → b ≠ v → Relation.ReflTransGen E' a b) :
    Relation.ReflTransGen E' r u := by
  generalize hl : u :: p = l at h hv
  induction h generalizing u p with
  | root =>
    obtain ⟨rfl, -⟩ := List.cons.inj hl
    exact .refl
  | step hp he _ ih =>
    obtain ⟨rfl, -⟩ := List.cons.inj hl
    rw [List.mem_cons, not_or] at hv
    exact (ih rfl hv.2).trans (hE _ _ hp.reach he (Ne.symm hv.1))

/-- the simple paths in a copy of the graph -/
theorem RootPath.of_copy {β : Type*} {E' : β → β → Prop} {f : α → β}
    (hE : ∀ u, Relation.ReflTransGen E r u → ∀ y, E' (f u) y ↔ ∃ v, E u v ∧ y = f v) {p : List β}
    (h : RootPath E' (f r) p) : ∃ q, p = q.map f ∧ RootPath E r q := by
  induction h with
  | root => exact ⟨[r], rfl, .root⟩
  | @step u v p _ he hv ih =>
    obtain ⟨q, hq, hroot⟩ := ih
    cases q with
    | nil => simp at hq
    | cons u' q =>
      simp only [List.map_cons, List.cons.injEq] at hq
      obtain ⟨rfl, rfl⟩ := hq
      obtain ⟨v', hv', rfl⟩ := (hE u' hroot.reach v).1 he
      refine ⟨v' :: u' :: q, rfl, .step hroot hv' fun hmem => hv ?_⟩
      exact List.mem_map_of_mem hmem

/-- dominators in a copy of the graph -/
theorem Dominates.copy {β : Type*} {E' : β → β → Prop} {f : α → β}
    (hinj : Set.InjOn f {u | Relation.ReflTransGen E r u})
    (hE : ∀ u, Relation.ReflTransGen E r u → ∀ y, E' (f u) y ↔ ∃ v, E u v ∧ y = f v) {u v : α}
    (hu : Relation.ReflTransGen E r u) (h : Dominates E r v u) : Dominates E' (f r) (f v) (f u) := by
  intro p hp
  obtain ⟨q, hq, hroot⟩ := RootPath.of_copy hE hp
  cases q with
  | nil => simp at hq
  | cons u' q =>
    simp only [List.map_cons, List.cons.injEq] at hq
    obtain rfl : u = u' := hinj hu hroot.reach hq.1
    rw [hq.2]
    exact List.mem_map_of_mem (h q hroot)

/-! ## Reducible graphs -/

/-- **One notion of leading back.** -/
theorem dominates_of_onPath (hred : Reducible E r) {u v : α} (he : E u v) (h : OnPath E r u v) : Dominates E r v u := by
  obtain ⟨p, hp, hv⟩ := h
  by_contra hdom
  have hsteps : Relation.ReflTransGen (fun a b => E a b ∧ ¬Dominates E r b a) v u :=
    hp.steps (fun a b q hq hab hb => ⟨hab, fun hdom => hb (hdom q hq)⟩) hv
  exact hred v (hp.reachable v hv) (Relation.TransGen.tail' hsteps ⟨he, hdom⟩)

/-- the simple paths of a reducible graph lead forward -/
theorem RootPath.forward (hred : Reducible E r) {u : α} {p : List α} (h : RootPath E r (u :: p)) {v : α}
    (hv : v ∈ u :: p) : Relation.ReflTransGen (Forward E r) v u :=
  h.steps (fun _ _ q hq hab hb => ⟨hab, fun hon => hb (dominates_of_onPath hred hab hon q hq)⟩) hv

theorem forward_of_reducible (hred : Reducible E r) {u : α} (h : Relation.ReflTransGen E r u) :
    Relation.ReflTransGen (Forward E r) r u := by
  obtain ⟨p, hp⟩ := exists_rootPath h
  exact hp.forward hred hp.root_mem

/-! ## Two graphs that agree -/

section
variable {E' : α → α → Prop}

theorem rootPath_congr (h : ∀ u v, Relation.ReflTransGen E r u → (E u v ↔ E' u v)) {p : List α}
    (hp : RootPath E r p) : RootPath E' r p := by
  induction hp with
  | root => exact .root
  | step hp he hv ih => exact .step ih ((h _ _ hp.reach).1 he) hv

/-- agreement on what is reachable goes both ways -/
theorem agree_symm (h : ∀ u v, Relation.ReflTransGen E r u → (E u v ↔ E' u v)) {u : α}
    (hu : Relation.ReflTransGen E' r u) : Relation.ReflTransGen E r u := by
  induction hu with
  | refl => exact .refl
  | tail _ huv ih => exact ih.tail ((h _ _ ih).2 huv)

theorem forward_congr (h : ∀ u v, Relation.ReflTransGen E r u → (E u v ↔ E' u v)) {u v : α}
    (hu : Relation.ReflTransGen E r u) : Forward E r u v ↔ Forward E' r u v := by
  have h' : ∀ u v, Relation.ReflTransGen E' r u → (E' u v ↔ E u v) := fun u v hu => (h u v (agree_symm h hu)).symm
  have hon : OnPath E r u v ↔ OnPath E' r u v :=
    exists_congr fun p => and_congr_left fun _ => ⟨rootPath_congr h, rootPath_congr h'⟩
  rw [Forward, Forward, h u v hu, hon]

/-- the same elements are reached going forward -/
theorem forward_reach_congr (h : ∀ u v, Relation.ReflTransGen E r u → (E u v ↔ E' u v)) {u : α} :
    Relation.ReflTransGen (Forward E r) r u ↔ Relation.ReflTransGen (Forward E' r) r u := by
  have hreach : ∀ {E : α → α → Prop} {u : α}, Relation.ReflTransGen (Forward E r) r u → Relation.ReflTransGen E r u :=
    fun hu => Relation.ReflTransGen.mono (fun _ _ hab => hab.1) _ _ hu
  constructor
  · intro hu
    induction hu with
    | refl => exact .refl
    | tail hu huv ih => exact ih.tail ((forward_congr h (hreach hu)).1 huv)
  · intro hu
    induction hu with
    | refl => exact .refl
    | tail hu huv ih => exact ih.tail ((forward_congr h (agree_symm h (hreach hu))).2 huv)

end

/-! ## Ranks -/

theorem transGen_lt {R : α → α → Prop} {f : α → ℤ} (h : ∀ a b, R a b → f a < f b) {a b : α}
    (hab : Relation.TransGen R a b) : f a < f b := by
  induction hab with
  | single hab => exact h _ _ hab
  | tail _ hbc ih => exact ih.trans (h _ _ hbc)

theorem not_transGen_self {R : α → α → Prop} {f : α → ℤ} (h : ∀ a b, R a b → f a < f b) (a : α) :
    ¬Relation.TransGen R a a := fun haa => lt_irrefl _ (transGen_lt h haa)

end Liss
