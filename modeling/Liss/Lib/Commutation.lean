/-
Independent symbols. A word leads to a state in any order if all words do that arise from it by swapping neighbours that
are independent. This is so if independent symbols commute, that is if one that can be read after the other can be read
before it as well, with the same outcome.

- `Initial`: the symbols of a word that can come first;
- `AnyOrder`: the word leads to a state in any order, said by what comes first;
- `initial_of_erase`: what can come first after such a symbol, and is independent of it, can come first;
- `path_front`, `anyOrder_of_commutes`: if independent symbols commute, every path can be taken in any order.
-/
import Liss.Lib.Keyed

namespace Liss.Automaton

variable {S K Sym : Type*} {A : Automaton S Sym} {key : S → K} {indep : Sym → Sym → Bool}

/-- all symbols before the first `a` are independent of it -/
def Initial (indep : Sym → Sym → Bool) (a : Sym) : List Sym → Prop
  | [] => False
  | b :: w => a = b ∨ indep a b = true ∧ Initial indep a w

variable (indep) in
theorem initial_head {w : List Sym} (hw : w ≠ []) : ∃ a, Initial indep a w := by
  cases w with
  | nil => exact absurd rfl hw
  | cons a w => exact ⟨a, .inl rfl⟩

/-- a symbol that is read after another one of which it is independent can be read before it -/
def Commutes (A : Automaton S Sym) (key : S → K) (indep : Sym → Sym → Bool) : Prop :=
  ∀ t u : Trans S Sym, A.Reachable t.src → A.Step t → A.Step u → u.src = t.dst → indep u.sym t.sym = true →
    ∃ x y, A.Step ⟨t.src, u.sym, x⟩ ∧ A.Step ⟨x, t.sym, y⟩ ∧ key y = key u.dst

variable [DecidableEq Sym]

/-- the word leads from a state to one with the key in any order -/
inductive AnyOrder (A : Automaton S Sym) (key : S → K) (indep : Sym → Sym → Bool) : S → List Sym → K → Prop
  | nil (s : S) : AnyOrder A key indep s [] (key s)
  | cons {s : S} {w : List Sym} {k : K} (hne : w ≠ []) (x : ∀ a, Initial indep a w → S)
      (hstep : ∀ a ha, A.Step ⟨s, a, x a ha⟩) (hrest : ∀ a ha, AnyOrder A key indep (x a ha) (w.erase a) k) :
      AnyOrder A key indep s w k

/-- every reachable state is reached by a word that leads there in any order -/
def Reorderable (A : Automaton S Sym) (key : S → K) (indep : Sym → Sym → Bool) : Prop :=
  ∀ u, A.Reachable u → ∃ s ∈ A.initial, ∃ w, AnyOrder A key indep s w (key u)

theorem initial_of_erase {a c : Sym} {w : List Sym} (ha : Initial indep a w) (hc : Initial indep c (w.erase a))
    (hi : indep c a = true) : Initial indep c w := by
  induction w with
  | nil => exact ha
  | cons b w ih =>
    by_cases hab : a = b
    · subst hab
      rw [List.erase_cons_head] at hc
      exact .inr ⟨hi, hc⟩
    · rw [List.erase_cons_tail (by simpa using Ne.symm hab)] at hc
      obtain ⟨-, haw⟩ := ha.resolve_left hab
      rcases hc with rfl | ⟨hcb, hcw⟩
      · exact .inl rfl
      · exact .inr ⟨hcb, ih haw hcw⟩

theorem length_erase_of_initial {a : Sym} {w : List Sym} (ha : Initial indep a w) :
    (w.erase a).length + 1 = w.length := by
  have hmem : a ∈ w := by
    induction w with
    | nil => exact absurd ha id
    | cons b w ih =>
      rcases ha with rfl | ⟨-, ha⟩
      · exact List.mem_cons_self
      · exact List.mem_cons_of_mem b (ih ha)
  have hpos := List.length_pos_of_mem hmem
  rw [List.length_erase_of_mem hmem]
  omega

/-- **A symbol that can come first is moved to the front.** -/
theorem path_front (hr : A.Respects key) (hc : Commutes A key indep) {a : Sym} {s u : S} {r : List (Trans S Sym)}
    (hp : A.Path s r u) (hs : A.Reachable s) (ha : Initial indep a (word r)) :
    ∃ x r' u', A.Step ⟨s, a, x⟩ ∧ A.Path x r' u' ∧ word r' = (word r).erase a ∧ key u' = key u := by
  induction hp with
  | nil s => exact absurd ha id
  | @cons t r u ht hp ih =>
    rw [word_cons] at ha ⊢
    by_cases hat : a = t.sym
    · subst hat
      exact ⟨t.dst, r, u, ht, hp, (List.erase_cons_head _ _).symm, rfl⟩
    · obtain ⟨hi, har⟩ := ha.resolve_left hat
      obtain ⟨x1, r1, u1, hx1, hp1, hw1, hu1⟩ := ih (hs.step ht) har
      obtain ⟨x, y, hx, hy, hkey⟩ := hc t ⟨t.dst, a, x1⟩ hs ht hx1 rfl hi
      obtain ⟨r2, u2, hp2, hw2, hu2⟩ := hr.path hp1 hkey
      refine ⟨x, ⟨x, t.sym, y⟩ :: r2, u2, hx, .cons hy hp2, ?_, hu2.trans hu1⟩
      rw [word_cons, hw2, hw1, List.erase_cons_tail (by simpa using Ne.symm hat)]

theorem AnyOrder.eq_of_nil {s : S} {w : List Sym} {k : K} (h : AnyOrder A key indep s w k) (hw : w = []) :
    key s = k := by
  cases h with
  | nil => rfl
  | cons hne => exact absurd hw hne

/-- what can come first does -/
theorem AnyOrder.front {s : S} {w : List Sym} {k : K} (h : AnyOrder A key indep s w k) {a : Sym}
    (ha : Initial indep a w) : ∃ x, A.Step ⟨s, a, x⟩ ∧ AnyOrder A key indep x (w.erase a) k := by
  cases h with
  | nil => exact absurd ha id
  | cons hne x hstep hrest => exact ⟨x a ha, hstep a ha, hrest a ha⟩

/-- from a state with the same key the word leads there in any order as well -/
theorem AnyOrder.respects (hr : A.Respects key) {s : S} {w : List Sym} {k : K} (h : AnyOrder A key indep s w k) {s' : S}
    (hs : key s' = key s) : AnyOrder A key indep s' w k := by
  induction h generalizing s' with
  | nil s =>
    rw [← hs]
    exact .nil s'
  | cons hne x hstep _ ih =>
    have hstep' : ∀ a ha, ∃ y, A.Step ⟨s', a, y⟩ ∧ key y = key (x a ha) := fun a ha => hr.step (hstep a ha) hs
    choose y hy hkey using hstep'
    exact .cons hne y hy fun a ha => ih a ha (hkey a ha)

/-- **Every path can be taken in any order** if independent symbols commute. -/
theorem anyOrder_of_commutes (hr : A.Respects key) (hc : Commutes A key indep) {s u : S} {r : List (Trans S Sym)}
    (hp : A.Path s r u) (hs : A.Reachable s) : AnyOrder A key indep s (word r) (key u) := by
  induction hn : (word r).length using Nat.strong_induction_on generalizing s r u with
  | _ n ih =>
    by_cases hne : word r = []
    · obtain rfl := List.map_eq_nil_iff.1 hne
      obtain rfl := path_nil_iff.1 hp
      exact .nil s
    · have hfront : ∀ a, Initial indep a (word r) →
          ∃ x, A.Step ⟨s, a, x⟩ ∧ AnyOrder A key indep x ((word r).erase a) (key u) := by
        intro a ha
        obtain ⟨x, r', u', hx, hp', hw, hu⟩ := path_front hr hc hp hs ha
        have hlength := length_erase_of_initial ha
        have hreach : A.Reachable x := Reachable.step (t := ⟨s, a, x⟩) hs hx
        have hrest := ih (word r').length (by rw [hw]; omega) hp' hreach rfl
        rw [hw, hu] at hrest
        exact ⟨x, hx, hrest⟩
      choose x hx hrest using hfront
      exact .cons hne x hx hrest

theorem reorderable_of_commutes (hr : A.Respects key) (hc : Commutes A key indep) : Reorderable A key indep := by
  intro u hu
  obtain ⟨r, s, hs, hp⟩ := hu
  exact ⟨s, hs, word r, anyOrder_of_commutes hr hc hp (.initial hs)⟩

end Liss.Automaton
