/-
Executions of a transition system whose steps emit at most one label each.

- `Exec.inv`: what every step preserves holds after every execution;
- `Exec.split`: an execution can be cut at each of its labels;
- `Exec.simulate`: an automaton that matches every step with a path matches every execution.
-/
import Liss.Lib.Automaton

namespace Liss

section
variable {S L : Type*}

/-- the labels of the steps from one state to another -/
inductive Exec (step : S → List L → S → Prop) : S → List L → S → Prop where
  | nil (s : S) : Exec step s [] s
  | cons {s s' s'' : S} {w w' : List L} : step s w s' → Exec step s' w' s'' → Exec step s (w ++ w') s''

/-- every step emits at most one label -/
def EmitsOne (step : S → List L → S → Prop) : Prop := ∀ s w s', step s w s' → w.length ≤ 1

variable {step : S → List L → S → Prop} {s s' s'' : S} {w w' : List L}

theorem Exec.single (h : step s w s') : Exec step s w s' := by
  have := Exec.cons h (.nil s')
  rwa [List.append_nil] at this

theorem Exec.trans (h : Exec step s w s') (h' : Exec step s' w' s'') : Exec step s (w ++ w') s'' := by
  induction h with
  | nil => exact h'
  | cons hs _ ih =>
    rw [List.append_assoc]
    exact .cons hs (ih h')

theorem Exec.snoc (h : Exec step s w s') (h' : step s' w' s'') : Exec step s (w ++ w') s'' := h.trans (.single h')

/-- **Invariant rule.** -/
theorem Exec.inv (I : S → Prop) (hstep : ∀ s w s', step s w s' → I s → I s') (h : Exec step s w s') (h0 : I s) :
    I s' := by
  induction h with
  | nil => exact h0
  | cons hs _ ih => exact ih (hstep _ _ _ hs h0)

/-- each label is emitted by a step -/
theorem Exec.split (hone : EmitsOne step) {u v : List L} {x : L} (h : Exec step s (u ++ x :: v) s'') :
    ∃ s1 s2, Exec step s u s1 ∧ step s1 [x] s2 ∧ Exec step s2 v s'' := by
  generalize hw : u ++ x :: v = w at h
  induction h generalizing u with
  | nil => simp at hw
  | @cons s s' s'' w w' hs hrest ih =>
    have hlen := hone _ _ _ hs
    match w, hlen with
    | [], _ =>
      obtain ⟨s1, s2, h1, h2, h3⟩ := ih hw
      exact ⟨s1, s2, .cons hs h1, h2, h3⟩
    | [a], _ =>
      cases u with
      | nil =>
        obtain ⟨rfl, rfl⟩ := List.cons.inj hw
        exact ⟨s, s', .nil s, hs, hrest⟩
      | cons b u =>
        obtain ⟨rfl, htail⟩ := List.cons.inj hw
        obtain ⟨s1, s2, h1, h2, h3⟩ := ih htail
        exact ⟨s1, s2, .cons hs h1, h2, h3⟩

/-- **Simulation rule.** Each step is matched by a path of the automaton with the same visible symbols. -/
theorem Exec.simulate {T : Type*} {A : Automaton T L} {visible : L → Bool} {R : S → T → Prop}
    (hstep : ∀ s w s' a, step s w s' → R s a →
      ∃ r a', A.Path a r a' ∧ (Automaton.word r).filter visible = w ∧ R s' a')
    (h : Exec step s w s') {a : T} (ha : R s a) :
    ∃ r a', A.Path a r a' ∧ (Automaton.word r).filter visible = w ∧ R s' a' := by
  induction h generalizing a with
  | nil => exact ⟨[], a, .nil a, rfl, ha⟩
  | cons hs _ ih =>
    obtain ⟨r, b, hp, hw, hb⟩ := hstep _ _ _ _ hs ha
    obtain ⟨r', c, hp', hw', hc⟩ := ih hb
    exact ⟨r ++ r', c, hp.append hp', by rw [Automaton.word_append, List.filter_append, hw, hw'], hc⟩

end

end Liss
