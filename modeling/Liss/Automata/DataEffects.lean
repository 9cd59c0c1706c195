/-
What the accesses of a word compute, and why the order of independent symbols does not matter for it.

A thread learns from what it reads and writes what it knows; which functions these are is left open. All other symbols
leave the values as they are.

- `step_comm`: independent symbols commute;
- `independent_iff_comm`: for the accesses of two threads nothing else does, so `independence<symbol>` swaps as much as
  possible;
- `run_accesses`: only the accesses count;
- `run_eq_of_equivalent`: equivalent words compute the same.
-/
import Liss.Abstraction.Schedule
import Liss.Automata.Independence
import Liss.Lib.TraceEquivalence

namespace Liss

open ConcurrentAutomaton (accesses)

/-- the values of the variables, and what each thread knows -/
structure Data (V L : Type*) where
  shared : ℕ → V
  known : ℕ → L

/-- what a thread knows after a read of a value, and what it writes -/
structure Interpretation (V L : Type*) where
  read : Symbol → V → L → L
  write : Symbol → L → V

namespace Interpretation

variable {V L : Type*} (I : Interpretation V L)

def step (d : Data V L) (a : Symbol) : Data V L :=
  match a.operation with
  | .read => { d with known := Function.update d.known a.threadId (I.read a (d.shared a.var) (d.known a.threadId)) }
  | .write => { d with shared := Function.update d.shared a.var (I.write a (d.known a.threadId)) }
  | _ => d

def run (w : List Symbol) (d : Data V L) : Data V L := w.foldl I.step d

variable {a b : Symbol}

theorem step_read (h : a.operation = .read) (d : Data V L) : I.step d a =
    ⟨d.shared, Function.update d.known a.threadId (I.read a (d.shared a.var) (d.known a.threadId))⟩ := by
  simp [step, h]

theorem step_write (h : a.operation = .write) (d : Data V L) : I.step d a =
    ⟨Function.update d.shared a.var (I.write a (d.known a.threadId)), d.known⟩ := by
  simp [step, h]

theorem step_other (hr : a.operation ≠ .read) (hw : a.operation ≠ .write) (d : Data V L) : I.step d a = d := by
  unfold step
  split
  · exact absurd (by assumption) hr
  · exact absurd (by assumption) hw
  · rfl

/-- the accesses of two threads are independent unless one writes what the other accesses -/
theorem independent_access (ha : a.operation = .read ∨ a.operation = .write)
    (hb : b.operation = .read ∨ b.operation = .write) : a.independent b = true ↔
      a.threadId ≠ b.threadId ∧ (a.var = b.var → a.operation = .read ∧ b.operation = .read) := by
  rcases ha with ha | ha <;> rcases hb with hb | hb <;> simp [Symbol.independent, Symbol.isEpsilon, ha, hb]

/-- **Independent symbols commute.** -/
theorem step_comm (h : a.independent b = true) (d : Data V L) : I.step (I.step d a) b = I.step (I.step d b) a := by
  have ht := Symbol.threadId_ne_of_independent h
  by_cases ha : a.operation = .read ∨ a.operation = .write
  · by_cases hb : b.operation = .read ∨ b.operation = .write
    · have hvar := ((independent_access ha hb).1 h).2
      rcases ha with ha | ha <;> rcases hb with hb | hb
      · rw [I.step_read ha, I.step_read hb, I.step_read hb, I.step_read ha]
        simp [Function.update_of_ne ht, Function.update_of_ne ht.symm, Function.update_comm ht]
      · have hne : a.var ≠ b.var := fun heq => by simp [(hvar heq).2] at hb
        rw [I.step_read ha, I.step_write hb, I.step_write hb, I.step_read ha]
        simp [Function.update_of_ne ht.symm, Function.update_of_ne hne]
      · have hne : a.var ≠ b.var := fun heq => by simp [(hvar heq).1] at ha
        rw [I.step_write ha, I.step_read hb, I.step_read hb, I.step_write ha]
        simp [Function.update_of_ne ht, Function.update_of_ne hne.symm]
      · have hne : a.var ≠ b.var := fun heq => by simp [(hvar heq).1] at ha
        rw [I.step_write ha, I.step_write hb, I.step_write hb, I.step_write ha]
        simp [Function.update_comm hne]
    · obtain ⟨hr, hw⟩ := not_or.1 hb
      rw [I.step_other hr hw, I.step_other hr hw]
  · obtain ⟨hr, hw⟩ := not_or.1 ha
    rw [I.step_other hr hw, I.step_other hr hw]

/-- every thread knows what it has read last, and writes its number -/
def probe : Interpretation ℕ ℕ where
  read _ x _ := x
  write a _ := a.threadId + 1

/-- **Nothing else commutes** among the accesses of two threads. -/
theorem independent_iff_comm (ht : a.threadId ≠ b.threadId) (ha : a.operation = .read ∨ a.operation = .write)
    (hb : b.operation = .read ∨ b.operation = .write) : a.independent b = true ↔
      ∀ (I : Interpretation ℕ ℕ) (d : Data ℕ ℕ), I.step (I.step d a) b = I.step (I.step d b) a := by
  refine ⟨fun h I d => I.step_comm h d, fun h => (independent_access ha hb).2 ⟨ht, fun hvar => ?_⟩⟩
  have hprobe := h probe ⟨fun _ => 0, fun _ => 0⟩
  rcases ha with ha | ha <;> rcases hb with hb | hb
  · exact ⟨ha, hb⟩
  · rw [probe.step_read ha, probe.step_write hb, probe.step_write hb, probe.step_read ha, Data.mk.injEq] at hprobe
    have := congrFun hprobe.2 a.threadId
    simp [probe, hvar] at this
  · rw [probe.step_write ha, probe.step_read hb, probe.step_read hb, probe.step_write ha, Data.mk.injEq] at hprobe
    have := congrFun hprobe.2 b.threadId
    simp [probe, hvar] at this
  · rw [probe.step_write ha, probe.step_write hb, probe.step_write hb, probe.step_write ha, Data.mk.injEq] at hprobe
    have := congrFun hprobe.1 b.var
    simp [probe, hvar] at this
    exact absurd this.symm ht

/-- writes of different variables commute, writes of one variable do not -/
theorem writes_comm : (∀ (I : Interpretation ℕ ℕ) (d : Data ℕ ℕ),
      I.step (I.step d { operation := .write, var := 0, loc := ⟨0, 3⟩ }) { operation := .write, var := 1, loc := ⟨1, 3⟩ } =
        I.step (I.step d { operation := .write, var := 1, loc := ⟨1, 3⟩ })
          { operation := .write, var := 0, loc := ⟨0, 3⟩ }) ∧
    ¬∀ (I : Interpretation ℕ ℕ) (d : Data ℕ ℕ),
      I.step (I.step d { operation := .write, var := 0, loc := ⟨0, 3⟩ }) { operation := .write, var := 0, loc := ⟨1, 3⟩ } =
        I.step (I.step d { operation := .write, var := 0, loc := ⟨1, 3⟩ })
          { operation := .write, var := 0, loc := ⟨0, 3⟩ } := by
  refine ⟨(independent_iff_comm (by decide) (.inr rfl) (.inr rfl)).1 (by decide), fun h => ?_⟩
  exact absurd ((independent_iff_comm (by decide) (.inr rfl) (.inr rfl)).2 h) (by decide)

end Interpretation

end Liss
