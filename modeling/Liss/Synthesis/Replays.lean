/-
Replaying the locations of a trace in the order of an assignment.

- `waitsPass`, `locksPass`: `apply_symbol` for one kind of bits, from all bits clear; every wait finds its conditional
  as it needs it, no lock is taken already;
- `waitsPass_iff`, `locksPass_iff`: what that says of each symbol and those before it;
- `replay_reordered`: a bit before a location, in terms of the values of the assignment.
-/
import Liss.Abstraction.Schedule
import Liss.Synthesis.Lockings

namespace Liss.Synthesis

open ConcurrentAutomaton

/-! ## Bits -/

/-- the test of `apply_symbol` for waits -/
def waitPasses (conditionals : Finset ℕ) (s : Symbol) : Bool :=
  match s.operation with
  | .wait | .waitReset => s.var ∈ conditionals
  | .waitNot => s.var ∉ conditionals
  | _ => true

/-- the test of `apply_symbol` for locks -/
def lockPasses (locks : Finset ℕ) (s : Symbol) : Bool :=
  match s.operation with
  | .lock => s.var ∉ locks
  | _ => true

theorem blocked_eq_passes (s : ConcurrentState) (sigma : Symbol) :
    blocked s sigma = !(waitPasses s.conditionals sigma && lockPasses s.locks sigma) := by
  unfold blocked waitPasses lockPasses
  cases sigma.operation <;> simp

/-- the symbols are executed one after the other; each of them passes -/
def replays (effect : Symbol → Finset ℕ → Finset ℕ) (passes : Finset ℕ → Symbol → Bool) :
    Finset ℕ → List Symbol → Bool
  | _, [] => true
  | bits, s :: w => passes bits s && replays effect passes (effect s bits) w

def waitsPass (w : List Symbol) : Bool := replays condEffect waitPasses ∅ w

def locksPass (w : List Symbol) : Bool := replays lockEffect lockPasses ∅ w

theorem replays_iff {effect : Symbol → Finset ℕ → Finset ℕ} {passes : Finset ℕ → Symbol → Bool} {bits : Finset ℕ}
    {w : List Symbol} : replays effect passes bits w = true ↔
      ∀ pre s post, w = pre ++ s :: post → passes (pre.foldl (fun b x => effect x b) bits) s = true := by
  induction w generalizing bits with
  | nil => simp [replays]
  | cons x w ih =>
    rw [replays, Bool.and_eq_true, ih]
    constructor
    · rintro ⟨hx, hw⟩ pre s post heq
      rcases List.cons_eq_append_iff.1 heq with ⟨rfl, h⟩ | ⟨pre', rfl, h⟩
      · rwa [← (List.cons.inj h).1] at hx
      · exact hw pre' s post h
    · intro h
      exact ⟨h [] x w rfl, fun pre s post heq => h (x :: pre) s post (by rw [heq, List.cons_append])⟩

theorem mem_condBits {v : ℕ} {w : List Symbol} :
    v ∈ w.foldl (fun b x => condEffect x b) ∅ ↔ replay (condBit v) w = true := by
  induction w using List.reverseRecOn with
  | nil => simp
  | append_singleton w x ih =>
    rw [List.foldl_append, List.foldl_cons, List.foldl_nil, replay_snoc]
    exact mem_condEffect ih

theorem mem_lockBits {v : ℕ} {w : List Symbol} :
    v ∈ w.foldl (fun b x => lockEffect x b) ∅ ↔ replay (lockBit v) w = true := by
  induction w using List.reverseRecOn with
  | nil => simp
  | append_singleton w x ih =>
    rw [List.foldl_append, List.foldl_cons, List.foldl_nil, replay_snoc]
    exact mem_lockEffect ih

def isWait (s : Symbol) : Prop := s.operation = .wait ∨ s.operation = .waitReset ∨ s.operation = .waitNot

theorem waitsPass_iff {w : List Symbol} : waitsPass w = true ↔
    ∀ pre s post, w = pre ++ s :: post → isWait s → replay (condBit s.var) pre = decide (s.operation ≠ .waitNot) := by
  rw [waitsPass, replays_iff]
  refine forall₃_congr fun pre s post => imp_congr_right fun _ => ?_
  unfold waitPasses isWait
  cases s.operation <;> simp [mem_condBits]

theorem locksPass_iff {w : List Symbol} : locksPass w = true ↔
    ∀ pre s post, w = pre ++ s :: post → s.operation = .lock → replay (lockBit s.var) pre = false := by
  rw [locksPass, replays_iff]
  refine forall₃_congr fun pre s post => imp_congr_right fun _ => ?_
  unfold lockPasses
  cases s.operation <;> simp [mem_lockBits]

/-! ## Bits along an ordering -/

variable {w : List Symbol} {g : Assignment}

/-- a bit after the locations before `l`: some location has set it, and none in between has cleared it -/
theorem replay_reordered (hg : Separates w g) {pre post : List TraceLocation} {l : TraceLocation}
    (heq : reordered w g = pre ++ l :: post) (f : Symbol → Option Bool) :
    replay f (pre.map TraceLocation.symbol) = true ↔
      ∃ x ∈ splitTrace w, g x.position < g l.position ∧ f x.symbol = some true ∧
        ∀ y ∈ splitTrace w, g x.position < g y.position → g y.position < g l.position → f y.symbol ≠ some false := by
  have hinc := hg.increasing
  have hmem : ∀ x, x ∈ splitTrace w ↔ x ∈ pre ++ l :: post := fun x => by rw [← heq, mem_reordered]
  rw [heq] at hinc
  have hbefore : ∀ x, x ∈ pre ↔ x ∈ splitTrace w ∧ g x.position < g l.position := by
    intro x
    rw [Increasing, List.pairwise_append, List.pairwise_cons] at hinc
    rw [hmem, List.mem_append, List.mem_cons]
    constructor
    · exact fun hx => ⟨Or.inl hx, hinc.2.2 x hx l List.mem_cons_self⟩
    · rintro ⟨hx | rfl | hx, hlt⟩
      · exact hx
      · exact absurd hlt (lt_irrefl _)
      · exact absurd (hinc.2.1.1 x hx) (not_lt_of_gt hlt)
  rw [replay_iff]
  constructor
  · rintro ⟨p1, s, p2, hpre, hs, hp2⟩
    obtain ⟨q1, rest, rfl, rfl, hrest⟩ := List.map_eq_append_iff.1 hpre
    obtain ⟨x, q2, rfl, rfl, rfl⟩ := List.map_eq_cons_iff.1 hrest
    obtain ⟨hx, hxl⟩ := (hbefore x).1 (by simp)
    refine ⟨x, hx, hxl, hs, fun y hy hxy hyl => hp2 _ (List.mem_map_of_mem ?_)⟩
    have hinc' : Increasing (fun l : TraceLocation => g l.position) (q1 ++ x :: (q2 ++ l :: post)) := by
      simpa using hinc
    refine (mem_between hinc').2 ⟨?_, hxy, hyl⟩
    have := (hmem y).1 hy
    simpa using this
  · rintro ⟨x, hx, hxl, hs, hall⟩
    obtain ⟨q1, q2, rfl⟩ := List.append_of_mem ((hbefore x).2 ⟨hx, hxl⟩)
    refine ⟨q1.map TraceLocation.symbol, x.symbol, q2.map TraceLocation.symbol, by simp, hs, fun s hs => ?_⟩
    obtain ⟨y, hy, rfl⟩ := List.mem_map.1 hs
    have hinc' : Increasing (fun l : TraceLocation => g l.position) (q1 ++ x :: (q2 ++ l :: post)) := by
      simpa using hinc
    obtain ⟨-, hxy, hyl⟩ := (mem_between hinc').1 hy
    exact hall y ((hmem y).2 (by simp [hy])) hxy hyl

theorem lockBit_lock {v : ℕ} {s : Symbol} : lockBit v s = some true ↔ s.operation = .lock ∧ s.var = v := by
  unfold lockBit
  split_ifs with h
  · simp [h]
  · cases s.operation <;> simp [not_not.1 h]

theorem lockBit_unlock {v : ℕ} {s : Symbol} : lockBit v s = some false ↔ s.operation = .unlock ∧ s.var = v := by
  unfold lockBit
  split_ifs with h
  · simp [h]
  · cases s.operation <;> simp [not_not.1 h]

theorem condBit_notify {v : ℕ} {s : Symbol} : condBit v s = some true ↔ s.operation = .notify ∧ s.var = v := by
  unfold condBit
  split_ifs with h
  · simp [h]
  · cases s.operation <;> simp [not_not.1 h]

theorem condBit_reset {v : ℕ} {s : Symbol} :
    condBit v s = some false ↔ (s.operation = .reset ∨ s.operation = .waitReset) ∧ s.var = v := by
  unfold condBit
  split_ifs with h
  · simp [h]
  · cases s.operation <;> simp [not_not.1 h]

end Liss.Synthesis
