/-
When the constraint `locks` of `prepare_trace` is exact.

`prepare_trace` enters an unlock at the last lock of the variable that it has met, thread by thread. Where the trace
does not take the lock in turn, that is not the lock which the unlock ends:

- `open_last`: a lock without an unlock has to be the last one, as its section lasts until the final location;
- `mismatch_first`: a thread that unlocks first is entered at a lock of another thread, and there is an ordering that
  satisfies the constraint and blocks;
- `mismatch_twice`: of two unlocks in a row the second one is entered, and there is an ordering that does not block and
  that the constraint excludes;
- `lockExact_iff`: for one lock the constraint is exact iff the lock is taken in turn.
-/
import Liss.Synthesis.LockEncoding

namespace Liss.Synthesis

open ConcurrentAutomaton

variable {threads : ℕ} {w : List Symbol} {v : ℕ}

/-! ## Orderings by rank -/

/-- the locations in the order of their ranks, those of one rank as in the trace; the final one has the rank `last` -/
def rankOrder (w : List Symbol) (rank : TraceLocation → ℕ) (last : ℕ) : Assignment := fun i =>
  ((w[i]?.elim last fun s => rank ⟨s, i⟩) * (w.length + 1) + i : ℕ)

section
variable {rank : TraceLocation → ℕ} {last : ℕ}

theorem rankOrder_eq {l : TraceLocation} (hl : l ∈ splitTrace w) :
    rankOrder w rank last l.position = (rank l * (w.length + 1) + l.position : ℕ) := by
  rw [rankOrder, mem_splitTrace.1 hl]
  rfl

theorem rankOrder_lt_iff {l l' : TraceLocation} (hl : l ∈ splitTrace w) (hl' : l' ∈ splitTrace w) :
    rankOrder w rank last l.position < rankOrder w rank last l'.position ↔
      rank l < rank l' ∨ (rank l = rank l' ∧ l.position < l'.position) := by
  have hp := position_lt hl
  have hp' := position_lt hl'
  have hstep : ∀ m n : ℕ, m < n → m * (w.length + 1) + (w.length + 1) ≤ n * (w.length + 1) := fun m n hmn => by
    have := Nat.mul_le_mul_right (w.length + 1) (Nat.succ_le_of_lt hmn)
    rwa [Nat.succ_mul] at this
  rw [rankOrder_eq hl, rankOrder_eq hl', Int.ofNat_lt]
  rcases lt_trichotomy (rank l) (rank l') with hlt | heq | hgt
  · have := hstep _ _ hlt
    omega
  · rw [heq]
    omega
  · have := hstep _ _ hgt
    omega

/-- ranks that do not decrease along a thread -/
theorem isOrdering_rankOrder (hmono : ∀ l ∈ splitTrace w, ∀ l' ∈ splitTrace w, l.threadId = l'.threadId →
    l.position < l'.position → rank l ≤ rank l') (hlast : ∀ l ∈ splitTrace w, rank l ≤ last) :
    IsOrdering w (rankOrder w rank last) where
  injective := by
    intro l hl l' hl' heq
    by_contra hne
    have hlt := @rankOrder_lt_iff w rank last l l' hl hl'
    have hgt := @rankOrder_lt_iff w rank last l' l hl' hl
    rw [heq] at hlt hgt
    simp only [lt_irrefl, false_iff] at hlt hgt
    exact hne (eq_of_position hl hl' (by omega))
  order := by
    intro l hl l' hl' ht hlt
    have := hmono l hl l' hl' ht hlt
    rw [rankOrder_lt_iff hl hl']
    omega
  final := by
    intro l hl
    have hp := position_lt hl
    have hle := Nat.mul_le_mul_right (w.length + 1) (hlast l hl)
    rw [rankOrder_eq hl, rankOrder, finalState, List.getElem?_eq_none (le_refl _), Int.ofNat_lt, Option.elim_none]
    omega

end

/-! ## A thread that is interrupted -/

/-- no lock of the variable comes before in the thread -/
def Leading (w : List Symbol) (v : ℕ) (l : TraceLocation) : Prop :=
  ∀ x ∈ splitTrace w, isLockOf v x = true → x.threadId = l.threadId → l.position < x.position

instance (w : List Symbol) (v : ℕ) (l : TraceLocation) : Decidable (Leading w v l) := by
  unfold Leading
  infer_instance

/-- one thread after the other, at last `s` and then `r` -/
def turnPhase (threads s r t : ℕ) : ℕ := if t = s then threads + 1 else if t = r then threads + 2 else t + 1

/-- first what comes before the locks of the threads, then one thread after the other; last the thread `s` up to the
position `b`, then the thread `r`, and the rest of `s` -/
def turnRank (threads : ℕ) (w : List Symbol) (v s b r : ℕ) (l : TraceLocation) : ℕ :=
  if Leading w v l then 0
  else if l.threadId = s ∧ b < l.position then threads + 3
  else turnPhase threads s r l.threadId

def turnOrder (threads : ℕ) (w : List Symbol) (v s b r : ℕ) : Assignment :=
  rankOrder w (turnRank threads w v s b r) (threads + 3)

theorem LockAt.not_leading {x l : TraceLocation} (hx : LockAt w v x) (ht : x.threadId = l.threadId)
    (hle : x.position ≤ l.position) : ¬Leading w v l := fun h => absurd (h x hx.1 hx.2 ht) (not_lt_of_ge hle)

section
variable {s b r : ℕ}

@[simp] theorem turnPhase_self : turnPhase threads s r s = threads + 1 := if_pos rfl

theorem turnPhase_second (h : r ≠ s) : turnPhase threads s r r = threads + 2 := by
  rw [turnPhase, if_neg h, if_pos rfl]

theorem turnPhase_pos (t : ℕ) : 0 < turnPhase threads s r t := by
  unfold turnPhase
  split_ifs <;> omega

theorem turnPhase_le {t : ℕ} (h : t < threads) : turnPhase threads s r t ≤ threads + 2 := by
  unfold turnPhase
  split_ifs <;> omega

/-- threads other than `s` and `r` come before these -/
theorem turnPhase_lt {t : ℕ} (h : t < threads) (hs : t ≠ s) (hr : t ≠ r) : turnPhase threads s r t ≤ threads := by
  rw [turnPhase, if_neg hs, if_neg hr]
  exact h

theorem turnPhase_inj {t t' : ℕ} (h : t < threads) (h' : t' < threads)
    (heq : turnPhase threads s r t = turnPhase threads s r t') : t = t' := by
  unfold turnPhase at heq
  split_ifs at heq <;> omega

theorem turnRank_leading {l : TraceLocation} (h : Leading w v l) : turnRank threads w v s b r l = 0 := if_pos h

theorem turnRank_after {l : TraceLocation} (h : ¬Leading w v l) (ht : l.threadId = s) (hlt : b < l.position) :
    turnRank threads w v s b r l = threads + 3 := by
  rw [turnRank, if_neg h, if_pos ⟨ht, hlt⟩]

theorem turnRank_phase {l : TraceLocation} (h : ¬Leading w v l) (hle : l.threadId = s → l.position ≤ b) :
    turnRank threads w v s b r l = turnPhase threads s r l.threadId := by
  rw [turnRank, if_neg h, if_neg fun h => absurd h.2 (not_lt_of_ge (hle h.1))]

theorem isOrdering_turnOrder (hw : OfThreads threads w) (v s b r : ℕ) : IsOrdering w (turnOrder threads w v s b r) := by
  refine isOrdering_rankOrder (fun l hl l' hl' ht hlt => ?_) fun l hl => ?_
  · unfold turnRank
    by_cases h : Leading w v l
    · rw [if_pos h]
      exact Nat.zero_le _
    · have h' : ¬Leading w v l' := fun h' => h fun x hx hop hxt => hlt.trans (h' x hx hop (hxt.trans ht))
      have hle := turnPhase_le (s := s) (r := r) (hw.location hl)
      rw [if_neg h, if_neg h', ← ht]
      split_ifs <;> omega
  · have hle := turnPhase_le (s := s) (r := r) (hw.location hl)
    unfold turnRank
    split_ifs <;> omega

theorem turnOrder_lt_iff {l l' : TraceLocation} (hl : l ∈ splitTrace w) (hl' : l' ∈ splitTrace w) :
    turnOrder threads w v s b r l.position < turnOrder threads w v s b r l'.position ↔
      turnRank threads w v s b r l < turnRank threads w v s b r l' ∨
        (turnRank threads w v s b r l = turnRank threads w v s b r l' ∧ l.position < l'.position) :=
  rankOrder_lt_iff hl hl'

/-- the rest of `s` comes last; other threads that are not the same come one after the other -/
theorem turn_later (hw : OfThreads threads w) {x z : TraceLocation} (hx : LockAt w v x) (hz : LockAt w v z)
    (hxs : x.threadId ≠ s) (hne : x.threadId ≠ z.threadId)
    (hlt : turnOrder threads w v s b r x.position < turnOrder threads w v s b r z.position) :
    (z.threadId = s ∧ b < z.position ∧ turnRank threads w v s b r z = threads + 3) ∨
      (turnPhase threads s r x.threadId < turnPhase threads s r z.threadId ∧
        turnRank threads w v s b r z = turnPhase threads s r z.threadId) := by
  have hnx := hx.not_leading rfl (le_refl x.position)
  have hnz := hz.not_leading rfl (le_refl z.position)
  rw [turnOrder_lt_iff hx.1 hz.1, turnRank_phase hnx fun h => absurd h hxs] at hlt
  by_cases hafter : z.threadId = s ∧ b < z.position
  · exact Or.inl ⟨hafter.1, hafter.2, turnRank_after hnz hafter.1 hafter.2⟩
  · have hzr : turnRank threads w v s b r z = turnPhase threads s r z.threadId :=
      turnRank_phase hnz fun h => not_lt.1 fun hlt => hafter ⟨h, hlt⟩
    rw [hzr] at hlt
    rcases hlt with hlt | ⟨heq, -⟩
    · exact Or.inr ⟨hlt, hzr⟩
    · exact absurd (turnPhase_inj (hw.location hx.1) (hw.location hz.1) heq) hne

end

/-! ## Sections that do not end -/

section
variable {prs : List LockPair} (hw : OfThreads threads w) (hgat : Gathered v (traversal threads w) prs)
  (hexcl : exclusive w prs (fun i => (i : ℤ)) = true)
include hw hgat hexcl

/-- a lock without an unlock is the last one -/
theorem Gathered.open_last {pr : LockPair} (hpr : pr ∈ prs) (hopen : pr.unlock = none) {y : TraceLocation}
    (hy : LockAt w v y) : y.position ≤ pr.lock.position := by
  by_contra hlt
  have hend := (hgat.exclusive_word hw (isOrdering_position w).separates).1 hexcl pr hpr y hy
    (Int.ofNat_lt.2 (not_le.1 hlt))
  rw [LockPair.endOf, hopen] at hend
  have hpos := position_lt hy.1
  simp only [Option.map_none, Option.getD_none, finalState, Int.ofNat_lt] at hend
  omega

/-- there is one at most -/
theorem Gathered.open_unique {pr pr2 : LockPair} (hpr : pr ∈ prs) (hpr2 : pr2 ∈ prs) (hopen : pr.unlock = none)
    (hopen2 : pr2.unlock = none) : pr = pr2 := by
  have hle := hgat.open_last hw hexcl hpr hopen (hgat.lockAt hw hpr2)
  have hle2 := hgat.open_last hw hexcl hpr2 hopen2 (hgat.lockAt hw hpr)
  exact hgat.eq_of_lock hpr hpr2
    (eq_of_position (hgat.lockAt hw hpr).1 (hgat.lockAt hw hpr2).1 (Nat.le_antisymm hle2 hle))

/-- another thread that locks; if a third one has a section that does not end, that one -/
theorem Gathered.exists_other (hmany : ¬∃ t, ∀ x, LockAt w v x → x.threadId = t) (s : ℕ) :
    ∃ y, LockAt w v y ∧ y.threadId ≠ s ∧
      ∀ pr ∈ prs, pr.unlock = none → pr.lock.threadId = s ∨ pr.lock.threadId = y.threadId := by
  by_cases h : ∃ pr ∈ prs, pr.unlock = none ∧ pr.lock.threadId ≠ s
  · obtain ⟨pr, hpr, hopen, hs⟩ := h
    refine ⟨pr.lock, hgat.lockAt hw hpr, hs, fun pr2 hpr2 hopen2 => Or.inr ?_⟩
    rw [hgat.open_unique hw hexcl hpr hpr2 hopen hopen2]
  · push Not at hmany h
    obtain ⟨y, hy, hys⟩ := hmany s
    exact ⟨y, hy, hys, fun pr hpr hopen => Or.inl (h pr hpr hopen)⟩

/-- a thread unlocks between two locks -/
theorem Gathered.unlocks_between {x y : TraceLocation} (hx : LockAt w v x) (hy : LockAt w v y)
    (ht : x.threadId = y.threadId) (hlt : x.position < y.position) :
    ∃ u, UnlockAt w v u ∧ u.threadId = x.threadId ∧ x.position < u.position ∧ u.position < y.position := by
  obtain ⟨pr, hpr, rfl⟩ := hgat.exists_pair hw hx
  cases hu : pr.unlock with
  | none => exact absurd (hgat.open_last hw hexcl hpr hu hy) (not_le_of_gt hlt)
  | some u =>
    have hin := hgat.ended pr hpr u hu
    have hnext := hin.next y ((mem_traversal hw).2 hy.1) hy.2 (Or.inr ⟨ht, hlt⟩)
    have hafter := hin.after
    unfold Visited at hnext hafter
    exact ⟨u, hgat.unlockAt hw hpr hu, by omega, by omega, by omega⟩

end

/-! ## An unlock that comes first -/

/-- an unlock that is entered at a lock of another thread comes first in its own -/
theorem Within.leading (hw : OfThreads threads w) {lock u : TraceLocation}
    (h : Within v (traversal threads w) lock u) (ht : u.threadId ≠ lock.threadId) :
    lock.threadId < u.threadId ∧ Leading w v u := by
  have hafter := h.after
  have hlt : lock.threadId < u.threadId := by
    unfold Visited at hafter
    omega
  refine ⟨hlt, fun z hz hop hzt => ?_⟩
  have hnext := h.next z ((mem_traversal hw).2 hz) hop (Or.inl (hzt ▸ hlt))
  unfold Visited at hnext
  omega

/-- the first lock of `r` comes while `s` has the lock -/
theorem turn_blocked (hw : OfThreads threads w) {x y : TraceLocation} (hx : LockAt w v x) (hy : LockAt w v y)
    (ht : y.threadId ≠ x.threadId) :
    ¬lockPass v (word w (turnOrder threads w v x.threadId x.position y.threadId)) = true := by
  rw [lockPass_word (isOrdering_turnOrder hw v x.threadId x.position y.threadId).separates]
  intro hfree
  obtain ⟨z, hzw, ⟨hzop, hzt⟩, hfirst⟩ :=
    exists_least (p := fun z => isLockOf v z = true ∧ z.threadId = y.threadId) TraceLocation.position
      ⟨y, hy.1, hy.2, rfl⟩
  have hz : LockAt w v z := ⟨hzw, hzop⟩
  have hxr : turnRank threads w v x.threadId x.position y.threadId x = threads + 1 := by
    rw [turnRank_phase (hx.not_leading rfl (le_refl _)) fun _ => le_refl _, turnPhase_self]
  have hzr : turnRank threads w v x.threadId x.position y.threadId z = threads + 2 := by
    rw [turnRank_phase (hz.not_leading rfl (le_refl _)) fun h => absurd (hzt.symm.trans h) ht, hzt,
      turnPhase_second ht]
  obtain ⟨u, hu, hxu, huz⟩ := hfree x z hx hz ((turnOrder_lt_iff hx.1 hz.1).2 (by omega))
  rw [turnOrder_lt_iff hx.1 hu.1, hxr] at hxu
  rw [turnOrder_lt_iff hu.1 hz.1, hzr] at huz
  have hlead : ¬Leading w v u := by
    intro hlead
    rw [turnRank_leading hlead] at hxu
    omega
  by_cases hs : u.threadId = x.threadId
  · -- the rest of `s` comes later
    by_cases hlt : x.position < u.position
    · rw [turnRank_after hlead hs hlt] at huz
      omega
    · rw [turnRank_phase hlead fun _ => not_lt.1 hlt, hs, turnPhase_self] at hxu
      omega
  rw [turnRank_phase hlead fun h => absurd h hs] at hxu huz
  by_cases hr : u.threadId = y.threadId
  · -- an unlock of `r` before its first lock would be leading
    rw [hr, turnPhase_second ht] at huz
    exact hlead fun x' hx' hop hxt' => (by omega : u.position < z.position).trans_le
      (hfirst x' hx' ⟨hop, hxt'.trans hr⟩)
  · have hle := turnPhase_lt (hw.location hu.1) hs hr
    omega

/-! ### The ordering that blocks satisfies the constraint -/

section
variable {prs : List LockPair} (hw : OfThreads threads w) (hgat : Gathered v (traversal threads w) prs) {pr : LockPair}
  (hpr : pr ∈ prs) {e : TraceLocation} (he : pr.unlock = some e) (hcross : e.threadId ≠ pr.lock.threadId) {r : ℕ}
include hw hgat hpr he hcross

/-- a lock whose section ends in another thread is the last one of its thread -/
theorem Gathered.last_of_cross {z : TraceLocation} (hz : LockAt w v z) (hzt : z.threadId = pr.lock.threadId) :
    z.position ≤ pr.lock.position := by
  have hin := hgat.ended pr hpr e he
  have hlt := (hin.leading hw hcross).1
  by_contra hno
  have hnext := hin.next z ((mem_traversal hw).2 hz.1) hz.2 (Or.inr ⟨hzt.symm, not_le.1 hno⟩)
  unfold Visited at hnext
  omega

/-- so the locks come when it is the turn of their threads -/
theorem Gathered.turnRank_lock {z : TraceLocation} (hz : LockAt w v z) :
    turnRank threads w v pr.lock.threadId pr.lock.position r z = turnPhase threads pr.lock.threadId r z.threadId :=
  turnRank_phase (hz.not_leading rfl (le_refl _)) (hgat.last_of_cross hw hpr he hcross hz)

/-- threads that are not the same come one after the other -/
theorem Gathered.turnPhase_lt_of_later {x z : TraceLocation} (hx : LockAt w v x) (hz : LockAt w v z)
    (hne : z.threadId ≠ x.threadId)
    (hlt : turnOrder threads w v pr.lock.threadId pr.lock.position r x.position <
      turnOrder threads w v pr.lock.threadId pr.lock.position r z.position) :
    turnPhase threads pr.lock.threadId r x.threadId < turnPhase threads pr.lock.threadId r z.threadId := by
  rw [turnOrder_lt_iff hx.1 hz.1, hgat.turnRank_lock hw hpr he hcross hx, hgat.turnRank_lock hw hpr he hcross hz] at hlt
  rcases hlt with hlt | ⟨heq, -⟩
  · exact hlt
  · exact absurd (turnPhase_inj (hw.location hx.1) (hw.location hz.1) heq).symm hne

/-- the sections of `s` before its last lock end before it -/
theorem Gathered.end_le_lock {pr2 : LockPair} (hpr2 : pr2 ∈ prs) {e2 : TraceLocation} (hu : pr2.unlock = some e2)
    (ht : e2.threadId = pr2.lock.threadId) (hs : e2.threadId = pr.lock.threadId) : e2.position ≤ pr.lock.position := by
  have hc := hgat.lockAt hw hpr2
  have hlock := hgat.lockAt hw hpr
  have hne : pr2.lock.position ≠ pr.lock.position := by
    intro heq
    obtain rfl := hgat.eq_of_lock hpr2 hpr (eq_of_position hc.1 hlock.1 heq)
    exact hcross (Option.some.inj (he.symm.trans hu) ▸ ht)
  have hclast := hgat.last_of_cross hw hpr he hcross hc (ht.symm.trans hs)
  have hnext := (hgat.ended pr2 hpr2 e2 hu).next pr.lock ((mem_traversal hw).2 hlock.1) hlock.2
    (Or.inr ⟨ht.symm.trans hs, lt_of_le_of_ne hclast hne⟩)
  unfold Visited at hnext
  omega

/-- the unlock of a section comes before the locks that come later -/
theorem Gathered.turn_ended {pr2 : LockPair} (hpr2 : pr2 ∈ prs) {e2 : TraceLocation} (hu : pr2.unlock = some e2)
    {z : TraceLocation} (hz : LockAt w v z)
    (hlz : turnOrder threads w v pr.lock.threadId pr.lock.position r pr2.lock.position <
      turnOrder threads w v pr.lock.threadId pr.lock.position r z.position) :
    turnOrder threads w v pr.lock.threadId pr.lock.position r e2.position <
      turnOrder threads w v pr.lock.threadId pr.lock.position r z.position := by
  have hg := isOrdering_turnOrder hw v pr.lock.threadId pr.lock.position r
  have hc := hgat.lockAt hw hpr2
  have hin := hgat.ended pr2 hpr2 e2 hu
  have he2 := (hgat.unlockAt hw hpr2 hu).1
  have hzr := hgat.turnRank_lock (r := r) hw hpr he hcross hz
  by_cases ht : e2.threadId = pr2.lock.threadId
  swap
  · -- it is the first of its own thread
    rw [turnOrder_lt_iff he2 hz.1, turnRank_leading (hin.leading hw ht).2, hzr]
    exact Or.inl (turnPhase_pos _)
  have hafter : pr2.lock.position < e2.position := by
    have hvis := hin.after
    unfold Visited at hvis
    omega
  by_cases hzt : z.threadId = pr2.lock.threadId
  · refine hg.order e2 he2 z hz.1 (ht.trans hzt.symm) ?_
    have hnext := hin.next z ((mem_traversal hw).2 hz.1) hz.2
      (Or.inr ⟨hzt.symm, (hg.lt_iff hc.1 hz.1 hzt.symm).1 hlz⟩)
    unfold Visited at hnext
    omega
  · rw [turnOrder_lt_iff he2 hz.1,
      turnRank_phase (hc.not_leading ht.symm hafter.le) (hgat.end_le_lock hw hpr he hcross hpr2 hu ht), hzr, ht]
    exact Or.inl (hgat.turnPhase_lt_of_later hw hpr he hcross hc hz hzt hlz)

end

section
variable {prs : List LockPair} (hw : OfThreads threads w) (hgat : Gathered v (traversal threads w) prs)
  (hexcl : exclusive w prs (fun i => (i : ℤ)) = true)
include hw hgat hexcl

/-- the constraint does not notice: the section of the lock ends at the unlock that comes first in its thread -/
theorem Gathered.turn_exclusive {pr : LockPair} (hpr : pr ∈ prs) {e : TraceLocation} (he : pr.unlock = some e)
    (hcross : e.threadId ≠ pr.lock.threadId) {y : TraceLocation} (hys : y.threadId ≠ pr.lock.threadId)
    (hother : ∀ pr2 ∈ prs, pr2.unlock = none → pr2.lock.threadId = pr.lock.threadId ∨ pr2.lock.threadId = y.threadId) :
    exclusive w prs (turnOrder threads w v pr.lock.threadId pr.lock.position y.threadId) = true := by
  have hg := isOrdering_turnOrder hw v pr.lock.threadId pr.lock.position y.threadId
  rw [hgat.exclusive_word hw hg.separates]
  intro pr2 hpr2 z hz hlz
  have hc := hgat.lockAt hw hpr2
  cases hu : pr2.unlock with
  | some e2 =>
    rw [LockPair.endOf, hu, Option.map_some, Option.getD_some]
    exact hgat.turn_ended hw hpr he hcross hpr2 hu hz hlz
  | none =>
    have hpos := hgat.open_last hw hexcl hpr2 hu hz
    rcases hother pr2 hpr2 hu with hs | hr
    · -- the last lock of `s` has an unlock
      have hle := hgat.last_of_cross hw hpr he hcross hc hs
      have hback := hgat.open_last hw hexcl hpr2 hu (hgat.lockAt hw hpr)
      have heq := hgat.eq_of_lock hpr2 hpr
        (eq_of_position hc.1 (hgat.lockAt hw hpr).1 (Nat.le_antisymm hle hback))
      rw [heq, he] at hu
      exact absurd hu (by simp)
    · -- `r` comes last
      by_cases hzt : z.threadId = pr2.lock.threadId
      · exact absurd ((hg.lt_iff hc.1 hz.1 hzt.symm).1 hlz) (not_lt_of_ge hpos)
      · have hlt := hgat.turnPhase_lt_of_later hw hpr he hcross hc hz hzt hlz
        rw [hr, turnPhase_second hys] at hlt
        exact absurd (turnPhase_le (hw.location hz.1)) (not_le_of_gt hlt)

/-- **A thread that unlocks first.** -/
theorem Gathered.mismatch_first (hmany : ¬∃ t, ∀ x, LockAt w v x → x.threadId = t) (hlocked :
    ∀ u, UnlockAt w v u → ∃ x, LockAt w v x ∧ Visited x u) (hno : ¬LocksFirst w v) :
    ∃ g, IsOrdering w g ∧ exclusive w prs g = true ∧ ¬lockPass v (word w g) = true := by
  unfold LocksFirst at hno
  push Not at hno
  obtain ⟨u, hu, hfirst⟩ := hno
  obtain ⟨pr, hpr, hin⟩ := hgat.exists_section hw hu (hlocked u hu)
  have hut : pr.lock.threadId < u.threadId := by
    have hafter := hin.after
    unfold Visited at hafter
    rcases hafter with hlt | ⟨heq, hlt⟩
    · exact hlt
    · exact absurd hlt (not_lt_of_ge (hfirst _ (hgat.lockAt hw hpr) heq))
  obtain ⟨e, he, hlast⟩ := hgat.last pr hpr u hin
  have hcross : e.threadId ≠ pr.lock.threadId := by
    unfold Visited at hlast
    rcases hlast with rfl | hlast
    · omega
    · omega
  obtain ⟨y, hy, hys, hother⟩ := hgat.exists_other hw hexcl hmany pr.lock.threadId
  exact ⟨_, isOrdering_turnOrder hw _ _ _ _, hgat.turn_exclusive hw hexcl hpr he hcross hys hother,
    turn_blocked hw (hgat.lockAt hw hpr) hy hys⟩

end

/-! ## Two unlocks in a row -/

section
variable {prs : List LockPair} (hw : OfThreads threads w) (hgat : Gathered v (traversal threads w) prs)
  (hexcl : exclusive w prs (fun i => (i : ℤ)) = true) (hfirst : LocksFirst w v)
include hw hgat hexcl hfirst

omit hexcl in
/-- the second unlock is in the section as well -/
theorem Gathered.second_end {pr : LockPair} (hpr : pr ∈ prs) {u u' : TraceLocation}
    (hin : Within v (traversal threads w) pr.lock u) (hu' : UnlockAt w v u') (ht : u'.threadId = u.threadId)
    (hlt : u.position < u'.position)
    (hnone : ∀ x, LockAt w v x → x.threadId = u.threadId → u.position < x.position → ¬x.position < u'.position) :
    ∃ e, pr.unlock = some e ∧ e.threadId = pr.lock.threadId ∧ pr.lock.position < e.position ∧
      u'.position ≤ e.position := by
  obtain ⟨hut, hlu⟩ := hgat.own_end hw hfirst hpr hin
  have hin' : Within v (traversal threads w) pr.lock u' := by
    refine ⟨(mem_traversal hw).2 hu'.1, hu'.2, Or.inr ⟨hut.symm.trans ht.symm, hlu.trans hlt⟩, fun z hz hop hvis => ?_⟩
    have hzw : LockAt w v z := ⟨(mem_traversal hw).1 hz, hop⟩
    have huz := hin.next z hz hop hvis
    have hzs := hnone z hzw
    have hne : z.position ≠ u'.position := fun heq => hzw.ne_unlock hu' (eq_of_position hzw.1 hu'.1 heq)
    unfold Visited at huz ⊢
    omega
  obtain ⟨e, he, hlast⟩ := hgat.last pr hpr u' hin'
  obtain ⟨het, hpos⟩ := hgat.own_end hw hfirst hpr (hgat.ended pr hpr e he)
  refine ⟨e, he, het, hpos, ?_⟩
  unfold Visited at hlast
  rcases hlast with rfl | hlast
  · exact le_refl _
  · omega

omit hgat hexcl hfirst in
/-- the thread `s` has unlocked before others come -/
theorem turn_unlocked {u x z : TraceLocation} {r : ℕ} (hu : UnlockAt w v u) (hx : LockAt w v x) (hz : LockAt w v z)
    (hur : turnRank threads w v u.threadId u.position r u = threads + 1) (hxs : x.threadId = u.threadId)
    (hne : x.threadId ≠ z.threadId)
    (hxz : turnOrder threads w v u.threadId u.position r x.position <
      turnOrder threads w v u.threadId u.position r z.position) :
    x.position < u.position ∧ turnOrder threads w v u.threadId u.position r u.position <
      turnOrder threads w v u.threadId u.position r z.position := by
  have hnx := hx.not_leading rfl (le_refl x.position)
  have hzr : turnRank threads w v u.threadId u.position r z = turnPhase threads u.threadId r z.threadId :=
    turnRank_phase (hz.not_leading rfl (le_refl _)) fun h => absurd (hxs.trans h.symm) hne
  have hzle := turnPhase_le (s := u.threadId) (r := r) (hw.location hz.1)
  have hzne : turnPhase threads u.threadId r z.threadId ≠ threads + 1 := fun heq =>
    hne (hxs.trans (turnPhase_inj (hw.location hz.1) (hw.location hu.1) (heq.trans turnPhase_self.symm)).symm)
  have hxz' := (turnOrder_lt_iff hx.1 hz.1).1 hxz
  have hxu : x.position < u.position := by
    by_contra hno
    have hnu : u.position ≠ x.position := fun heq => hx.ne_unlock hu (eq_of_position hx.1 hu.1 heq.symm)
    rw [turnRank_after hnx hxs (lt_of_le_of_ne (not_lt.1 hno) hnu), hzr] at hxz'
    omega
  rw [turnRank_phase hnx fun _ => hxu.le, hzr, hxs, turnPhase_self] at hxz'
  exact ⟨hxu, (turnOrder_lt_iff hu.1 hz.1).2 (by omega)⟩

omit hexcl in
/-- threads other than `s` end their sections themselves -/
theorem Gathered.turn_own_end {pr : LockPair} (hpr : pr ∈ prs) {e z : TraceLocation} (he : pr.unlock = some e)
    (hz : LockAt w v z) {s b r : ℕ} (hs : pr.lock.threadId ≠ s) (hne : pr.lock.threadId ≠ z.threadId)
    (hlt : turnOrder threads w v s b r pr.lock.position < turnOrder threads w v s b r z.position) :
    ∃ m, UnlockAt w v m ∧ turnOrder threads w v s b r pr.lock.position < turnOrder threads w v s b r m.position ∧
      turnOrder threads w v s b r m.position < turnOrder threads w v s b r z.position := by
  have hg := isOrdering_turnOrder hw v s b r
  have hlock := hgat.lockAt hw hpr
  have hew := hgat.unlockAt hw hpr he
  obtain ⟨het, hpos⟩ := hgat.own_end hw hfirst hpr (hgat.ended pr hpr e he)
  have her : turnRank threads w v s b r e = turnPhase threads s r e.threadId :=
    turnRank_phase (hlock.not_leading het.symm hpos.le) fun h => absurd (het.symm.trans h) hs
  have hle := turnPhase_le (s := s) (r := r) (hw.location hlock.1)
  refine ⟨e, hew, hg.order _ hlock.1 e hew.1 het.symm hpos, (turnOrder_lt_iff hew.1 hz.1).2 (Or.inl ?_)⟩
  rw [her, het]
  rcases turn_later hw hlock hz hs hne hlt with ⟨-, -, hzr⟩ | ⟨hlt, hzr⟩
  · rw [hzr]
    omega
  · rwa [hzr]

/-- the thread `s` has unlocked before `r` comes, and unlocks again before it goes on -/
theorem Gathered.turn_free {pr : LockPair} (hpr : pr ∈ prs) {u u' : TraceLocation} (hu : UnlockAt w v u)
    (hu' : UnlockAt w v u') (hut : u.threadId = pr.lock.threadId) (hlu : pr.lock.position < u.position)
    (ht : u'.threadId = u.threadId) (hlt : u.position < u'.position)
    (hnone : ∀ x, LockAt w v x → x.threadId = u.threadId → u.position < x.position → ¬x.position < u'.position)
    {y : TraceLocation} (hys : y.threadId ≠ u.threadId)
    (hother : ∀ pr2 ∈ prs, pr2.unlock = none → pr2.lock.threadId = u.threadId ∨ pr2.lock.threadId = y.threadId) :
    lockPass v (word w (turnOrder threads w v u.threadId u.position y.threadId)) = true := by
  have hg := isOrdering_turnOrder hw v u.threadId u.position y.threadId
  have hlock := hgat.lockAt hw hpr
  have hur : turnRank threads w v u.threadId u.position y.threadId u = threads + 1 := by
    rw [turnRank_phase (hlock.not_leading hut.symm hlu.le) fun _ => le_refl _, turnPhase_self]
  have hur' : turnRank threads w v u.threadId u.position y.threadId u' = threads + 3 :=
    turnRank_after (hlock.not_leading (hut.symm.trans ht.symm) (hlu.trans hlt).le) ht hlt
  rw [lockPass_word hg.separates]
  intro x z hx hz hxz
  by_cases hxzt : x.threadId = z.threadId
  · obtain ⟨m, hm, hmt, hxm, hmz⟩ := hgat.unlocks_between hw hexcl hx hz hxzt ((hg.lt_iff hx.1 hz.1 hxzt).1 hxz)
    exact ⟨m, hm, hg.order x hx.1 m hm.1 hmt.symm hxm, hg.order m hm.1 z hz.1 (hmt.trans hxzt) hmz⟩
  by_cases hxs : x.threadId = u.threadId
  · -- `r` comes after the first unlock
    obtain ⟨hxu, huz⟩ := turn_unlocked hw hu hx hz hur hxs hxzt hxz
    exact ⟨u, hu, hg.order x hx.1 u hu.1 hxs hxu, huz⟩
  obtain ⟨pr2, hpr2, rfl⟩ := hgat.exists_pair hw hx
  cases he : pr2.unlock with
  | some e => exact hgat.turn_own_end hw hfirst hpr2 he hz hxs hxzt hxz
  | none =>
    -- `s` goes on with the second unlock
    have hxy : pr2.lock.threadId = y.threadId := (hother pr2 hpr2 he).resolve_left hxs
    have hxr : turnRank threads w v u.threadId u.position y.threadId pr2.lock = threads + 2 := by
      rw [turnRank_phase (hx.not_leading rfl (le_refl _)) fun h => absurd h hxs, hxy, turnPhase_second hys]
    rcases turn_later hw hx hz hxs hxzt hxz with ⟨hzs, huz, -⟩ | ⟨hlt, -⟩
    · have hne : z.position ≠ u'.position := fun heq => hz.ne_unlock hu' (eq_of_position hz.1 hu'.1 heq)
      have hu'z : u'.position < z.position := lt_of_le_of_ne (not_lt.1 (hnone z hz hzs huz)) hne.symm
      exact ⟨u', hu', (turnOrder_lt_iff hx.1 hu'.1).2 (by omega), hg.order u' hu'.1 z hz.1 (ht.trans hzs.symm) hu'z⟩
    · rw [hxy, turnPhase_second hys] at hlt
      exact absurd (turnPhase_le (hw.location hz.1)) (not_le_of_gt hlt)

/-- **A thread that unlocks twice in a row.** -/
theorem Gathered.mismatch_twice (hmany : ¬∃ t, ∀ x, LockAt w v x → x.threadId = t) {u u' : TraceLocation}
    (hu : UnlockAt w v u) (hu' : UnlockAt w v u') (ht : u'.threadId = u.threadId) (hlt : u.position < u'.position)
    (hnone : ∀ x, LockAt w v x → x.threadId = u.threadId → u.position < x.position → ¬x.position < u'.position) :
    ∃ g, IsOrdering w g ∧ ¬exclusive w prs g = true ∧ lockPass v (word w g) = true := by
  obtain ⟨x, hx, hxt, hxu⟩ := hfirst u hu
  obtain ⟨pr, hpr, hin⟩ := hgat.exists_section hw hu ⟨x, hx, Or.inr ⟨hxt, hxu⟩⟩
  obtain ⟨hut, hlu⟩ := hgat.own_end hw hfirst hpr hin
  have hlock := hgat.lockAt hw hpr
  obtain ⟨y, hy, hys, hother⟩ := hgat.exists_other hw hexcl hmany u.threadId
  have hg := isOrdering_turnOrder hw v u.threadId u.position y.threadId
  refine ⟨_, hg, fun hexcl' => ?_, hgat.turn_free hw hexcl hfirst hpr hu hu' hut hlu ht hlt hnone hys hother⟩
  obtain ⟨e, he, het, hpos, hue⟩ := hgat.second_end hw hfirst hpr hin hu' ht hlt hnone
  have hew := hgat.unlockAt hw hpr he
  -- `r` locks inside of it
  have hlr : turnRank threads w v u.threadId u.position y.threadId pr.lock = threads + 1 := by
    rw [turnRank_phase (hlock.not_leading rfl (le_refl _)) fun _ => hlu.le, ← hut, turnPhase_self]
  have her : turnRank threads w v u.threadId u.position y.threadId e = threads + 3 :=
    turnRank_after (hlock.not_leading het.symm hpos.le) (het.trans hut.symm) (hlt.trans_le hue)
  have hyr : turnRank threads w v u.threadId u.position y.threadId y = threads + 2 := by
    rw [turnRank_phase (hy.not_leading rfl (le_refl _)) fun h => absurd h hys, turnPhase_second hys]
  rw [hgat.exclusive_word hw hg.separates] at hexcl'
  have hend := hexcl' pr hpr y hy ((turnOrder_lt_iff hlock.1 hy.1).2 (by omega))
  rw [LockPair.endOf, he, Option.map_some, Option.getD_some, turnOrder_lt_iff hew.1 hy.1] at hend
  omega

end

/-! ## When the constraint is exact -/

/-- **When the constraint of a lock is exact**: for a trace in which no lock is taken twice, iff the lock is taken in
turn. -/
theorem lockExact_iff (hw : OfThreads threads w) (hpass : lockPass v w = true) :
    LockExact threads w v ↔ TakesTurns threads w v := by
  refine ⟨fun h => ?_, lockExact_of_takesTurns hw⟩
  obtain ⟨prs, hprs, hexact⟩ := h
  have hgat := lockings_gathered hprs
  have hlocked : ∀ u, UnlockAt w v u → ∃ x, LockAt w v x ∧ Visited x u := by
    intro u hu
    obtain ⟨x, hx, hop, hvis⟩ := (lockings_isSome hw).1 (by rw [hprs]; rfl) u hu.1 hu.2
    exact ⟨x, ⟨hx, hop⟩, hvis⟩
  have hexcl : exclusive w prs (fun i => (i : ℤ)) = true := by
    rw [hexact _ (isOrdering_position w), (word_position w).1]
    exact hpass
  have hnever : ∀ t, NeverTwice .lock ((lockOps w t v).map Symbol.operation) := by
    refine fun t => neverTwice_of fun x y hx hy hxop hyop hlt => ?_
    obtain ⟨hxo, hxt⟩ := mem_opLocs.1 hx
    obtain ⟨hyo, hyt⟩ := mem_opLocs.1 hy
    have hxl : LockAt w v x := hxo.resolve_right fun hu => by simp [(isUnlockOf_iff.1 hu.2).1] at hxop
    have hyl : LockAt w v y := hyo.resolve_right fun hu => by simp [(isUnlockOf_iff.1 hu.2).1] at hyop
    obtain ⟨u, hu, hut, hxu, huy⟩ := hgat.unlocks_between hw hexcl hxl hyl (hxt.trans hyt.symm) hlt
    exact ⟨u, mem_opLocs.2 ⟨Or.inr hu, hut.trans hxt⟩, hxu, huy⟩
  refine ⟨(first_iff hw).2 hlocked, fun t _ => hnever t, ?_⟩
  by_cases hmany : ∃ t, ∀ x, LockAt w v x → x.threadId = t
  · obtain ⟨t, hsingle⟩ := hmany
    refine Or.inl ⟨t, fun t' _ hne hmem => ?_⟩
    obtain ⟨x, hx, rfl⟩ := lock_mem_iff.1 hmem
    exact hne (hsingle x hx)
  · have hfirst : LocksFirst w v := by
      by_contra hno
      obtain ⟨g, hg, hexcl', hpass'⟩ := hgat.mismatch_first hw hexcl hmany hlocked hno
      exact hpass' ((hexact g hg).1 hexcl')
    refine Or.inr fun t _ => (alternating_iff lockOps_ops).2 ⟨thread_first_iff.2 ?_, hnever t, ?_⟩
    · rintro u hu rfl
      exact hfirst u hu
    · apply neverTwice_of
      intro u u' hu hu' huop huop' hlt
      obtain ⟨huo, hut⟩ := mem_opLocs.1 hu
      obtain ⟨huo', hut'⟩ := mem_opLocs.1 hu'
      have hul : UnlockAt w v u := huo.resolve_left fun hx => by simp [(isLockOf_iff.1 hx.2).1] at huop
      have hul' : UnlockAt w v u' := huo'.resolve_left fun hx => by simp [(isLockOf_iff.1 hx.2).1] at huop'
      by_contra hnone
      push Not at hnone
      obtain ⟨g, hg, hexcl', hpass'⟩ := hgat.mismatch_twice hw hexcl hfirst hmany hul hul' (hut'.trans hut.symm) hlt
        fun x hx hxt hux => not_lt_of_ge (hnone x (mem_opLocs.2 ⟨Or.inl hx, hxt.trans hut⟩) hux)
      exact hexcl' ((hexact g hg).2 hpass')

end Liss.Synthesis
