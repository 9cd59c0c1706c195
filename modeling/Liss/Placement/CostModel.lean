/-
`place_locks::cost_model_max_concurrency`: a soft constraint of weight 1 for each pair of states of two threads.

The loop over the second thread counts `t2` only where the pair of threads is not skipped. A constraint is meant to say
that the two states hold no common lock, `!inl(x,l) || !inl(y,l)` for every lock. As it is written this is the left
operand of a comma whose right operand is 100, so each conjunct is `true`. `addSoft` has the conjunct as a parameter.

- `addSoft_eq`: the loops visit each unordered pair of different threads once;
- `weight_eq_ncard`: with the conjunct that is meant, the violated weight is the number of conflicting pairs of states;
- `maxConcurrency_iff`: with the conjunct of the code it is so exactly if there is no such pair.
-/
import Liss.Placement.Deadlock

namespace Liss

/-- a soft constraint: its value under the interpretation and its weight -/
structure SoftConstraint where
  value : Bool
  weight : ℕ
deriving DecidableEq, Repr

namespace PlaceLocks

/-- the weight that is lost -/
def violatedWeight (constraints : List SoftConstraint) : ℕ :=
  ((constraints.filter fun c => !c.value).map SoftConstraint.weight).sum

/-! ## The loops -/

section

variable (conjunct : Location → Location → ℕ → Bool) (locks : List ℕ)

/-- `c`, accumulated over all locks -/
def softValue (x y : Location) : Bool := locks.foldl (fun c l => c && conjunct x y l) true

/-- the loops over the states of two threads -/
def statePairs (t1 t2 : ℕ) (thread1 thread2 : AbstractCfg) : List (Location × Location) :=
  (stateIds thread1).flatMap fun i => (stateIds thread2).map fun j => (⟨t1, i⟩, ⟨t2, j⟩)

/-- the loop body for `thread2`; the first component is `t2` -/
def visitThread2 (t1 : ℕ) (thread1 : AbstractCfg) (p : ℕ × List SoftConstraint) (thread2 : AbstractCfg) :
    ℕ × List SoftConstraint :=
  if t1 ≤ p.1 then p
  else
    (p.1 + 1, p.2 ++ (statePairs t1 p.1 thread1 thread2).map fun xy => ⟨softValue conjunct locks xy.1 xy.2, 1⟩)

/-- the loop body for `thread1`; the first component is `t1` -/
def visitThread1 (threads : List AbstractCfg) (p : ℕ × List SoftConstraint) (thread1 : AbstractCfg) :
    ℕ × List SoftConstraint :=
  (p.1 + 1, (threads.foldl (visitThread2 conjunct locks p.1 thread1) (0, p.2)).2)

def addSoft (threads : List AbstractCfg) : List SoftConstraint :=
  (threads.foldl (visitThread1 conjunct locks threads) (0, [])).2

end

/-- `a, b` -/
def comma {α β : Type} (_ : α) (b : β) : β := b

/-- `(!inl(x,l) || !inl(y,l), 100)` as a truth value -/
def commaConjunct (m : LockAssignment) (x y : Location) (l : ℕ) : Bool :=
  comma (!m.inl x l || !m.inl y l) 100 != 0

/-- `cost_model_max_concurrency` -/
def costModelMaxConcurrency (m : LockAssignment) (locks : List ℕ) (threads : List AbstractCfg) : List SoftConstraint :=
  addSoft (commaConjunct m) locks threads

/-! ## The pairs of states -/

variable {m : LockAssignment} {locks : List ℕ} {threads : List AbstractCfg}
  {conjunct : Location → Location → ℕ → Bool}

/-- the pairs of states of two threads, those of the thread that comes later first -/
def allPairs (threads : List AbstractCfg) : List (Location × Location) :=
  threads.zipIdx.flatMap fun ct1 => (threads.zipIdx.filter fun ct2 => ct2.2 < ct1.2).flatMap fun ct2 =>
    statePairs ct1.2 ct2.2 ct1.1 ct2.1

theorem foldl_visitThread2_skip {t1 k : ℕ} (thread1 : AbstractCfg) (acc : List SoftConstraint) (h : t1 ≤ k)
    (l : List AbstractCfg) : l.foldl (visitThread2 conjunct locks t1 thread1) (k, acc) = (k, acc) := by
  induction l with
  | nil => rfl
  | cons c l ih =>
    rw [List.foldl_cons, visitThread2, if_pos h]
    exact ih

/-- the second thread is every one before the first -/
theorem foldl_visitThread2 (t1 : ℕ) (thread1 : AbstractCfg) (l : List AbstractCfg) (k : ℕ)
    (acc : List SoftConstraint) :
    (l.foldl (visitThread2 conjunct locks t1 thread1) (k, acc)).2 =
      acc ++ (((l.zipIdx k).filter fun ct2 => ct2.2 < t1).flatMap fun ct2 =>
        statePairs t1 ct2.2 thread1 ct2.1).map fun xy => ⟨softValue conjunct locks xy.1 xy.2, 1⟩ := by
  induction l generalizing k acc with
  | nil => simp
  | cons c l ih =>
    by_cases hk : t1 ≤ k
    · have hnil : ((c :: l).zipIdx k).filter (fun ct2 => ct2.2 < t1) = [] := by
        rw [List.filter_eq_nil_iff]
        intro ct2 hct2
        have hge := List.le_snd_of_mem_zipIdx hct2
        simp only [decide_eq_true_eq]
        omega
      rw [foldl_visitThread2_skip thread1 acc hk, hnil]
      simp
    · have hlt : k < t1 := not_le.1 hk
      rw [List.foldl_cons, visitThread2, if_neg hk, ih, List.zipIdx_cons, List.filter_cons_of_pos (by simpa using hlt),
        List.flatMap_cons, List.map_append, List.append_assoc]

theorem foldl_visitThread1 (l : List AbstractCfg) (k : ℕ) (acc : List SoftConstraint) :
    (l.foldl (visitThread1 conjunct locks threads) (k, acc)).2 =
      acc ++ ((l.zipIdx k).flatMap fun ct1 => (threads.zipIdx.filter fun ct2 => ct2.2 < ct1.2).flatMap fun ct2 =>
        statePairs ct1.2 ct2.2 ct1.1 ct2.1).map fun xy => ⟨softValue conjunct locks xy.1 xy.2, 1⟩ := by
  induction l generalizing k acc with
  | nil => simp
  | cons c l ih =>
    rw [List.foldl_cons, visitThread1, ih, foldl_visitThread2, List.zipIdx_cons, List.flatMap_cons, List.map_append,
      List.append_assoc]

/-- **The loops.** -/
theorem addSoft_eq : addSoft conjunct locks threads =
    (allPairs threads).map fun xy => ⟨softValue conjunct locks xy.1 xy.2, 1⟩ := by
  rw [addSoft, foldl_visitThread1, List.nil_append, allPairs]

theorem mem_allPairs {x y : Location} : (x, y) ∈ allPairs threads ↔
    y.thread < x.thread ∧ (∃ c, threads[x.thread]? = some c ∧ x.state ∈ stateIds c) ∧
      ∃ d, threads[y.thread]? = some d ∧ y.state ∈ stateIds d := by
  obtain ⟨t, i⟩ := x
  obtain ⟨u, j⟩ := y
  simp only [allPairs, statePairs, List.mem_flatMap, List.mem_filter, List.mem_map, Prod.exists,
    List.mem_zipIdx_iff_getElem?, decide_eq_true_eq, Prod.mk.injEq, Location.mk.injEq]
  constructor
  · intro h
    obtain ⟨c, t1, hc, d, t2, ⟨hd, hlt⟩, i', hi, j', hj, ⟨rfl, rfl⟩, rfl, rfl⟩ := h
    exact ⟨hlt, ⟨c, hc, hi⟩, d, hd, hj⟩
  · intro h
    obtain ⟨hlt, ⟨c, hc, hi⟩, d, hd, hj⟩ := h
    exact ⟨c, t, hc, d, u, ⟨hd, hlt⟩, i, hi, j, hj, ⟨rfl, rfl⟩, rfl, rfl⟩

theorem nodup_statePairs (t1 t2 : ℕ) (c d : AbstractCfg) : (statePairs t1 t2 c d).Nodup := by
  have hids : ∀ c : AbstractCfg, (stateIds c).Nodup := fun c => List.nodup_range'
  rw [statePairs, List.nodup_flatMap]
  refine ⟨fun i _ => (hids d).map fun j j' hj => ?_, (hids c).imp fun {i i'} hne => ?_⟩
  · exact (Location.mk.inj (Prod.mk.inj hj).2).2
  · intro xy hxy hxy'
    obtain ⟨j, -, rfl⟩ := List.mem_map.1 hxy
    obtain ⟨j', -, heq⟩ := List.mem_map.1 hxy'
    exact hne (Location.mk.inj (Prod.mk.inj heq).1).2.symm

theorem pairwise_zipIdx (l : List AbstractCfg) : l.zipIdx.Pairwise fun a b => a.2 ≠ b.2 := by
  have hnodup : (l.zipIdx.map Prod.snd).Nodup := by
    rw [List.zipIdx_map_snd]
    exact List.nodup_range'
  exact List.pairwise_map.1 hnodup

theorem nodup_allPairs (threads : List AbstractCfg) : (allPairs threads).Nodup := by
  have hthreads : ∀ {t1 t2 : ℕ} {c d : AbstractCfg} {xy}, xy ∈ statePairs t1 t2 c d →
      xy.1.thread = t1 ∧ xy.2.thread = t2 := by
    intro t1 t2 c d xy hxy
    obtain ⟨i, -, hxy⟩ := List.mem_flatMap.1 hxy
    obtain ⟨j, -, rfl⟩ := List.mem_map.1 hxy
    exact ⟨rfl, rfl⟩
  rw [allPairs, List.nodup_flatMap]
  refine ⟨fun ct1 _ => List.nodup_flatMap.2 ⟨fun ct2 _ => nodup_statePairs _ _ _ _, ?_⟩, ?_⟩
  · refine ((pairwise_zipIdx threads).filter _).imp fun {a b} hne xy hxy hxy' => ?_
    exact hne ((hthreads hxy).2.symm.trans (hthreads hxy').2)
  · refine (pairwise_zipIdx threads).imp fun {a b} hne xy hxy hxy' => ?_
    obtain ⟨ct2, -, hxy⟩ := List.mem_flatMap.1 hxy
    obtain ⟨ct2', -, hxy'⟩ := List.mem_flatMap.1 hxy'
    exact hne ((hthreads hxy).1.symm.trans (hthreads hxy').1)

/-! ## The weight -/

/-- two states of different threads that hold a common lock -/
def HoldCommon (m : LockAssignment) (locks : List ℕ) (threads : List AbstractCfg) (x y : Location) : Prop :=
  x.thread ≠ y.thread ∧ (∃ c, threads[x.thread]? = some c ∧ x.state ∈ stateIds c) ∧
    (∃ d, threads[y.thread]? = some d ∧ y.state ∈ stateIds d) ∧ ∃ l ∈ locks, m.inl x l = true ∧ m.inl y l = true

/-- the unordered pairs of such states -/
def conflictingPairs (m : LockAssignment) (locks : List ℕ) (threads : List AbstractCfg) : Set (Sym2 Location) :=
  {e | ∃ x y, e = s(x, y) ∧ HoldCommon m locks threads x y}

/-- the conjunct that is meant -/
def noCommonLock (m : LockAssignment) (x y : Location) (l : ℕ) : Bool := !m.inl x l || !m.inl y l

theorem softValue_eq (x y : Location) : softValue conjunct locks x y = locks.all (conjunct x y) := by
  have hfold : ∀ (l : List ℕ) (c : Bool), l.foldl (fun c l => c && conjunct x y l) c = (c && l.all (conjunct x y)) := by
    intro l
    induction l with
    | nil => simp
    | cons a l ih =>
      intro c
      rw [List.foldl_cons, ih, List.all_cons, Bool.and_assoc]
  rw [softValue, hfold, Bool.true_and]

/-- the weight is the number of pairs with a constraint that is false -/
theorem violatedWeight_addSoft : violatedWeight (addSoft conjunct locks threads) =
    (allPairs threads).countP fun xy => !softValue conjunct locks xy.1 xy.2 := by
  rw [addSoft_eq, violatedWeight, List.filter_map, List.map_map, List.countP_eq_length_filter,
    List.sum_eq_card_nsmul _ 1, List.length_map, nsmul_eq_mul, mul_one]
  · rfl
  · intro w hw
    obtain ⟨xy, -, rfl⟩ := List.mem_map.1 hw
    rfl

/-- the pairs that the constraints forbid are the conflicting ones -/
theorem conflictingPairs_eq : conflictingPairs m locks threads =
    (((allPairs threads).filter fun xy => !softValue (noCommonLock m) locks xy.1 xy.2).toFinset.image
      fun xy => s(xy.1, xy.2) : Finset (Sym2 Location)) := by
  have hvalue : ∀ x y, (!softValue (noCommonLock m) locks x y) = true ↔
      ∃ l ∈ locks, m.inl x l = true ∧ m.inl y l = true := by
    intro x y
    rw [softValue_eq]
    simp [noCommonLock]
  ext e
  simp only [conflictingPairs, Set.mem_ofPred_eq, Finset.coe_image, Set.mem_image, List.coe_toFinset, Prod.exists,
    List.mem_filter, hvalue]
  constructor
  · intro he
    obtain ⟨x, y, rfl, hne, hx, hy, l, hl, hxl, hyl⟩ := he
    rcases lt_or_gt_of_ne hne with hlt | hlt
    · exact ⟨y, x, ⟨mem_allPairs.2 ⟨hlt, hy, hx⟩, l, hl, hyl, hxl⟩, Sym2.eq_swap⟩
    · exact ⟨x, y, ⟨mem_allPairs.2 ⟨hlt, hx, hy⟩, l, hl, hxl, hyl⟩, rfl⟩
  · intro he
    obtain ⟨x, y, ⟨hmem, hl⟩, rfl⟩ := he
    obtain ⟨hlt, hx, hy⟩ := mem_allPairs.1 hmem
    exact ⟨x, y, rfl, hlt.ne', hx, hy, hl⟩

/-- **The constraints that are meant count the conflicting pairs.** -/
theorem weight_eq_ncard : violatedWeight (addSoft (noCommonLock m) locks threads) =
    (conflictingPairs m locks threads).ncard := by
  have hinj : Set.InjOn (fun xy : Location × Location => s(xy.1, xy.2))
      ((allPairs threads).filter fun xy => !softValue (noCommonLock m) locks xy.1 xy.2).toFinset := by
    intro xy hxy xy' hxy' heq
    simp only [List.coe_toFinset, Set.mem_ofPred_eq, List.mem_filter] at hxy hxy'
    have hlt := (mem_allPairs.1 hxy.1).1
    have hlt' := (mem_allPairs.1 hxy'.1).1
    rcases Sym2.eq_iff.1 heq with ⟨h1, h2⟩ | ⟨h1, h2⟩
    · exact Prod.ext h1 h2
    · rw [h1, h2] at hlt
      omega
  rw [violatedWeight_addSoft, conflictingPairs_eq, Set.ncard_coe_finset, Finset.card_image_of_injOn hinj,
    List.toFinset_card_of_nodup ((nodup_allPairs threads).filter _), List.countP_eq_length_filter]

/-- the constraints of the code are never violated -/
theorem violatedWeight_costModelMaxConcurrency : violatedWeight (costModelMaxConcurrency m locks threads) = 0 := by
  rw [costModelMaxConcurrency, violatedWeight_addSoft, List.countP_eq_zero]
  intro xy _
  rw [softValue_eq]
  simp [commaConjunct, comma]

/-- **The weight that a placement loses.** -/
theorem maxConcurrency_iff (m : LockAssignment) (locks : List ℕ) (threads : List AbstractCfg) :
    violatedWeight (costModelMaxConcurrency m locks threads) = (conflictingPairs m locks threads).ncard ↔
      ∀ x y, ¬HoldCommon m locks threads x y := by
  have hfinite : (conflictingPairs m locks threads).Finite := by
    rw [conflictingPairs_eq]
    exact Finset.finite_toSet _
  rw [violatedWeight_costModelMaxConcurrency, eq_comm, Set.ncard_eq_zero hfinite, Set.eq_empty_iff_forall_notMem]
  constructor
  · intro h x y hxy
    exact h s(x, y) ⟨x, y, rfl, hxy⟩
  · intro h e he
    obtain ⟨x, y, -, hxy⟩ := he
    exact h x y hxy

/-- the two writes hold the lock, and nothing is lost -/
theorem bothWrite_free : ¬∀ (m : LockAssignment) (locks : List ℕ) (threads : List AbstractCfg),
    violatedWeight (costModelMaxConcurrency m locks threads) = (conflictingPairs m locks threads).ncard := by
  intro hall
  have hone : violatedWeight (addSoft (noCommonLock oneWriteLocks) [0] bothWrite) = 1 := by decide
  have hnone := hall oneWriteLocks [0] bothWrite
  rw [violatedWeight_costModelMaxConcurrency, ← weight_eq_ncard, hone] at hnone
  exact absurd hnone (by decide)

end PlaceLocks

end Liss
