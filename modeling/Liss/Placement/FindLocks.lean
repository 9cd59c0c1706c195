/-
`place_locks::find_locks`, with the cost functions of `cost_model` and the statistics of the result.

The solver is a parameter that finds a placement of least weight among those that meet the hard constraints. Names and
printing are left out, and the statement of a symbol, by which `same_instructions` compares, is a function on symbols.

- `violatedWeight_costModel`: what each cost function minimises. `small_locks` asks twice for different locks, and
  `max_pairwise_concurrency` is `absolute_minimum`;
- `addConstraints_without`: a lock can be left out of a placement;
- `findLocks_optimal`: the placement meets the constraints and costs least;
- `findLocks_unused`: under a cost function no state holds a lock that guards no clause.
-/
import Liss.Lib.Solver
import Liss.Placement.CostModel
import Liss.Placement.Protection

namespace Liss

/-- `cost_type` -/
inductive CostType where
  | absoluteMinimum | smallLocks | coarse | unoptimized | maxPairwiseConcurrency
deriving DecidableEq, Repr

/-- `lock_statistics` -/
structure LockStatistics where
  locks : ℕ
  lockInstr : ℕ
  unlockInstr : ℕ
  inLock : ℕ
deriving DecidableEq, Repr

/-- `placement_result` -/
structure PlacementResult where
  locks : List SinglePlacement
  statistics : LockStatistics

namespace PlaceLocks

/-- an interpretation of the five functions, and of the constants `lock_ids` of a sort with `n` elements -/
structure PlacementModel (n : ℕ) where
  assignment : LockAssignment
  lockIds : ℕ → Fin n

/-- what is placed -/
def PlacementModel.placements {n : ℕ} (x : PlacementModel n) (threads : List AbstractCfg) (order : ModelOrder) :
    List SinglePlacement :=
  removeDuplicates threads (toPlace x.assignment n threads order)

/-- what the program that is printed with the placement executes -/
def PlacementModel.text {n : ℕ} (x : PlacementModel n) (threads : List AbstractCfg) (order : ModelOrder)
    (sort : LockSort) : PositionType → Location → List (PlacedOp × ℕ) :=
  PlaceLocks.text x.assignment n threads order sort

/-! ## The soft constraints -/

/-- all states, thread by thread -/
def locations (threads : List AbstractCfg) : List Location :=
  threads.zipIdx.flatMap fun ct => (stateIds ct.1).map fun i => ⟨ct.2, i⟩

/-- the loops over the states and the locks -/
def forLocks (n : ℕ) (threads : List AbstractCfg) (soft : Location → ℕ → List SoftConstraint) : List SoftConstraint :=
  (locations threads ×ˢ List.range n).flatMap fun xl => soft xl.1 xl.2

section

variable (stmtOf : Symbol → Option ℕ)

/-- the statements of one thread -/
def stmtsOf (lists : LockLists) (t : ℕ) : List ℕ := (lists.flatten.filter fun s => s.threadId = t).filterMap stmtOf

/-- `Limi::internal::set_intersection_empty` -/
def setIntersectionEmpty (a b : List ℕ) : Bool := a.all fun x => !b.contains x

/-- `same_instructions` for two locks; two violations would be normal -/
def sameInstructions (threads : ℕ) (a b : LockLists) : Bool :=
  !decide (2 < (List.range threads ×ˢ List.range threads).countP fun t =>
    !(stmtsOf stmtOf a t.1).isEmpty && !(stmtsOf stmtOf b t.2).isEmpty &&
      setIntersectionEmpty (stmtsOf stmtOf a t.1) (stmtsOf stmtOf b t.2))

/-- `same_instructions` for two clauses -/
def sameInstructionsAny (threads : ℕ) (a b : Disj LockLists) : Bool :=
  a.any fun a1 => b.any fun b1 => sameInstructions stmtOf threads a1 b1

/-- the clauses `i` and `j` should have different locks -/
def separated (threads : ℕ) (locksToPlace : LockSymbols) (ij : ℕ × ℕ) : Bool :=
  decide (ij.2 ≠ ij.1) &&
    !sameInstructionsAny stmtOf threads (locksToPlace.getD ij.1 []) (locksToPlace.getD ij.2 [])

/-- the loops over the pairs of clauses -/
def separate {n : ℕ} (x : PlacementModel n) (threads : ℕ) (locksToPlace : LockSymbols) : List SoftConstraint :=
  ((List.range locksToPlace.length ×ˢ List.range locksToPlace.length).filter
    (separated stmtOf threads locksToPlace)).map fun ij => ⟨decide (x.lockIds ij.1 ≠ x.lockIds ij.2), 100⟩

/-- `cost_model` -/
def costModel (costFunction : CostType) {n : ℕ} (x : PlacementModel n) (threads : List AbstractCfg)
    (locksToPlace : LockSymbols) : List SoftConstraint :=
  let held := forLocks n threads fun y l => [⟨!x.assignment.inl y l, 1⟩]
  match costFunction with
  | .unoptimized => []
  | .maxPairwiseConcurrency => held ++ costModelMaxConcurrency x.assignment (List.range n) threads
  | .absoluteMinimum => held
  -- in a case of the switch, and once more after it
  | .smallLocks => held ++ separate stmtOf x threads.length locksToPlace ++ separate stmtOf x threads.length locksToPlace
  | .coarse => held ++ forLocks n threads fun y l => [⟨!x.assignment.lockB y l, 20⟩, ⟨!x.assignment.lockA y l, 20⟩]

end

/-! ## `find_locks` -/

/-- `get_statistics` -/
def getStatistics (toLock : List SinglePlacement) (m : LockAssignment) (n : ℕ) (threads : List AbstractCfg) :
    LockStatistics where
  locks := (toLock.map SinglePlacement.lock).dedup.length
  lockInstr := toLock.countP fun p => p.lockT = .lock
  unlockInstr := toLock.countP fun p => p.lockT = .unlock
  inLock := (locations threads).countP fun y =>
    (stateAt threads y).nonActionSymbol.isNone && (List.range n).any fun l => m.inl y l

/-- `locked_together` and `add_constraints` -/
def hard (ord : HashOrder) (threads : List AbstractCfg) (locksToPlace : LockSymbols) {n : ℕ} (x : PlacementModel n) :
    Bool :=
  lockedTogether x.assignment (fun k => x.lockIds k) locksToPlace &&
    addConstraints x.assignment (List.range n) ord threads

/-- `max_locks` of `find_locks`: not more locks than conflicts -/
def limitedLocks (lockLimit : ℕ) (locksToPlace : LockSymbols) : ℕ := min lockLimit locksToPlace.length

/-- `find_locks` -/
def findLocks (z3 : ∀ n, Optimizer (PlacementModel n)) (ord : HashOrder) (order : ModelOrder)
    (stmtOf : Symbol → Option ℕ) (lockLimit : ℕ) (threads : List AbstractCfg) (locksToPlace : LockSymbols)
    (costFunction : CostType) : Option PlacementResult :=
  let n := limitedLocks lockLimit locksToPlace
  ((z3 n).check (hard ord threads locksToPlace) fun x =>
    violatedWeight (costModel stmtOf costFunction x threads locksToPlace)).map fun x =>
      let toPlace := x.placements threads order
      ⟨toPlace, getStatistics toPlace x.assignment n threads⟩

/-! ## The weights -/

theorem violatedWeight_append (a b : List SoftConstraint) :
    violatedWeight (a ++ b) = violatedWeight a + violatedWeight b := by
  simp [violatedWeight]

/-- the number of states and locks for which a function is true -/
def count (n : ℕ) (threads : List AbstractCfg) (f : Location → ℕ → Bool) : ℕ :=
  (locations threads ×ˢ List.range n).countP fun xl => f xl.1 xl.2

/-- one constraint of the same weight for each state and lock -/
theorem violatedWeight_forLocks (n : ℕ) (threads : List AbstractCfg) (f : Location → ℕ → Bool) (weight : ℕ) :
    violatedWeight (forLocks n threads fun y l => [⟨!f y l, weight⟩]) = weight * count n threads f := by
  unfold forLocks count
  induction locations threads ×ˢ List.range n with
  | nil => rfl
  | cons xl l ih =>
    rw [List.flatMap_cons, violatedWeight_append, ih]
    cases h : f xl.1 xl.2 with
    | false => simp [violatedWeight, h]
    | true =>
      simp [violatedWeight, h]
      ring

theorem violatedWeight_forLocks_append (n : ℕ) (threads : List AbstractCfg) (f g : Location → ℕ → List SoftConstraint) :
    violatedWeight (forLocks n threads fun y l => f y l ++ g y l) =
      violatedWeight (forLocks n threads f) + violatedWeight (forLocks n threads g) := by
  unfold forLocks
  induction locations threads ×ˢ List.range n with
  | nil => rfl
  | cons xl l ih =>
    simp only [List.flatMap_cons, violatedWeight_append, ih]
    omega

/-- the pairs of clauses that have one lock although they should not -/
def confused (stmtOf : Symbol → Option ℕ) {n : ℕ} (x : PlacementModel n) (threads : ℕ) (locksToPlace : LockSymbols) : ℕ :=
  (List.range locksToPlace.length ×ˢ List.range locksToPlace.length).countP fun ij =>
    separated stmtOf threads locksToPlace ij && decide (x.lockIds ij.1 = x.lockIds ij.2)

theorem violatedWeight_separate (stmtOf : Symbol → Option ℕ) {n : ℕ} (x : PlacementModel n) (threads : ℕ)
    (locksToPlace : LockSymbols) :
    violatedWeight (separate stmtOf x threads locksToPlace) = 100 * confused stmtOf x threads locksToPlace := by
  unfold separate confused
  induction List.range locksToPlace.length ×ˢ List.range locksToPlace.length with
  | nil => rfl
  | cons ij l ih =>
    cases hs : separated stmtOf threads locksToPlace ij with
    | false => rw [List.filter_cons_of_neg (by simp [hs]), ih, List.countP_cons_of_neg (by simp [hs])]
    | true =>
      rw [List.filter_cons_of_pos hs, List.map_cons, ← List.singleton_append, violatedWeight_append, ih]
      by_cases heq : x.lockIds ij.1 = x.lockIds ij.2
      · rw [List.countP_cons_of_pos (by simp [hs, heq])]
        simp [violatedWeight, heq]
        ring
      · rw [List.countP_cons_of_neg (by simp [hs, heq])]
        simp [violatedWeight, heq]

/-- what a cost function minimises -/
def cost (stmtOf : Symbol → Option ℕ) (costFunction : CostType) {n : ℕ} (x : PlacementModel n)
    (threads : List AbstractCfg) (locksToPlace : LockSymbols) : ℕ :=
  match costFunction with
  | .unoptimized => 0
  | .maxPairwiseConcurrency | .absoluteMinimum => count n threads x.assignment.inl
  | .smallLocks => count n threads x.assignment.inl + 200 * confused stmtOf x threads.length locksToPlace
  | .coarse => count n threads x.assignment.inl +
      20 * (count n threads x.assignment.lockB + count n threads x.assignment.lockA)

/-- **The cost functions.** -/
theorem violatedWeight_costModel (stmtOf : Symbol → Option ℕ) (costFunction : CostType) {n : ℕ} (x : PlacementModel n)
    (threads : List AbstractCfg) (locksToPlace : LockSymbols) :
    violatedWeight (costModel stmtOf costFunction x threads locksToPlace) =
      cost stmtOf costFunction x threads locksToPlace := by
  have hheld := violatedWeight_forLocks n threads x.assignment.inl 1
  rw [one_mul] at hheld
  cases costFunction with
  | unoptimized => rfl
  | absoluteMinimum => exact hheld
  | maxPairwiseConcurrency =>
    rw [costModel, violatedWeight_append, violatedWeight_costModelMaxConcurrency]
    exact hheld
  | smallLocks =>
    rw [costModel, violatedWeight_append, violatedWeight_append, violatedWeight_separate, hheld, cost]
    ring
  | coarse =>
    have hboth := violatedWeight_forLocks_append n threads (fun y l => [⟨!x.assignment.lockB y l, 20⟩])
      fun y l => [⟨!x.assignment.lockA y l, 20⟩]
    rw [violatedWeight_forLocks, violatedWeight_forLocks] at hboth
    rw [costModel, violatedWeight_append, hheld, cost, Nat.mul_add]
    exact congrArg _ hboth

/-! ## A placement without one lock -/

/-- the assignment without lock `l` -/
def without (m : LockAssignment) (l : ℕ) : LockAssignment where
  lockB x l' := l' != l && m.lockB x l'
  unlockB x l' := l' != l && m.unlockB x l'
  lockA x l' := l' != l && m.lockA x l'
  unlockA x l' := l' != l && m.unlockA x l'
  inl x l' := l' != l && m.inl x l'

variable {m : LockAssignment} {l l0 n : ℕ} {locks : List ℕ} {ord : HashOrder} {threads : List AbstractCfg}
  {c : AbstractCfg} {t i : ℕ}

theorem inle_without (m : LockAssignment) (l0 : ℕ) (y : Location) (l : ℕ) :
    inle (without m l0) y l = (l != l0 && inle m y l) := by
  simp only [inle, without]
  cases (l != l0) <;> simp

theorem lockOrderBefore_without {x q : Location} (h : lockOrderBefore m locks l x q = true) :
    lockOrderBefore (without m l0) locks l x q = true := by
  simp only [lockOrderBefore, List.all_eq_true] at h ⊢
  intro lb hlb
  have hlb := h lb hlb
  simp only [imp, without] at hlb ⊢
  cases (l != l0) <;> cases (lb != l0) <;> simp_all

theorem lockOrderAfter_without {x : Location} (h : lockOrderAfter m locks l x = true) :
    lockOrderAfter (without m l0) locks l x = true := by
  simp only [lockOrderAfter, List.all_eq_true] at h ⊢
  intro lb hlb
  have hlb := h lb hlb
  simp only [imp, without] at hlb ⊢
  cases (l != l0) <;> cases (lb != l0) <;> simp_all

theorem consPredecessors_without (h : consPredecessors m locks ord c t i l = true) :
    consPredecessors (without m l0) locks ord c t i l = true := by
  unfold consPredecessors at h ⊢
  split
  · rename_i hvisit
    simp only [hvisit, Bool.and_eq_true, beq_iff_eq] at h
    simp [without, h.1, h.2]
  · rename_i first rest hvisit
    simp only [hvisit, Bool.and_eq_true, beq_iff_eq, List.all_eq_true] at h
    simp only [Bool.and_eq_true, beq_iff_eq, List.all_eq_true]
    refine ⟨?_, fun j hj => ⟨lockOrderBefore_without (h.2 j hj).1, ?_⟩⟩
    · rw [inle_without]
      simp only [without, h.1]
      cases (l != l0) <;> simp
    · have hunlock := (h.2 j hj).2
      simp only [imp, without] at hunlock ⊢
      cases (l != l0) <;> simp_all

theorem lockConsistancyAt_without (h : lockConsistancyAt m locks ord c t i l = true) :
    lockConsistancyAt (without m l0) locks ord c t i l = true := by
  simp only [lockConsistancyAt, Bool.and_eq_true] at h ⊢
  obtain ⟨⟨⟨⟨⟨⟨hloc, hbasic⟩, hpreemption⟩, hfunctions⟩, hpred⟩, hafter⟩, hjoin⟩ := h
  refine ⟨⟨⟨⟨⟨⟨?_, ?_⟩, ?_⟩, ?_⟩, consPredecessors_without hpred⟩, ?_⟩, ?_⟩
  · simp only [consLoc, without] at hloc ⊢
    cases (l != l0) <;> simp_all
  · simp only [consBasic, without] at hbasic ⊢
    cases (l != l0) <;> simp_all
  · simp only [consPreemption, imp, without] at hpreemption ⊢
    cases (l != l0) <;> simp_all
  · simp only [consFunctions, without] at hfunctions ⊢
    cases (l != l0) <;> simp_all
  · simp only [consAfter, Bool.and_eq_true] at hafter ⊢
    refine ⟨lockOrderAfter_without hafter.1, ?_⟩
    have hunlock := hafter.2
    simp only [imp, without] at hunlock ⊢
    cases (l != l0) <;> simp_all
  · unfold consJoin at hjoin ⊢
    split
    · rfl
    · rename_i first rest hvisit
      simp only [hvisit, List.all_eq_true, beq_iff_eq] at hjoin
      simp only [List.all_eq_true, beq_iff_eq, inle_without]
      exact fun j hj => by rw [hjoin j hj]

theorem sameAt_without {f : State → Option ℕ} {lock unlock : Location → ℕ → Bool}
    (h : sameAt locks threads f lock unlock = true) :
    sameAt locks threads f (fun x l => l != l0 && lock x l) (fun x l => l != l0 && unlock x l) = true := by
  simp only [sameAt, List.all_eq_true] at h ⊢
  intro source hsource
  have h := h source hsource
  split
  · rfl
  · rename_i first rest hpositions
    simp only [hpositions, List.all_eq_true, Bool.and_eq_true, beq_iff_eq] at h
    simp only [List.all_eq_true, Bool.and_eq_true, beq_iff_eq]
    exact fun l hl x hx => by rw [(h l hl x hx).1, (h l hl x hx).2]; exact ⟨rfl, rfl⟩

/-- **A lock can be left out.** -/
theorem addConstraints_without (h : addConstraints m locks ord threads = true) :
    addConstraints (without m l0) locks ord threads = true := by
  simp only [addConstraints, lockConsistancy, lockSameinstr, Bool.and_eq_true, List.all_eq_true] at h ⊢
  exact ⟨fun ct hct i hi l hl => lockConsistancyAt_without (h.1 ct hct i hi l hl), sameAt_without h.2.1,
    sameAt_without h.2.2⟩

/-- the other locks guard what they guarded -/
theorem lockedTogether_without {lockIds : ℕ → ℕ} {locksToPlace : LockSymbols}
    (h : lockedTogether m lockIds locksToPlace = true) (hunused : ∀ k < locksToPlace.length, lockIds k ≠ l0) :
    lockedTogether (without m l0) lockIds locksToPlace = true := by
  simp only [lockedTogether, List.all_eq_true, List.any_eq_true] at h ⊢
  rintro ⟨d, k⟩ hdk
  obtain ⟨lists, hlists, hall⟩ := h (d, k) hdk
  refine ⟨lists, hlists, fun list hlist pl hpl => ?_⟩
  have hk : k < locksToPlace.length := (List.mem_zipIdx' hdk).1
  simp [without, hall list hlist pl hpl, hunused k hk]

/-! ## The optimum -/

variable {stmtOf : Symbol → Option ℕ} {locksToPlace : LockSymbols} {costFunction : CostType}

theorem count_mono {f g : Location → ℕ → Bool} (h : ∀ y l, f y l = true → g y l = true) :
    count n threads f ≤ count n threads g :=
  List.countP_mono_left fun xl _ hf => h xl.1 xl.2 hf

/-- a count that misses one element is smaller -/
theorem countP_lt {α : Type*} {f g : α → Bool} {l : List α} (h : ∀ a ∈ l, f a = true → g a = true) {a : α} (ha : a ∈ l)
    (hf : f a = false) (hg : g a = true) : l.countP f < l.countP g := by
  obtain ⟨l1, l2, rfl⟩ := List.append_of_mem ha
  have h1 := List.countP_mono_left (l := l1) fun b hb => h b (List.mem_append_left _ hb)
  have h2 := List.countP_mono_left (l := l2) fun b hb => h b (List.mem_append_right _ (List.mem_cons_of_mem _ hb))
  rw [List.countP_append, List.countP_append, List.countP_cons_of_neg (by simp [hf]), List.countP_cons_of_pos hg]
  omega

/-- what holds of the result of `find_locks` -/
structure Optimal (stmtOf : Symbol → Option ℕ) (ord : HashOrder) (threads : List AbstractCfg)
    (locksToPlace : LockSymbols) (costFunction : CostType) {n : ℕ} (x : PlacementModel n) : Prop where
  hard : hard ord threads locksToPlace x = true
  least : ∀ y : PlacementModel n, PlaceLocks.hard ord threads locksToPlace y = true →
    cost stmtOf costFunction x threads locksToPlace ≤ cost stmtOf costFunction y threads locksToPlace

/-- without a lock that is held somewhere a placement costs less -/
theorem cost_without (hcost : costFunction ≠ .unoptimized) {x : PlacementModel n} {l : Fin n} {y : Location}
    (hy : y ∈ locations threads) (hheld : x.assignment.inl y l = true) :
    cost stmtOf costFunction { x with assignment := without x.assignment l } threads locksToPlace <
      cost stmtOf costFunction x threads locksToPlace := by
  have hmono : ∀ f : Location → ℕ → Bool, count n threads (fun y l' => l' != l.1 && f y l') ≤ count n threads f :=
    fun f => count_mono fun y l' h => (Bool.and_eq_true_iff.1 h).2
  have hlt : count n threads (without x.assignment l).inl < count n threads x.assignment.inl := by
    refine countP_lt (fun xl _ h => (Bool.and_eq_true_iff.1 h).2)
      (List.mem_product.2 ⟨hy, List.mem_range.2 l.2⟩ : (y, l.1) ∈ locations threads ×ˢ List.range n) ?_ hheld
    simp [without]
  have hb : count n threads (without x.assignment l).lockB ≤ count n threads x.assignment.lockB := hmono _
  have ha : count n threads (without x.assignment l).lockA ≤ count n threads x.assignment.lockA := hmono _
  cases costFunction with
  | unoptimized => exact absurd rfl hcost
  | absoluteMinimum => exact hlt
  | maxPairwiseConcurrency => exact hlt
  | smallLocks => exact Nat.add_lt_add_right hlt _
  | coarse =>
    simp only [cost]
    omega

/-- **No state holds a lock that guards no clause.** -/
theorem Optimal.unused {x : PlacementModel n} (h : Optimal stmtOf ord threads locksToPlace costFunction x)
    (hcost : costFunction ≠ .unoptimized) {l : Fin n} (hunused : ∀ k < locksToPlace.length, x.lockIds k ≠ l)
    {y : Location} (hy : y ∈ locations threads) : x.assignment.inl y l = false := by
  by_contra hheld
  obtain ⟨htogether, hconstraints⟩ := Bool.and_eq_true_iff.1 h.hard
  have hhard : PlaceLocks.hard ord threads locksToPlace { x with assignment := without x.assignment l } = true :=
    Bool.and_eq_true_iff.2 ⟨lockedTogether_without htogether fun k hk heq => hunused k hk (Fin.ext heq),
      addConstraints_without hconstraints⟩
  have hheld : x.assignment.inl y l = true := by simpa using hheld
  exact absurd (h.least _ hhard) (not_le.2 (cost_without hcost hy hheld))

variable {z3 : ∀ n, Optimizer (PlacementModel n)} {order : ModelOrder} {lockLimit : ℕ} {result : PlacementResult}

/-- not more locks are in use than there are -/
theorem getStatistics_locks (m : LockAssignment) (n : ℕ) (threads : List AbstractCfg) (order : ModelOrder) :
    (getStatistics (removeDuplicates threads (toPlace m n threads order)) m n threads).locks ≤ n := by
  have hsub : ((removeDuplicates threads (toPlace m n threads order)).map SinglePlacement.lock).dedup ⊆ List.range n := by
    intro l hl
    obtain ⟨p, hp, rfl⟩ := List.mem_map.1 (List.mem_dedup.1 hl)
    exact List.mem_range.2 (mem_entries.1 ((mem_toPlace order).1 (mem_of_mem_removeDuplicates threads hp))).1
  calc _ ≤ (List.range n).length := ((List.nodup_dedup _).subperm hsub).length_le
    _ = n := List.length_range

/-- **`find_locks`.** The placement is one of least cost among all that meet the constraints, and unless nothing is
optimised it holds no lock that guards no clause. -/
theorem findLocks_optimal
    (h : findLocks z3 ord order stmtOf lockLimit threads locksToPlace costFunction = some result) :
    ∃ x : PlacementModel (limitedLocks lockLimit locksToPlace), Optimal stmtOf ord threads locksToPlace costFunction x ∧
      result.locks = x.placements threads order ∧
      result.statistics.locks ≤ limitedLocks lockLimit locksToPlace ∧
      (costFunction ≠ .unoptimized → ∀ l, (∀ k < locksToPlace.length, x.lockIds k ≠ l) →
        ∀ y ∈ locations threads, x.assignment.inl y l = false) := by
  obtain ⟨x, hx, rfl⟩ := Option.map_eq_some_iff.1 h
  have hopt : Optimal stmtOf ord threads locksToPlace costFunction x := by
    refine ⟨(z3 _).sound _ _ x hx, fun y hy => ?_⟩
    rw [← violatedWeight_costModel, ← violatedWeight_costModel]
    exact (z3 _).least _ _ x hx y hy
  exact ⟨x, hopt, rfl, getStatistics_locks _ _ _ _, fun hcost l hunused y hy => hopt.unused hcost hunused hy⟩

/-- a placement is found, and it holds the lock at four states at most -/
theorem pair_found : ∃ (result : PlacementResult) (x : PlacementModel 1),
    findLocks (fun _ => Optimizer.ideal _) ⟨id, fun _ => .refl _⟩ ⟨id, fun _ => .refl _⟩ (fun _ => none) 4
      pairProgram.threads (blowUpLock pairProgram pairLocks) .absoluteMinimum = some result ∧
    result.locks = x.placements pairProgram.threads ⟨id, fun _ => .refl _⟩ ∧
    count 1 pairProgram.threads x.assignment.inl ≤ 4 := by
  have hhard : hard ⟨id, fun _ => .refl _⟩ pairProgram.threads (blowUpLock pairProgram pairLocks)
      (⟨aroundPair, fun _ => 0⟩ : PlacementModel 1) = true := by
    decide
  obtain ⟨result, hresult⟩ : ∃ result, findLocks (fun _ => Optimizer.ideal _) ⟨id, fun _ => .refl _⟩
      ⟨id, fun _ => .refl _⟩ (fun _ => none) 4 pairProgram.threads (blowUpLock pairProgram pairLocks)
      .absoluteMinimum = some result := by
    refine ⟨_, Option.map_eq_some_iff.2 ⟨_, dif_pos ?_, rfl⟩⟩
    exact ⟨(⟨aroundPair, fun _ => 0⟩ : PlacementModel 1), hhard⟩
  obtain ⟨x, hopt, hlocks, -, -⟩ := findLocks_optimal hresult
  refine ⟨result, x, hresult, hlocks, ?_⟩
  calc count 1 pairProgram.threads x.assignment.inl
      ≤ count 1 pairProgram.threads aroundPair.inl := hopt.least (⟨aroundPair, fun _ => 0⟩ : PlacementModel 1) hhard
    _ ≤ 4 := by decide

end PlaceLocks

end Liss
