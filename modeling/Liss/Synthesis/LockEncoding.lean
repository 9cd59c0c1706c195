/-
The constraint `locks` of `prepare_trace` and the locks of `apply_symbol`, one lock at a time.

- `lockPass`: replaying a word, no lock operation on the variable finds it taken;
- `lockPass_word`, `exclusive_word`: what `lockPass` and `exclusive` say of the locations of an ordering;
- `LockExact`: the two agree for every ordering of the locations;
- `TakesTurns`: the condition on the lock and unlock operations, which `prepare_trace` pairs thread by thread;
- `lockExact_of_takesTurns`: under it the constraint is exact.
-/
import Liss.Synthesis.Replays

namespace Liss.Synthesis

open ConcurrentAutomaton

variable {ids : Identifiers} {threads : ℕ} {w : List Symbol} {v : ℕ} {g : Assignment}

/-! ## Orderings -/

/-- an ordering of the locations, with the final location at its end -/
structure IsOrdering (w : List Symbol) (g : Assignment) : Prop extends KeepsThreadOrder w g where
  final : ∀ l ∈ splitTrace w, g l.position < g (finalState w)

/-- `thread_order` and `distinct` ask for an ordering -/
theorem isOrdering_of (hw : OfThreads threads w) (ho : threadOrder threads w g = true) (hd : distinct w g = true) :
    IsOrdering w g :=
  ⟨keepsThreadOrder_of hw ho hd, fun _ => lt_finalState hw ho hd⟩

/-- the original order -/
theorem isOrdering_position (w : List Symbol) : IsOrdering w fun i => (i : ℤ) :=
  ⟨(word_position w).2, fun _ hl => Int.ofNat_lt.2 (position_lt hl)⟩

/-! ## One lock -/

/-- the test of `apply_symbol` for one lock -/
def lockPassesOf (v : ℕ) (locks : Finset ℕ) (s : Symbol) : Bool := s.var ≠ v || lockPasses locks s

def lockPass (v : ℕ) (w : List Symbol) : Bool := replays lockEffect (lockPassesOf v) ∅ w

theorem lockPass_iff : lockPass v w = true ↔ ∀ pre s post, w = pre ++ s :: post →
    s.operation = .lock ∧ s.var = v → replay (lockBit v) pre = false := by
  rw [lockPass, replays_iff]
  refine forall₃_congr fun pre s post => imp_congr_right fun _ => ?_
  unfold lockPassesOf lockPasses
  by_cases hv : s.var = v
  · subst hv
    cases s.operation <;> simp [mem_lockBits]
  · simp [hv]

theorem locksPass_iff_lockPass : locksPass w = true ↔ ∀ v, lockPass v w = true := by
  rw [locksPass_iff]
  constructor
  · intro h v
    rw [lockPass_iff]
    rintro pre s post heq ⟨hop, rfl⟩
    exact h pre s post heq hop
  · exact fun h pre s post heq hop => lockPass_iff.1 (h s.var) pre s post heq ⟨hop, rfl⟩

/-- a location that locks the variable -/
def LockAt (w : List Symbol) (v : ℕ) (l : TraceLocation) : Prop := l ∈ splitTrace w ∧ isLockOf v l = true

/-- a location that unlocks the variable -/
def UnlockAt (w : List Symbol) (v : ℕ) (l : TraceLocation) : Prop := l ∈ splitTrace w ∧ isUnlockOf v l = true

theorem isLockOf_iff {l : TraceLocation} : isLockOf v l = true ↔ l.symbol.operation = .lock ∧ l.symbol.var = v := by
  simp [isLockOf]

theorem isUnlockOf_iff {l : TraceLocation} :
    isUnlockOf v l = true ↔ l.symbol.operation = .unlock ∧ l.symbol.var = v := by
  simp [isUnlockOf]

theorem LockAt.ne_unlock {x u : TraceLocation} (hx : LockAt w v x) (hu : UnlockAt w v u) : x ≠ u := by
  rintro rfl
  have hlock := (isLockOf_iff.1 hx.2).1
  rw [(isUnlockOf_iff.1 hu.2).1] at hlock
  exact absurd hlock (by simp)

/-- between two lock operations the variable is unlocked -/
theorem lockPass_word (hg : Separates w g) : lockPass v (word w g) = true ↔
    ∀ x y, LockAt w v x → LockAt w v y → g x.position < g y.position →
      ∃ u, UnlockAt w v u ∧ g x.position < g u.position ∧ g u.position < g y.position := by
  rw [lockPass_iff]
  have hfree : ∀ {pre post : List TraceLocation} {y : TraceLocation}, reordered w g = pre ++ y :: post →
      (replay (lockBit v) (pre.map TraceLocation.symbol) = false ↔ ∀ x, LockAt w v x → g x.position < g y.position →
        ∃ u, UnlockAt w v u ∧ g x.position < g u.position ∧ g u.position < g y.position) := by
    intro pre post y heq
    rw [Bool.eq_false_iff, Ne, replay_reordered hg heq]
    simp only [LockAt, UnlockAt, isLockOf_iff, isUnlockOf_iff, lockBit_lock, not_exists, not_and]
    refine forall_congr' fun x => ⟨fun h hx hlt => ?_, fun h hx hlt hbit hall => ?_⟩
    · have := h hx.1 hlt hx.2
      push Not at this
      obtain ⟨u, hu, hxu, huy, hop⟩ := this
      exact ⟨u, ⟨hu, lockBit_unlock.1 hop⟩, hxu, huy⟩
    · obtain ⟨u, hu, hxu, huy⟩ := h ⟨hx, hbit⟩ hlt
      exact hall u hu.1 hxu huy (lockBit_unlock.2 hu.2)
  constructor
  · intro h x y hx hy hlt
    obtain ⟨pre, post, heq⟩ := List.append_of_mem (mem_reordered.2 hy.1 : y ∈ reordered w g)
    refine (hfree heq).1 (h _ y.symbol (post.map TraceLocation.symbol) ?_ (isLockOf_iff.1 hy.2)) x hx hlt
    rw [word, heq, List.map_append, List.map_cons]
  · intro h pre s post heq hop
    obtain ⟨pre', rest, hre, rfl, hrest⟩ := List.map_eq_append_iff.1 heq
    obtain ⟨y, post', rfl, rfl, rfl⟩ := List.map_eq_cons_iff.1 hrest
    have hy : LockAt w v y := ⟨mem_reordered.1 (by rw [hre]; simp), isLockOf_iff.2 hop⟩
    exact (hfree hre).2 fun x hx hlt => h x y hx hy hlt

/-! ## The pairs of the lock -/

/-- the constraint for two pairs of one variable -/
theorem exclusive_iff {prs : List LockPair} (h : exclusive w prs g = true) {pr pr2 : LockPair} (hpr : pr ∈ prs)
    (hpr2 : pr2 ∈ prs) (hne : pr ≠ pr2) :
    g (pr2.endOf w) < g pr.lock.position ∨ g pr.lock.position < g pr2.lock.position := by
  obtain ⟨i, hi⟩ := List.mem_iff_getElem?.1 hpr
  obtain ⟨j, hj⟩ := List.mem_iff_getElem?.1 hpr2
  have hij : i ≠ j := fun h => hne (Option.some.inj (hi.symm.trans (by rw [h, hj])))
  simp only [exclusive, List.all_eq_true, Bool.or_eq_true, decide_eq_true_eq, beq_iff_eq] at h
  rcases h (pr, i) (List.mem_zipIdx_iff_getElem?.2 hi) (pr2, j) (List.mem_zipIdx_iff_getElem?.2 hj) with (h | h) | h
  · exact absurd h hij
  · exact Or.inl h
  · exact Or.inr h

section
variable {prs : List LockPair} (hw : OfThreads threads w) (hgat : Gathered v (traversal threads w) prs)
include hw hgat

theorem Gathered.lockAt {pr : LockPair} (hpr : pr ∈ prs) : LockAt w v pr.lock :=
  ⟨(mem_traversal hw).1 (hgat.mem_lock hpr).1, (hgat.mem_lock hpr).2⟩

theorem Gathered.exists_pair {x : TraceLocation} (hx : LockAt w v x) : ∃ pr ∈ prs, pr.lock = x := by
  apply List.mem_map.1
  rw [hgat.locks]
  exact List.mem_filter.2 ⟨(mem_traversal hw).2 hx.1, hx.2⟩

theorem Gathered.unlockAt {pr : LockPair} (hpr : pr ∈ prs) {u : TraceLocation} (hu : pr.unlock = some u) :
    UnlockAt w v u :=
  ⟨(mem_traversal hw).1 (hgat.ended pr hpr u hu).mem, (hgat.ended pr hpr u hu).unlock⟩

omit hw in
/-- a location is entered as a lock once -/
theorem Gathered.nodup : (prs.map LockPair.lock).Nodup := by
  rw [hgat.locks]
  refine ((traversal_visited threads w).filter _).imp ?_
  rintro x y hvis rfl
  exact hvis.irrefl

omit hw in
theorem Gathered.eq_of_lock {pr pr2 : LockPair} (hpr : pr ∈ prs) (hpr2 : pr2 ∈ prs) (h : pr.lock = pr2.lock) :
    pr = pr2 := List.inj_on_of_nodup_map hgat.nodup hpr hpr2 h

/-- the sections exclude each other -/
theorem Gathered.exclusive_word (hg : Separates w g) : exclusive w prs g = true ↔
    ∀ pr ∈ prs, ∀ y, LockAt w v y → g pr.lock.position < g y.position → g (pr.endOf w) < g y.position := by
  constructor
  · intro h pr hpr y hy hlt
    obtain ⟨pr2, hpr2, rfl⟩ := hgat.exists_pair hw hy
    have hne : pr2 ≠ pr := by
      rintro rfl
      exact absurd hlt (lt_irrefl _)
    rcases exclusive_iff h hpr2 hpr hne with hend | hback
    · exact hend
    · exact absurd (hlt.trans hback) (lt_irrefl _)
  · intro h
    simp only [exclusive, List.all_eq_true, Bool.or_eq_true, decide_eq_true_eq, beq_iff_eq]
    rintro ⟨pr2, i⟩ hi ⟨pr, j⟩ hj
    rw [List.mem_zipIdx_iff_getElem?] at hi hj
    by_cases hij : i = j
    · exact Or.inl (Or.inl hij)
    have hpr := List.mem_of_getElem? hj
    have hpr2 := List.mem_of_getElem? hi
    -- different places have different locks, and so different values
    have hlock : g pr2.lock.position ≠ g pr.lock.position := by
      intro heq
      have hsame := hg _ (hgat.lockAt hw hpr2).1 _ (hgat.lockAt hw hpr).1 heq
      have hi' : (prs.map LockPair.lock)[i]? = some pr2.lock := by simp [hi]
      have hj' : (prs.map LockPair.lock)[j]? = some pr2.lock := by
        rw [List.getElem?_map, hj]
        exact congrArg some hsame.symm
      obtain ⟨hil, hi'⟩ := List.getElem?_eq_some_iff.1 hi'
      obtain ⟨hjl, hj'⟩ := List.getElem?_eq_some_iff.1 hj'
      exact hij ((hgat.nodup.getElem_inj_iff).1 (hi'.trans hj'.symm))
    rcases lt_or_gt_of_ne hlock with hlt | hgt
    · exact Or.inr hlt
    · exact Or.inl (Or.inr (h pr hpr _ (hgat.lockAt hw hpr2) hgt))

end

theorem mem_of_mapM {α β : Type*} {f : α → Option β} {l : List α} {l' : List β} (h : l.mapM f = some l') {a : α}
    (ha : a ∈ l) : ∃ b ∈ l', f a = some b := by
  induction l generalizing l' with
  | nil => simp at ha
  | cons x l ih =>
    simp only [List.mapM_cons, Option.bind_eq_bind, Option.pure_def, Option.bind_eq_some_iff, Option.some.injEq] at h
    obtain ⟨b, hb, rest, hrest, rfl⟩ := h
    rcases List.mem_cons.1 ha with rfl | ha
    · exact ⟨b, List.mem_cons_self, hb⟩
    · obtain ⟨b', hb', hf⟩ := ih hrest ha
      exact ⟨b', List.mem_cons_of_mem _ hb', hf⟩

theorem exists_of_mem_mapM {α β : Type*} {f : α → Option β} {l : List α} {l' : List β} (h : l.mapM f = some l') {b : β}
    (hb : b ∈ l') : ∃ a ∈ l, f a = some b := by
  induction l generalizing l' with
  | nil =>
    obtain rfl : l' = [] := by simpa using h.symm
    simp at hb
  | cons a l ih =>
    simp only [List.mapM_cons, Option.bind_eq_bind, Option.pure_def, Option.bind_eq_some_iff, Option.some.injEq] at h
    obtain ⟨b', hb', rest, hrest, rfl⟩ := h
    rcases List.mem_cons.1 hb with rfl | hb
    · exact ⟨a, List.mem_cons_self, hb'⟩
    · obtain ⟨a', ha', hf⟩ := ih hrest hb
      exact ⟨a', List.mem_cons_of_mem _ ha', hf⟩

/-- the constraint is the conjunction over the locks -/
theorem locks_iff {lk : Expr} (h : locks ids threads w = some lk) (g : Assignment) :
    lk g = true ↔ ∀ v < ids.noLocks, ∃ prs, lockings threads w v = some prs ∧ exclusive w prs g = true := by
  obtain ⟨all, hall, rfl⟩ := Option.map_eq_some_iff.1 h
  rw [List.all_eq_true]
  constructor
  · intro hexcl v hv
    obtain ⟨prs, hmem, hprs⟩ := mem_of_mapM hall (List.mem_range.2 hv)
    exact ⟨prs, hprs, hexcl prs hmem⟩
  · intro hexcl prs hprs
    obtain ⟨v, hv, hlock⟩ := exists_of_mem_mapM hall hprs
    obtain ⟨prs', hprs', hexcl'⟩ := hexcl v (List.mem_range.1 hv)
    rwa [Option.some.inj (hlock.symm.trans hprs')]

/-- **The constraint of one lock is exact**: no empty list is read, and the sections exclude each other in an ordering
iff no lock operation finds the lock taken. -/
def LockExact (threads : ℕ) (w : List Symbol) (v : ℕ) : Prop :=
  ∃ prs, lockings threads w v = some prs ∧
    ∀ g, IsOrdering w g → (exclusive w prs g = true ↔ lockPass v (word w g) = true)

/-! ## The condition -/

/-- an operation does not occur twice in a row -/
def NeverTwice (op : OpClass) (ops : List OpClass) : Prop := ops.IsChain fun x y => ¬(x = op ∧ y = op)

/-- the lock and unlock operations on the variable, thread by thread: no unlock comes first, no thread locks twice in a
row, and only one thread locks or all of them lock and unlock in turn -/
structure TakesTurns (threads : ℕ) (w : List Symbol) (v : ℕ) : Prop where
  first : ((List.range threads).flatMap fun t => (lockOps w t v).map Symbol.operation).head? ≠ some .unlock
  never : ∀ t < threads, NeverTwice .lock ((lockOps w t v).map Symbol.operation)
  turns : (∃ t, ∀ t' < threads, t' ≠ t → OpClass.lock ∉ (lockOps w t' v).map Symbol.operation) ∨
    ∀ t < threads, Alternating ((lockOps w t v).map Symbol.operation)

theorem alternating_iff {ops : List OpClass} (h : ∀ op ∈ ops, op = .lock ∨ op = .unlock) :
    Alternating ops ↔ ops.head? ≠ some .unlock ∧ NeverTwice .lock ops ∧ NeverTwice .unlock ops := by
  unfold NeverTwice
  induction ops using Alternating.induct with
  | case1 => simp [Alternating]
  | case2 op => rcases h op (by simp) with rfl | rfl <;> simp [Alternating]
  | case3 op op2 ops ih =>
    rw [Alternating, ih fun op hop => h op (by simp [hop])]
    rcases h op (by simp) with rfl | rfl
    · rcases h op2 (by simp) with rfl | rfl
      · simp
      · cases ops with
        | nil => simp
        | cons op3 ops => rcases h op3 (by simp) with rfl | rfl <;> simp
    · simp

/-- the locations of a thread that lock or unlock the variable -/
def opLocs (w : List Symbol) (t v : ℕ) : List TraceLocation :=
  (threadedTrace w t).filter fun l => isLockOf v l || isUnlockOf v l

theorem map_opLocs (w : List Symbol) (t v : ℕ) : (opLocs w t v).map TraceLocation.symbol = lockOps w t v := by
  have hfilter : (splitTrace w).filter (fun l => isLockOp t v l.symbol) = opLocs w t v := by
    rw [opLocs, threadedTrace, List.filter_filter]
    apply List.filter_congr
    intro l _
    by_cases ht : l.threadId = t
    · have ht' : l.symbol.threadId = t := ht
      simp [isLockOp, isLockOf, isUnlockOf, ht, ht', Bool.and_or_distrib_left, Bool.and_comm]
    · have ht' : l.symbol.threadId ≠ t := ht
      simp [isLockOp, ht, ht']
  rw [← hfilter, lockOps]
  conv_rhs => rw [← map_symbol_splitTrace w, List.filter_map]
  rfl

theorem mem_opLocs {t : ℕ} {l : TraceLocation} :
    l ∈ opLocs w t v ↔ (LockAt w v l ∨ UnlockAt w v l) ∧ l.threadId = t := by
  simp only [opLocs, List.mem_filter, mem_threadedTrace, Bool.or_eq_true, LockAt, UnlockAt]
  tauto

/-! ## The condition, in terms of the locations -/

theorem opLocs_visited (w : List Symbol) (t v : ℕ) : (opLocs w t v).Pairwise Visited := by
  refine ((splitTrace_increasing w).filter _).filter _ |>.imp_of_mem ?_
  intro x y hx hy hlt
  exact Or.inr ⟨(mem_opLocs.1 hx).2.trans (mem_opLocs.1 hy).2.symm, hlt⟩

theorem opLocs_increasing (w : List Symbol) (t v : ℕ) : Increasing TraceLocation.position (opLocs w t v) :=
  ((splitTrace_increasing w).filter _).filter _

/-- no unlock comes first -/
theorem head_ops {ls : List TraceLocation} (hpw : ls.Pairwise Visited)
    (hls : ∀ l ∈ ls, LockAt w v l ∨ UnlockAt w v l) :
    ((ls.map TraceLocation.symbol).map Symbol.operation).head? ≠ some .unlock ↔
      ∀ u ∈ ls, UnlockAt w v u → ∃ x ∈ ls, LockAt w v x ∧ Visited x u := by
  have hop : ∀ l ∈ ls, (UnlockAt w v l ↔ l.symbol.operation = .unlock) ∧
      (LockAt w v l ↔ ¬l.symbol.operation = .unlock) := by
    intro l hl
    rcases hls l hl with h | h
    · have hlock := (isLockOf_iff.1 h.2).1
      simp [h, hlock, UnlockAt, isUnlockOf]
    · have hunlock := (isUnlockOf_iff.1 h.2).1
      simp [h, hunlock, LockAt, isLockOf]
  have hhead : ((ls.map TraceLocation.symbol).map Symbol.operation).head? ≠ some .unlock ↔
      ∀ l ∈ ls.head?, ¬l.symbol.operation = .unlock := by
    cases ls <;> simp
  rw [hhead, head_iff hpw fun x y hxy hyx => (hxy.trans hyx).irrefl]
  refine forall₂_congr fun u hu => imp_congr (hop u hu).1.symm (exists_congr fun x => ?_)
  refine and_congr_right fun hx => and_congr_left fun _ => (hop x hx).2.symm

theorem first_iff (hw : OfThreads threads w) :
    ((List.range threads).flatMap fun t => (lockOps w t v).map Symbol.operation).head? ≠ some .unlock ↔
      ∀ u, UnlockAt w v u → ∃ x, LockAt w v x ∧ Visited x u := by
  have hops : ((List.range threads).flatMap fun t => (lockOps w t v).map Symbol.operation) =
      (((traversal threads w).filter fun l => isLockOf v l || isUnlockOf v l).map
        TraceLocation.symbol).map Symbol.operation := by
    rw [traversal, List.filter_flatMap, List.map_flatMap, List.map_flatMap]
    simp only [← map_opLocs]
    rfl
  have hmem : ∀ l, l ∈ (traversal threads w).filter (fun l => isLockOf v l || isUnlockOf v l) ↔
      LockAt w v l ∨ UnlockAt w v l := by
    intro l
    rw [List.mem_filter, mem_traversal hw, Bool.or_eq_true, and_or_left]
    rfl
  rw [hops, head_ops ((traversal_visited threads w).filter _) fun l hl => (hmem l).1 hl]
  constructor
  · intro h u hu
    obtain ⟨x, -, hx⟩ := h u ((hmem u).2 (Or.inr hu)) hu
    exact ⟨x, hx⟩
  · intro h u _ hu
    obtain ⟨x, hx⟩ := h u hu
    exact ⟨x, (hmem x).2 (Or.inl hx.1), hx⟩

/-- a thread locks before it unlocks -/
theorem thread_first_iff {t : ℕ} : ((lockOps w t v).map Symbol.operation).head? ≠ some .unlock ↔
    ∀ u, UnlockAt w v u → u.threadId = t → ∃ x, LockAt w v x ∧ x.threadId = t ∧ x.position < u.position := by
  rw [← map_opLocs, head_ops (opLocs_visited w t v) fun l hl => (mem_opLocs.1 hl).1]
  constructor
  · intro h u hu ht
    obtain ⟨x, hx, hlock, hvis⟩ := h u (mem_opLocs.2 ⟨Or.inr hu, ht⟩) hu
    have hxt := (mem_opLocs.1 hx).2
    unfold Visited at hvis
    exact ⟨x, hlock, hxt, by omega⟩
  · intro h u hu hunlock
    obtain ⟨x, hlock, hxt, hpos⟩ := h u hunlock (mem_opLocs.1 hu).2
    exact ⟨x, mem_opLocs.2 ⟨Or.inl hlock, hxt⟩, hlock, Or.inr ⟨hxt.trans (mem_opLocs.1 hu).2.symm, hpos⟩⟩

theorem neverTwice_iff {t : ℕ} {op : OpClass} : NeverTwice op ((lockOps w t v).map Symbol.operation) ↔
    (opLocs w t v).IsChain fun x y => ¬(x.symbol.operation = op ∧ y.symbol.operation = op) := by
  rw [← map_opLocs, NeverTwice, List.isChain_map, List.isChain_map]

/-- a thread that locks twice unlocks next after the first lock -/
theorem NeverTwice.exists_unlock {x y : TraceLocation}
    (h : NeverTwice .lock ((lockOps w x.threadId v).map Symbol.operation)) (hx : LockAt w v x) (hy : LockAt w v y)
    (ht : y.threadId = x.threadId) (hlt : x.position < y.position) :
    ∃ u, UnlockAt w v u ∧ u.threadId = x.threadId ∧ x.position < u.position ∧ u.position < y.position ∧
      ∀ z, LockAt w v z → z.threadId = x.threadId → x.position < z.position → u.position < z.position := by
  obtain ⟨u, hu, hno, hxu, huy, hfirst⟩ := exists_after (opLocs_increasing w x.threadId v) (neverTwice_iff.1 h)
    (mem_opLocs.2 ⟨Or.inl hx, rfl⟩) (mem_opLocs.2 ⟨Or.inl hy, ht⟩) (isLockOf_iff.1 hx.2).1 (isLockOf_iff.1 hy.2).1 hlt
  obtain ⟨hop, hut⟩ := mem_opLocs.1 hu
  have hunlock : UnlockAt w v u := hop.resolve_left fun hlock => hno (isLockOf_iff.1 hlock.2).1
  refine ⟨u, hunlock, hut, hxu, huy, fun z hz hzt hxz => ?_⟩
  refine lt_of_le_of_ne (hfirst z (mem_opLocs.2 ⟨Or.inl hz, hzt⟩) hxz) fun heq => ?_
  exact hz.ne_unlock hunlock (eq_of_position hz.1 hunlock.1 heq.symm)

/-- a thread that unlocks twice locks in between -/
theorem NeverTwice.exists_lock {u u' : TraceLocation}
    (h : NeverTwice .unlock ((lockOps w u.threadId v).map Symbol.operation)) (hu : UnlockAt w v u)
    (hu' : UnlockAt w v u') (ht : u'.threadId = u.threadId) (hlt : u.position < u'.position) :
    ∃ x, LockAt w v x ∧ x.threadId = u.threadId ∧ u.position < x.position ∧ x.position < u'.position := by
  obtain ⟨x, hx, hno, hux, hxu, -⟩ := exists_after (opLocs_increasing w u.threadId v) (neverTwice_iff.1 h)
    (mem_opLocs.2 ⟨Or.inr hu, rfl⟩) (mem_opLocs.2 ⟨Or.inr hu', ht⟩) (isUnlockOf_iff.1 hu.2).1
    (isUnlockOf_iff.1 hu'.2).1 hlt
  obtain ⟨hop, hxt⟩ := mem_opLocs.1 hx
  exact ⟨x, hop.resolve_right fun hunlock => hno (isUnlockOf_iff.1 hunlock.2).1, hxt, hux, hxu⟩

theorem neverTwice_of {t : ℕ} {op : OpClass} (h : ∀ x y, x ∈ opLocs w t v → y ∈ opLocs w t v →
    x.symbol.operation = op → y.symbol.operation = op → x.position < y.position →
      ∃ z ∈ opLocs w t v, x.position < z.position ∧ z.position < y.position) :
    NeverTwice op ((lockOps w t v).map Symbol.operation) :=
  neverTwice_iff.2 (isChain_of_between (opLocs_increasing w t v) fun x hx y hy hpx hpy hlt => h x y hx hy hpx hpy hlt)

theorem lockOps_nil (hw : OfThreads threads w) {t : ℕ} (ht : threads ≤ t) : lockOps w t v = [] := by
  apply List.filter_eq_nil_iff.2
  intro s hs hop
  simp only [isLockOp, Bool.and_eq_true, beq_iff_eq] at hop
  exact absurd (hw s hs) (by omega)

theorem lockOps_ops {t : ℕ} : ∀ op ∈ (lockOps w t v).map Symbol.operation, op = .lock ∨ op = .unlock := by
  intro op hop
  obtain ⟨s, hs, rfl⟩ := List.mem_map.1 hop
  have hlockOp := (List.mem_filter.1 hs).2
  simp only [isLockOp, Bool.and_eq_true, Bool.or_eq_true, beq_iff_eq] at hlockOp
  exact hlockOp.2

theorem lock_mem_iff {t : ℕ} :
    OpClass.lock ∈ (lockOps w t v).map Symbol.operation ↔ ∃ x, LockAt w v x ∧ x.threadId = t := by
  rw [← map_opLocs, List.map_map, List.mem_map]
  constructor
  · rintro ⟨x, hx, hop⟩
    have hlock : x.symbol.operation = .lock := hop
    obtain ⟨h, ht⟩ := mem_opLocs.1 hx
    exact ⟨x, h.resolve_right fun hu => by simp [(isUnlockOf_iff.1 hu.2).1] at hlock, ht⟩
  · rintro ⟨x, hx, ht⟩
    exact ⟨x, mem_opLocs.2 ⟨Or.inl hx, ht⟩, (isLockOf_iff.1 hx.2).1⟩

/-! ## The condition is enough -/

theorem KeepsThreadOrder.lt_iff (hg : KeepsThreadOrder w g) {x y : TraceLocation} (hx : x ∈ splitTrace w)
    (hy : y ∈ splitTrace w) (ht : x.threadId = y.threadId) :
    g x.position < g y.position ↔ x.position < y.position := by
  refine ⟨fun hlt => ?_, hg.order x hx y hy ht⟩
  by_contra hno
  rcases Nat.lt_or_eq_of_le (not_lt.1 hno) with hback | heq
  · exact lt_irrefl _ (hlt.trans (hg.order y hy x hx ht.symm hback))
  · rw [heq] at hlt
    exact lt_irrefl _ hlt

section
variable {prs : List LockPair} (hw : OfThreads threads w) (hgat : Gathered v (traversal threads w) prs)
include hw hgat

/-- a lock that the thread locks again has its end before -/
theorem Gathered.exists_end {pr : LockPair} (hpr : pr ∈ prs)
    (hnever : NeverTwice .lock ((lockOps w pr.lock.threadId v).map Symbol.operation)) {y : TraceLocation}
    (hy : LockAt w v y) (ht : y.threadId = pr.lock.threadId) (hlt : pr.lock.position < y.position) :
    ∃ u, pr.unlock = some u ∧ u.threadId = y.threadId ∧ u.position < y.position := by
  obtain ⟨u0, hu0, hut, hlu, huy, hfirst⟩ := hnever.exists_unlock (hgat.lockAt hw hpr) hy ht hlt
  have hin : Within v (traversal threads w) pr.lock u0 := by
    refine ⟨(mem_traversal hw).2 hu0.1, hu0.2, Or.inr ⟨hut.symm, hlu⟩, fun z hz hlock hvis => ?_⟩
    have hzw : LockAt w v z := ⟨(mem_traversal hw).1 hz, hlock⟩
    rcases hvis with hlt | ⟨heq, hlt⟩
    · exact Or.inl (hut ▸ hlt)
    · exact Or.inr ⟨hut.trans heq, hfirst z hzw heq.symm hlt⟩
  obtain ⟨u, hu, hlast⟩ := hgat.last pr hpr u0 hin
  have hnext := (hgat.ended pr hpr u hu).next y ((mem_traversal hw).2 hy.1) hy.2 (Or.inr ⟨ht.symm, hlt⟩)
  refine ⟨u, hu, ?_⟩
  unfold Visited at hlast hnext
  rcases hlast with rfl | hlast
  · omega
  · omega

/-- one thread locks: it never waits for the lock -/
theorem Gathered.single_thread (hg : IsOrdering w g) {t : ℕ} (hsingle : ∀ x, LockAt w v x → x.threadId = t)
    (hnever : NeverTwice .lock ((lockOps w t v).map Symbol.operation)) :
    exclusive w prs g = true ∧ lockPass v (word w g) = true := by
  rw [hgat.exclusive_word hw hg.separates, lockPass_word hg.separates]
  constructor
  · intro pr hpr y hy hlt
    have hlock := hgat.lockAt hw hpr
    have ht : y.threadId = pr.lock.threadId := (hsingle y hy).trans (hsingle _ hlock).symm
    obtain ⟨u, hu, hut, hpos⟩ := hgat.exists_end hw hpr ((hsingle _ hlock).symm ▸ hnever) hy ht
      ((hg.lt_iff hlock.1 hy.1 ht.symm).1 hlt)
    rw [LockPair.endOf, hu]
    exact hg.order u (hgat.unlockAt hw hpr hu).1 y hy.1 hut hpos
  · intro x y hx hy hlt
    have ht : y.threadId = x.threadId := (hsingle y hy).trans (hsingle x hx).symm
    obtain ⟨u, hu, hut, hxu, huy, -⟩ := ((hsingle x hx).symm ▸ hnever).exists_unlock hx hy ht
      ((hg.lt_iff hx.1 hy.1 ht.symm).1 hlt)
    exact ⟨u, hu, hg.order x hx.1 u hu.1 hut.symm hxu, hg.order u hu.1 y hy.1 (hut.trans ht.symm) huy⟩

/-- an unlock is in the section of the last lock before it -/
theorem Gathered.exists_section {u : TraceLocation} (hu : UnlockAt w v u) (hex : ∃ x, LockAt w v x ∧ Visited x u) :
    ∃ pr ∈ prs, Within v (traversal threads w) pr.lock u := by
  obtain ⟨x0, hx0, hvis0⟩ := hex
  obtain ⟨pre, x, post, heq, ⟨hlock, hvis⟩, hlast⟩ :=
    exists_last (p := fun x => isLockOf v x = true ∧ Visited x u) (l := traversal threads w)
      ⟨x0, (mem_traversal hw).2 hx0.1, hx0.2, hvis0⟩
  have hxw : LockAt w v x := ⟨(mem_traversal hw).1 (by rw [heq]; simp), hlock⟩
  obtain ⟨pr, hpr, rfl⟩ := hgat.exists_pair hw hxw
  refine ⟨pr, hpr, (mem_traversal hw).2 hu.1, hu.2, hvis, fun z hz hzlock hzvis => ?_⟩
  have hzw : LockAt w v z := ⟨(mem_traversal hw).1 hz, hzlock⟩
  rcases visited_total hu.1 hzw.1 with huz | huz | huz
  · exact huz
  · exact absurd huz (hzw.ne_unlock hu).symm
  · have hpw := traversal_visited threads w
    rw [heq] at hz hpw
    simp only [List.pairwise_append, List.mem_append, List.mem_cons] at hz hpw
    rcases hz with hz | rfl | hz
    · exact absurd (hzvis.trans (hpw.2.2 z hz _ (Or.inl rfl))) Visited.irrefl
    · exact absurd hzvis Visited.irrefl
    · exact absurd ⟨hzlock, huz⟩ (hlast z hz)

end

/-- every thread locks before it unlocks -/
def LocksFirst (w : List Symbol) (v : ℕ) : Prop :=
  ∀ u, UnlockAt w v u → ∃ x, LockAt w v x ∧ x.threadId = u.threadId ∧ x.position < u.position

theorem Alternates.locksFirst (h : Alternates w) (v : ℕ) : LocksFirst w v := by
  intro u hu
  obtain ⟨hop, rfl⟩ := isUnlockOf_iff.1 hu.2
  obtain ⟨x, hx, hxop, hxvar, ht, hpos⟩ := h.exists_lock hu.1 hop
  exact ⟨x, ⟨hx, isLockOf_iff.2 ⟨hxop, hxvar⟩⟩, ht, hpos⟩

section
variable {prs : List LockPair} (hw : OfThreads threads w) (hgat : Gathered v (traversal threads w) prs)
  (hfirst : LocksFirst w v)
include hw hgat hfirst

theorem Gathered.own_end {pr : LockPair} (hpr : pr ∈ prs) {u : TraceLocation}
    (hin : Within v (traversal threads w) pr.lock u) :
    u.threadId = pr.lock.threadId ∧ pr.lock.position < u.position := by
  obtain ⟨x, hx, ht, hpos⟩ := hfirst u ⟨(mem_traversal hw).1 hin.mem, hin.unlock⟩
  exact hin.own_thread hw (hgat.lockAt hw hpr).1 ⟨x, hx.1, hx.2, ht, hpos⟩

/-- every unlock is the end of a section of its thread -/
theorem Gathered.exists_own (htwice : ∀ t, NeverTwice .unlock ((lockOps w t v).map Symbol.operation))
    {u : TraceLocation} (hu : UnlockAt w v u) :
    ∃ pr ∈ prs, pr.unlock = some u ∧ pr.lock.threadId = u.threadId ∧ pr.lock.position < u.position := by
  obtain ⟨x, hx, hxt, hpos⟩ := hfirst u hu
  obtain ⟨pr, hpr, hin⟩ := hgat.exists_section hw hu ⟨x, hx, Or.inr ⟨hxt, hpos⟩⟩
  obtain ⟨ht, hlu⟩ := hgat.own_end hw hfirst hpr hin
  obtain ⟨e, he, hlast⟩ := hgat.last pr hpr u hin
  refine ⟨pr, hpr, ?_, ht.symm, hlu⟩
  rcases hlast with rfl | hue
  · exact he
  · -- the thread would unlock twice in a row
    have hine := hgat.ended pr hpr e he
    obtain ⟨het, -⟩ := hgat.own_end hw hfirst hpr hine
    have hpos' : u.position < e.position := by
      unfold Visited at hue
      omega
    obtain ⟨z, hz, hzt, huz, hze⟩ :=
      (htwice u.threadId).exists_lock hu (hgat.unlockAt hw hpr he) (het.trans ht.symm) hpos'
    have hez := hine.next z ((mem_traversal hw).2 hz.1) hz.2 (Or.inr ⟨(hzt.trans ht).symm, hlu.trans huz⟩)
    unfold Visited at hez
    omega

/-- sections that exclude each other end before the next lock -/
theorem Gathered.lockPass_of_exclusive (hg : IsOrdering w g) (h : exclusive w prs g = true) :
    lockPass v (word w g) = true := by
  rw [hgat.exclusive_word hw hg.separates] at h
  rw [lockPass_word hg.separates]
  intro x y hx hy hlt
  obtain ⟨pr, hpr, rfl⟩ := hgat.exists_pair hw hx
  have hend := h pr hpr y hy hlt
  cases hu : pr.unlock with
  | none =>
    rw [LockPair.endOf, hu] at hend
    exact absurd (hend.trans (hg.final y hy.1)) (lt_irrefl _)
  | some u =>
    rw [LockPair.endOf, hu] at hend
    have huw := hgat.unlockAt hw hpr hu
    obtain ⟨ht, hpos⟩ := hgat.own_end hw hfirst hpr (hgat.ended pr hpr u hu)
    exact ⟨u, huw, hg.order _ hx.1 u huw.1 ht.symm hpos, hend⟩

/-- if every lock operation finds the lock free, the sections exclude each other -/
theorem Gathered.exclusive_of_lockPass (htwice : ∀ t, NeverTwice .unlock ((lockOps w t v).map Symbol.operation))
    (hg : IsOrdering w g) (h : lockPass v (word w g) = true) : exclusive w prs g = true := by
  rw [lockPass_word hg.separates] at h
  rw [hgat.exclusive_word hw hg.separates]
  by_contra hno
  push Not at hno
  -- the first section with a lock inside
  obtain ⟨pr, hpr, ⟨y0, hy0, hly0, hye0⟩, hleast⟩ :=
    exists_least (p := fun pr => ∃ y, LockAt w v y ∧ g pr.lock.position < g y.position ∧
      g y.position ≤ g (pr.endOf w)) (fun pr : LockPair => g pr.lock.position) hno
  -- and the first lock inside
  obtain ⟨y, hyw, ⟨hylock, hly⟩, hyleast⟩ :=
    exists_least (p := fun y => isLockOf v y = true ∧ g pr.lock.position < g y.position)
      (fun y : TraceLocation => g y.position) ⟨y0, hy0.1, hy0.2, hly0⟩
  have hy : LockAt w v y := ⟨hyw, hylock⟩
  have hye : g y.position ≤ g (pr.endOf w) := (hyleast y0 hy0.1 ⟨hy0.2, hly0⟩).trans hye0
  obtain ⟨u, hu, hlu, huy⟩ := h pr.lock y (hgat.lockAt hw hpr) hy hly
  obtain ⟨pr2, hpr2, hu2, ht2, hpos2⟩ := hgat.exists_own hw hfirst htwice hu
  have hlock2 := hgat.lockAt hw hpr2
  have hlu2 : g pr2.lock.position < g u.position := hg.order _ hlock2.1 u hu.1 ht2 hpos2
  have hend2 : pr2.endOf w = u.position := by rw [LockPair.endOf, hu2]; rfl
  rcases lt_trichotomy (g pr2.lock.position) (g pr.lock.position) with hlt | heq | hgt
  · -- an earlier section has the lock of this one inside
    exact absurd (hleast pr2 hpr2 ⟨pr.lock, hgat.lockAt hw hpr, hlt, hend2 ▸ hlu.le⟩) (not_le_of_gt hlt)
  · have hsame := hgat.eq_of_lock hpr2 hpr (hg.injective _ hlock2.1 _ (hgat.lockAt hw hpr).1 heq)
    rw [← hsame, hend2] at hye
    exact absurd huy (not_lt_of_ge hye)
  · exact absurd ((hyleast pr2.lock hlock2.1 ⟨hlock2.2, hgt⟩).trans_lt hlu2) (not_lt_of_gt huy)

end

/-- **Locks that are taken in turn are encoded exactly.** -/
theorem lockExact_of_takesTurns (hw : OfThreads threads w) (h : TakesTurns threads w v) : LockExact threads w v := by
  have hlocked : ∀ u ∈ splitTrace w, isUnlockOf v u = true → ∃ x ∈ splitTrace w, isLockOf v x = true ∧ Visited x u := by
    intro u hu hunlock
    obtain ⟨x, hx, hvis⟩ := (first_iff hw).1 h.first u ⟨hu, hunlock⟩
    exact ⟨x, hx.1, hx.2, hvis⟩
  obtain ⟨prs, hprs⟩ := Option.isSome_iff_exists.1 ((lockings_isSome hw).2 hlocked)
  have hgat := lockings_gathered hprs
  have hnever : ∀ t, NeverTwice .lock ((lockOps w t v).map Symbol.operation) := fun t => by
    rcases Nat.lt_or_ge t threads with ht | ht
    · exact h.never t ht
    · rw [lockOps_nil hw ht]
      exact List.isChain_nil
  refine ⟨prs, hprs, fun g hg => ?_⟩
  rcases h.turns with ⟨t, hsingle⟩ | halt
  · have hthread : ∀ x, LockAt w v x → x.threadId = t := by
      intro x hx
      by_contra hne
      exact hsingle x.threadId (hw.location hx.1) hne (lock_mem_iff.2 ⟨x, hx, rfl⟩)
    obtain ⟨hexcl, hpass⟩ := hgat.single_thread hw hg hthread (hnever t)
    simp only [hexcl, hpass]
  · have hops : ∀ t < threads, _ := fun t ht => (alternating_iff lockOps_ops).1 (halt t ht)
    have hfirst : LocksFirst w v := fun u hu =>
      thread_first_iff.1 (hops u.threadId (hw.location hu.1)).1 u hu rfl
    have htwice : ∀ t, NeverTwice .unlock ((lockOps w t v).map Symbol.operation) := fun t => by
      rcases Nat.lt_or_ge t threads with ht | ht
      · exact (hops t ht).2.2
      · rw [lockOps_nil hw ht]
        exact List.isChain_nil
    exact ⟨hgat.lockPass_of_exclusive hw hfirst hg, hgat.exclusive_of_lockPass hw hfirst htwice hg⟩

end Liss.Synthesis
