/-
Whether a lock that is held at two neighbouring states is held from the one to the other.

Over a forward edge it is. Over a back edge it need not be: the order constraint on `lock_b` looks at the forward
predecessors only, so the lock may be released after the last state of a loop and acquired again before the first.

- `heldThrough_iff`: the lock is held from a state to its successor iff it is held after a forward predecessor of the
  successor;
- `released_on_back_edge`: a loop in which it is not.
-/
import Liss.Placement.Discipline

namespace Liss.PlaceLocks

/-- the lock is neither released after `x` nor acquired before `y` -/
def HeldThrough (m : LockAssignment) (t l x y : ℕ) : Prop := m.unlockA ⟨t, x⟩ l = false ∧ m.lockB ⟨t, y⟩ l = false

instance (m : LockAssignment) (t l x y : ℕ) : Decidable (HeldThrough m t l x y) :=
  inferInstanceAs (Decidable (_ ∧ _))

instance (c : AbstractCfg) (x y : ℕ) : Decidable (IsEdge c x y) :=
  inferInstanceAs (Decidable (_ ∧ _ ∧ ∃ e ∈ c.getSuccessors x, e.dst = y))

variable {m : LockAssignment} {locks : List ℕ} {ord : HashOrder} {threads : List AbstractCfg} {c : AbstractCfg}
  {t l x y : ℕ}

/-- a lock that is held after the state has not been released there -/
theorem unlockA_of_inle (h : lockConsistancyAt m locks ord c t x l = true) (hx : m.inl ⟨t, x⟩ l = true)
    (hin : inle m ⟨t, x⟩ l = true) : m.unlockA ⟨t, x⟩ l = false := by
  simp only [lockConsistancyAt, consAfter, Bool.and_eq_true] at h
  obtain ⟨⟨-, hafter, -⟩, -⟩ := h
  have ha : m.lockA ⟨t, x⟩ l = false := by
    by_contra hne
    have := lockOrderAfter_self hafter (by simpa using hne)
    simp [hx] at this
  simpa [inle, hx, ha] using hin

/-- a lock that is held at a state and not acquired before it has been held before -/
theorem inle_first {first : ℕ} (hc : Consistent m c t y l first) (hy : m.inl ⟨t, y⟩ l = true)
    (hb : m.lockB ⟨t, y⟩ l = false) : inle m ⟨t, first⟩ l = true := by
  have hinl := hc.inl
  rw [hy, hb, Bool.false_or, eq_comm, Bool.and_eq_true] at hinl
  exact hinl.2

/-- a state without forward predecessor is locked only by a lock before it -/
theorem lockB_of_no_forward (h : lockConsistancyAt m locks ord c t y l = true) (hno : ∀ j, j ∉ predecessorsForward c y)
    (hy : m.inl ⟨t, y⟩ l = true) : m.lockB ⟨t, y⟩ l = true := by
  simp only [lockConsistancyAt, Bool.and_eq_true] at h
  obtain ⟨⟨⟨-, hpred⟩, -⟩, -⟩ := h
  have hnil : ord.visit (predecessorsForward c y) = [] := by
    rw [List.eq_nil_iff_forall_not_mem]
    intro j hj
    exact hno j ((mem_visit ord).1 hj)
  simp only [consPredecessors, hnil, Bool.and_eq_true, beq_iff_eq] at hpred
  rw [← hpred.1, hy]

/-- over a forward edge the lock is held -/
theorem heldThrough_forward (h : addConstraints m locks ord threads = true) (ht : threads[t]? = some c) (hl : l ∈ locks)
    (hy : y ∈ stateIds c) (he : x ∈ predecessorsForward c y) (hx : m.inl ⟨t, x⟩ l = true)
    (hin : m.inl ⟨t, y⟩ l = true) : HeldThrough m t l x y := by
  obtain ⟨first, hc⟩ := consistent (constraints_at h ht hy hl) ⟨x, he⟩
  have hb : m.lockB ⟨t, y⟩ l = false := by
    by_contra hne
    have := (hc.lockB x he (by simpa using hne)).1
    simp [hx] at this
  have hfirst := inle_first hc hin hb
  rw [← hc.join x (predecessors_of_forward he)] at hfirst
  exact ⟨unlockA_of_inle (constraints_at h ht (mem_predecessorsForward.1 he).1 hl) hx hfirst, hb⟩

/-- **When a lock is held between two neighbouring states that are both locked.** -/
theorem heldThrough_iff (h : addConstraints m locks ord threads = true) (ht : threads[t]? = some c) (hl : l ∈ locks)
    (he : IsEdge c x y) (hx : m.inl ⟨t, x⟩ l = true) (hy : m.inl ⟨t, y⟩ l = true) :
    (HeldThrough m t l x y ↔ ∃ f ∈ predecessorsForward c y, inle m ⟨t, f⟩ l = true) ∧
      (x ∈ predecessorsForward c y → HeldThrough m t l x y) := by
  obtain ⟨hxs, hys, hedge⟩ := he
  have hxy : x ∈ predecessors c y := mem_predecessors.2 ⟨hxs, hedge⟩
  refine ⟨⟨fun ⟨_, hb⟩ => ?_, fun ⟨f, hf, hin⟩ => ?_⟩, fun hf => heldThrough_forward h ht hl hys hf hx hy⟩
  · by_cases hf : ∃ j, j ∈ predecessorsForward c y
    · obtain ⟨first, hc⟩ := consistent (constraints_at h ht hys hl) hf
      exact ⟨first, hc.first, inle_first hc hy hb⟩
    · have := lockB_of_no_forward (constraints_at h ht hys hl) (fun j hj => hf ⟨j, hj⟩) hy
      simp [hb] at this
  · obtain ⟨first, hc⟩ := consistent (constraints_at h ht hys hl) ⟨f, hf⟩
    -- the lock status after the back edge is that after the forward predecessor
    have hinx : inle m ⟨t, x⟩ l = true := by rw [hc.join x hxy, ← hc.join f (predecessors_of_forward hf), hin]
    refine ⟨unlockA_of_inle (constraints_at h ht hxs hl) hx hinx, ?_⟩
    by_contra hne
    obtain ⟨h1, h2⟩ := hc.lockB f hf (by simpa using hne)
    simp [inle, h1, h2] at hin

/-! ## A loop -/

/-- `do { x=1; y=2; } while (nondet)`: the states start, two writes and end -/
def doWhile : AbstractCfg where
  threadId := 0
  states :=
    [State.ofId 0 0, { State.ofId 0 1 with returnState := 4 },
      { State.ofAction { operation := .write, var := 0, loc := ⟨0, 2⟩ } with
        lockBefore := some 1, lockAfter := some 2 },
      { State.ofAction { operation := .write, var := 1, loc := ⟨0, 3⟩ } with
        lockBefore := some 3, lockAfter := some 4 },
      { State.ofId 0 4 with final := true }]
  edges := [[], [{ dst := 2 }], [{ dst := 3 }],
    [{ dst := 2, backEdge := true, tag := some (Symbol.ofBranch 0 3 0) },
      { dst := 4, tag := some (Symbol.ofBranch 0 3 1) }], []]

/-- the lock is taken and released in each iteration -/
def doWhileLocks : LockAssignment where
  lockB x _ := x = ⟨0, 2⟩
  unlockB _ _ := false
  lockA _ _ := false
  unlockA x _ := x = ⟨0, 3⟩
  inl x _ := x = ⟨0, 2⟩ || x = ⟨0, 3⟩

/-- both writes are locked, and over the edge from the one to the other the lock is held -/
theorem heldThrough_doWhile :
    (HeldThrough doWhileLocks 0 0 2 3 ↔ ∃ f ∈ predecessorsForward doWhile 3, inle doWhileLocks ⟨0, f⟩ 0 = true) ∧
      (2 ∈ predecessorsForward doWhile 3 → HeldThrough doWhileLocks 0 0 2 3) := by
  have hc : addConstraints doWhileLocks [0] ⟨id, fun _ => .refl _⟩ [doWhile] = true := by decide
  exact heldThrough_iff hc rfl (by decide) (by decide) (by decide) (by decide)

theorem doWhile_parsed : Parsed doWhile where
  entry u := by
    rintro ⟨e, he, hd⟩
    rcases u with _ | _ | _ | _ | _ | u
    all_goals simp [AbstractCfg.getSuccessors, doWhile] at he
    · simp [he] at hd
    · simp [he] at hd
    · rcases he with rfl | rfl <;> simp at hd
  forward := by decide
  start := by decide
  exit := by decide
  final := by decide
  unlockedStart := by decide
  unlockedExit := by decide

/-- both writes are locked, but over the back edge from the second to the first the lock is released -/
theorem released_on_back_edge :
    Parsed doWhile ∧ addConstraints doWhileLocks [0] ⟨id, fun _ => .refl _⟩ [doWhile] = true ∧ IsEdge doWhile 3 2 ∧
      doWhileLocks.inl ⟨0, 3⟩ 0 = true ∧ doWhileLocks.inl ⟨0, 2⟩ 0 = true ∧ ¬HeldThrough doWhileLocks 0 0 3 2 :=
  ⟨doWhile_parsed, by decide, by decide, by decide, by decide, by decide⟩

end Liss.PlaceLocks
