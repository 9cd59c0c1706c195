/-
Placed locks are used correctly along every path of a thread.

`inl` is defined through one forward predecessor. The constraints on joins carry its lock status over to every other
predecessor, those over back edges included, so an induction along the path shows that `inle` is the lock status after
each state.

- `consistent`: what the constraints say about one state and lock;
- `arrive_exec`, `leave_exec`: a state that is entered with the lock status of its first forward predecessor is executed
  correctly;
- `walk_exec`: so is every path;
- `placement_discipline`: along every path from state 1 the lock is acquired only when it is free and released only when
  it is held, it is held at a state iff `inl` says so, and it is free after the final state.
-/
import Liss.Placement.PlaceLocks

namespace Liss.PlaceLocks

/-! ## Execution -/

inductive PlacedOp where
  | acquire
  | release
deriving DecidableEq, Repr

/-- the operations placed before a state -/
def opsBefore (m : LockAssignment) (x : Location) (l : ℕ) : List PlacedOp :=
  (if m.unlockB x l then [.release] else []) ++ if m.lockB x l then [.acquire] else []

/-- the operations placed after a state -/
def opsAfter (m : LockAssignment) (x : Location) (l : ℕ) : List PlacedOp :=
  (if m.unlockA x l then [.release] else []) ++ if m.lockA x l then [.acquire] else []

/-- `none` when a lock is acquired that is held, or released that is not -/
def execOps : Bool → List PlacedOp → Option Bool
  | held, [] => some held
  | held, .acquire :: ops => if held then none else execOps true ops
  | held, .release :: ops => if held then execOps false ops else none

/-- enter a state -/
def arrive (m : LockAssignment) (l : ℕ) (x : Location) (held : Bool) : Option Bool := execOps held (opsBefore m x l)

/-- leave a state -/
def leave (m : LockAssignment) (l : ℕ) (x : Location) (held : Bool) : Option Bool := execOps held (opsAfter m x l)

/-- the lock status after a sequence of states of thread `t` -/
def execPath (m : LockAssignment) (t l : ℕ) (path : List ℕ) : Option Bool :=
  path.foldlM (fun held x => (arrive m l ⟨t, x⟩ held).bind (leave m l ⟨t, x⟩)) false

/-- an edge between two states -/
def IsEdge (c : AbstractCfg) (u v : ℕ) : Prop := u ∈ stateIds c ∧ v ∈ stateIds c ∧ c.HasEdge u v

/-- a thread as `parse_thread` and `compact` leave it -/
structure Parsed (c : AbstractCfg) : Prop where
  entry : ∀ u, ¬c.HasEdge u 1
  forward : ∀ v ∈ stateIds c, v ≠ 1 → ∃ u ∈ stateIds c, ∃ e ∈ c.getSuccessors u, e.dst = v ∧ e.backEdge = false
  start : 1 ∈ stateIds c
  exit : (c.getState 1).returnState ∈ stateIds c
  final : ∀ v ∈ stateIds c, (c.getState v).final = true ↔ v = (c.getState 1).returnState
  unlockedStart : (c.getState 1).lockBefore = none ∧ (c.getState 1).lockAfter = none
  unlockedExit : (c.getState (c.getState 1).returnState).lockBefore = none ∧
    (c.getState (c.getState 1).returnState).lockAfter = none

/-! ## The constraints of one state -/

theorem imp_eq_true {a b : Bool} : imp a b = true ↔ (a = true → b = true) := by cases a <;> simp [imp]

variable {m : LockAssignment} {locks : List ℕ} {ord : HashOrder} {threads : List AbstractCfg} {c : AbstractCfg}
  {t i l : ℕ}

theorem constraints_at (h : addConstraints m locks ord threads = true) (ht : threads[t]? = some c)
    (hi : i ∈ stateIds c) (hl : l ∈ locks) : lockConsistancyAt m locks ord c t i l = true := by
  simp only [addConstraints, lockConsistancy, Bool.and_eq_true, List.all_eq_true] at h
  exact h.1 (c, t) (List.mem_zipIdx_iff_getElem?.2 ht) i hi l hl

theorem mem_upTo_self (locks : List ℕ) (l : ℕ) : l ∈ upTo locks l := by simp [upTo]

theorem lockOrderBefore_self {x q : Location} (h : lockOrderBefore m locks l x q = true) (hb : m.lockB x l = true) :
    m.inl q l = false ∧ m.lockA q l = false := by
  have := imp_eq_true.1 (List.all_eq_true.1 h l (mem_upTo_self locks l)) hb
  simpa using this

theorem lockOrderAfter_self {x : Location} (h : lockOrderAfter m locks l x = true) (ha : m.lockA x l = true) :
    m.inl x l = false := by
  have := imp_eq_true.1 (List.all_eq_true.1 h l (mem_upTo_self locks l)) ha
  simpa using this

/-- what the constraints say about a state with a forward predecessor -/
structure Consistent (m : LockAssignment) (c : AbstractCfg) (t i l : ℕ) (first : ℕ) : Prop where
  basicA : m.lockA ⟨t, i⟩ l = true → m.unlockA ⟨t, i⟩ l = false
  basicB : m.lockB ⟨t, i⟩ l = true → m.unlockB ⟨t, i⟩ l = false
  inl : m.inl ⟨t, i⟩ l = (m.lockB ⟨t, i⟩ l || (!m.unlockB ⟨t, i⟩ l && inle m ⟨t, first⟩ l))
  lockB : ∀ j ∈ predecessorsForward c i, m.lockB ⟨t, i⟩ l = true → m.inl ⟨t, j⟩ l = false ∧ m.lockA ⟨t, j⟩ l = false
  unlockB : ∀ j ∈ predecessorsForward c i, m.unlockB ⟨t, i⟩ l = true →
    m.inl ⟨t, j⟩ l = true ∧ m.unlockA ⟨t, j⟩ l = false
  lockA : m.lockA ⟨t, i⟩ l = true → m.inl ⟨t, i⟩ l = false
  unlockA : m.unlockA ⟨t, i⟩ l = true → m.inl ⟨t, i⟩ l = true
  join : ∀ j ∈ predecessors c i, inle m ⟨t, j⟩ l = inle m ⟨t, first⟩ l
  first : first ∈ predecessorsForward c i

theorem mem_visit (ord : HashOrder) {l : List ℕ} {j : ℕ} : j ∈ ord.visit l ↔ j ∈ l := (ord.perm l).mem_iff

theorem predecessors_of_forward {j : ℕ} (h : j ∈ predecessorsForward c i) : j ∈ predecessors c i := by
  simp only [predecessorsForward, predecessors, List.mem_filter, List.any_eq_true, Bool.and_eq_true] at h ⊢
  obtain ⟨hj, e, he, hd, -⟩ := h
  exact ⟨hj, e, he, hd⟩

theorem mem_predecessors {u v : ℕ} : u ∈ predecessors c v ↔ u ∈ stateIds c ∧ c.HasEdge u v := by
  simp [predecessors, AbstractCfg.HasEdge]

theorem mem_predecessorsForward {u v : ℕ} : u ∈ predecessorsForward c v ↔
    u ∈ stateIds c ∧ ∃ e ∈ c.getSuccessors u, e.dst = v ∧ e.backEdge = false := by
  simp [predecessorsForward]

theorem joined (h : consJoin m ord c t i l = true) {j k : ℕ} (hj : j ∈ predecessors c i) (hk : k ∈ predecessors c i) :
    inle m ⟨t, j⟩ l = inle m ⟨t, k⟩ l := by
  rw [← mem_visit ord] at hj hk
  unfold consJoin at h
  split at h
  · rename_i hnil
    simp [hnil] at hj
  · rename_i f rest hcons
    rw [hcons] at hj hk
    have hall : ∀ x ∈ f :: rest, inle m ⟨t, f⟩ l = inle m ⟨t, x⟩ l := by
      intro x hx
      rcases List.mem_cons.1 hx with rfl | hx
      · rfl
      · simpa using List.all_eq_true.1 h x hx
    rw [← hall j hj, ← hall k hk]

theorem consistent (h : lockConsistancyAt m locks ord c t i l = true) (hf : ∃ j, j ∈ predecessorsForward c i) :
    ∃ first, Consistent m c t i l first := by
  simp only [lockConsistancyAt, Bool.and_eq_true] at h
  obtain ⟨⟨⟨⟨⟨⟨-, hbasic⟩, -⟩, -⟩, hpred⟩, hafter⟩, hjoin⟩ := h
  obtain ⟨hbA, hbB⟩ : (m.lockA ⟨t, i⟩ l = true → m.unlockA ⟨t, i⟩ l = false) ∧
      (m.lockB ⟨t, i⟩ l = true → m.unlockB ⟨t, i⟩ l = false) := by
    simp only [consBasic, Bool.and_eq_true] at hbasic
    constructor
    · intro ha
      simpa [ha] using hbasic.1
    · intro hb
      simpa [hb] using hbasic.2
  simp only [consAfter, Bool.and_eq_true] at hafter
  unfold consPredecessors at hpred
  split at hpred
  · rename_i hnil
    obtain ⟨j, hj⟩ := hf
    rw [← mem_visit ord, hnil] at hj
    simp at hj
  · rename_i first rest hcons
    have hmem : ∀ j, j ∈ predecessorsForward c i ↔ j ∈ first :: rest := by
      intro j
      rw [← mem_visit ord, hcons]
    simp only [Bool.and_eq_true, beq_iff_eq, List.all_eq_true] at hpred
    obtain ⟨hinl, hall⟩ := hpred
    have hfirst : first ∈ predecessorsForward c i := (hmem first).2 List.mem_cons_self
    refine ⟨first, hbA, hbB, hinl, fun j hj hb => ?_, fun j hj hu => ?_, lockOrderAfter_self hafter.1,
      imp_eq_true.1 hafter.2, fun j hj => joined hjoin hj (predecessors_of_forward hfirst), hfirst⟩
    · exact lockOrderBefore_self (hall j ((hmem j).1 hj)).1 hb
    · simpa using imp_eq_true.1 (hall j ((hmem j).1 hj)).2 hu

/-! ## One state -/

theorem leave_exec (h : Consistent m c t i l first) : leave m l ⟨t, i⟩ (m.inl ⟨t, i⟩ l) = some (inle m ⟨t, i⟩ l) := by
  unfold leave opsAfter inle
  cases hu : m.unlockA ⟨t, i⟩ l with
  | true =>
    have ha : m.lockA ⟨t, i⟩ l = false := by
      by_contra hne
      have := h.basicA (by simpa using hne)
      simp [hu] at this
    simp [ha, h.unlockA hu, execOps]
  | false =>
    cases ha : m.lockA ⟨t, i⟩ l with
    | true => simp [h.lockA ha, execOps]
    | false => simp [execOps]

/-- entered with the lock status of the first forward predecessor, the state is executed correctly -/
theorem arrive_exec (h : Consistent m c t i l first) :
    arrive m l ⟨t, i⟩ (inle m ⟨t, first⟩ l) = some (m.inl ⟨t, i⟩ l) := by
  unfold arrive opsBefore
  rw [h.inl]
  cases hu : m.unlockB ⟨t, i⟩ l with
  | true =>
    obtain ⟨h1, h2⟩ := h.unlockB first h.first hu
    have hb : m.lockB ⟨t, i⟩ l = false := by
      by_contra hne
      have := h.basicB (by simpa using hne)
      simp [hu] at this
    have hin : inle m ⟨t, first⟩ l = true := by simp [inle, h1, h2]
    simp [hb, hin, execOps]
  | false =>
    cases hb : m.lockB ⟨t, i⟩ l with
    | true =>
      obtain ⟨h1, h2⟩ := h.lockB first h.first hb
      have hin : inle m ⟨t, first⟩ l = false := by simp [inle, h1, h2]
      simp [hin, execOps]
    | false => simp [execOps]

/-! ## The first and the final state -/

/-- state 1 has no predecessor and no lock location, so nothing is locked there -/
theorem first_state (hp : Parsed c) (h : lockConsistancyAt m locks ord c t 1 l = true) :
    m.inl ⟨t, 1⟩ l = false ∧ arrive m l ⟨t, 1⟩ false = some false ∧ inle m ⟨t, 1⟩ l = false ∧
      leave m l ⟨t, 1⟩ false = some false := by
  simp only [lockConsistancyAt, Bool.and_eq_true] at h
  obtain ⟨⟨⟨⟨⟨⟨hloc, -⟩, -⟩, -⟩, hpred⟩, -⟩, -⟩ := h
  obtain ⟨⟨hb, hub⟩, ha, hua⟩ : (m.lockB ⟨t, 1⟩ l = false ∧ m.unlockB ⟨t, 1⟩ l = false) ∧
      m.lockA ⟨t, 1⟩ l = false ∧ m.unlockA ⟨t, 1⟩ l = false := by
    simpa [consLoc, hp.unlockedStart] using hloc
  have hnil : ord.visit (predecessorsForward c 1) = [] := by
    rw [List.eq_nil_iff_forall_not_mem]
    intro j hj
    rw [mem_visit ord] at hj
    exact hp.entry j (mem_predecessors.1 (predecessors_of_forward hj)).2
  have hin : m.inl ⟨t, 1⟩ l = false := by simpa [consPredecessors, hnil, hb, hub] using hpred
  exact ⟨hin, by simp [arrive, opsBefore, hb, hub, execOps], by simp [inle, hin, ha],
    by simp [leave, opsAfter, ha, hua, execOps]⟩

/-- a thread is locked the same way where it starts and where it ends, and nothing is locked after its last state -/
theorem final_state (hp : Parsed c) (h1 : lockConsistancyAt m locks ord c t 1 l = true)
    (h : lockConsistancyAt m locks ord c t (c.getState 1).returnState l = true) :
    inle m ⟨t, (c.getState 1).returnState⟩ l = false := by
  have hin := (first_state hp h1).1
  have hne : (c.getState 1).returnState ≠ noState := by
    have := hp.exit
    simp only [stateIds, List.mem_range'_1] at this
    simp only [noState]
    omega
  simp only [lockConsistancyAt, Bool.and_eq_true] at h h1
  have hfun : m.inl ⟨t, 1⟩ l = m.inl ⟨t, (c.getState 1).returnState⟩ l := by
    simpa [consFunctions, hne] using h1.1.1.1.2
  have hloc : m.lockA ⟨t, (c.getState 1).returnState⟩ l = false := by
    have := h.1.1.1.1.1.1
    simp only [consLoc, hp.unlockedExit.2, Bool.and_eq_true] at this
    simp only [Option.isSome_none, Bool.false_or, Bool.and_eq_true] at this
    simpa using this.2.1
  simp [inle, ← hfun, hin, hloc]

/-! ## Every path -/

/-- a path from state 1 to a state, by the states visited before it -/
inductive Walk (c : AbstractCfg) : List ℕ → ℕ → Prop where
  | start : Walk c [] 1
  | step {p : List ℕ} {u v : ℕ} : Walk c p u → IsEdge c u v → Walk c (p ++ [u]) v

theorem execPath_snoc (p : List ℕ) (x : ℕ) : execPath m t l (p ++ [x]) =
    ((execPath m t l p).bind (arrive m l ⟨t, x⟩)).bind (leave m l ⟨t, x⟩) := by
  simp [execPath, List.foldlM_append, Option.bind_assoc]

theorem Walk.mem_stateIds (hp : Parsed c) {p : List ℕ} {x : ℕ} (hw : Walk c p x) : x ∈ stateIds c := by
  cases hw with
  | start => exact hp.start
  | step _ he => exact he.2.1

/-- the lock status on arrival at a state is `inl`, when it leaves it is `inle` -/
theorem walk_exec (h : addConstraints m locks ord threads = true) (ht : threads[t]? = some c) (hl : l ∈ locks)
    (hp : Parsed c) {p : List ℕ} {x : ℕ} (hw : Walk c p x) :
    (execPath m t l p).bind (arrive m l ⟨t, x⟩) = some (m.inl ⟨t, x⟩ l) ∧
      execPath m t l (p ++ [x]) = some (inle m ⟨t, x⟩ l) := by
  induction hw with
  | start =>
    obtain ⟨hin, harr, hinle, hleave⟩ := first_state hp (constraints_at h ht hp.start hl)
    rw [execPath_snoc]
    simp [execPath, hin, harr, hinle, hleave]
  | @step p u v hw he ih =>
    have hne : v ≠ 1 := by
      rintro rfl
      exact hp.entry u he.2.2
    obtain ⟨w, hw', e, hmem, hd, hb⟩ := hp.forward v he.2.1 hne
    obtain ⟨first, hc⟩ := consistent (constraints_at h ht he.2.1 hl)
      ⟨w, mem_predecessorsForward.2 ⟨hw', e, hmem, hd, hb⟩⟩
    -- the state before may be another predecessor than the one `inl` is defined by: the join has them agree
    have harr : (execPath m t l (p ++ [u])).bind (arrive m l ⟨t, v⟩) = some (m.inl ⟨t, v⟩ l) := by
      rw [ih.2, hc.join u (mem_predecessors.2 ⟨he.1, he.2.2⟩)]
      exact arrive_exec hc
    refine ⟨harr, ?_⟩
    rw [execPath_snoc, harr]
    exact leave_exec hc

/-- **placed locks are used correctly**: along every path from state 1 no operation acquires a held lock or releases a
free one, the lock is held at a state iff `inl` says so, and it is free after the final state -/
theorem placement_discipline (h : addConstraints m locks ord threads = true) (ht : threads[t]? = some c)
    (hl : l ∈ locks) (hp : Parsed c) {p : List ℕ} {x : ℕ} (hw : Walk c p x) :
    (execPath m t l p).bind (arrive m l ⟨t, x⟩) = some (m.inl ⟨t, x⟩ l) ∧
      (execPath m t l (p ++ [x])).isSome ∧
      ((c.getState x).final = true → execPath m t l (p ++ [x]) = some false) := by
  obtain ⟨harr, hexec⟩ := walk_exec h ht hl hp hw
  refine ⟨harr, by rw [hexec]; rfl, fun hfin => ?_⟩
  have hx : x = (c.getState 1).returnState := (hp.final x (hw.mem_stateIds hp)).1 hfin
  rw [hexec, hx, final_state hp (constraints_at h ht hp.start hl) (constraints_at h ht hp.exit hl)]

/-- a loop: the states start, loop head, write and end -/
def writeLoop : AbstractCfg where
  threadId := 0
  states :=
    [State.ofId 0 0, { State.ofId 0 1 with returnState := 4 }, { State.ofId 0 2 with lockBefore := some 1 },
      { State.ofAction { operation := .write, loc := ⟨0, 3⟩ } with lockBefore := some 2, lockAfter := some 3 },
      { State.ofId 0 4 with final := true }]
  edges := [[], [{ dst := 2 }], [{ dst := 3 }, { dst := 4 }], [{ dst := 2, backEdge := true }], []]

/-- lock 1 is taken for each write, lock 0 is not used -/
def writeLoopLocks : LockAssignment where
  lockB x l := x = ⟨0, 3⟩ && l = 1
  unlockB _ _ := false
  lockA _ _ := false
  unlockA x l := x = ⟨0, 3⟩ && l = 1
  inl x l := x = ⟨0, 3⟩ && l = 1

theorem writeLoop_parsed : Parsed writeLoop where
  entry u := by
    rintro ⟨e, he, hd⟩
    rcases u with _ | _ | _ | _ | _ | u
    all_goals simp [AbstractCfg.getSuccessors, writeLoop] at he
    · simp [he] at hd
    · rcases he with rfl | rfl <;> simp at hd
    · simp [he] at hd
  forward := by decide
  start := by decide
  exit := by decide
  final := by decide
  unlockedStart := by decide
  unlockedExit := by decide

theorem writeLoop_discipline : execPath writeLoopLocks 0 1 [1, 2, 3, 2, 4] = some false := by
  have edge : ∀ u v, u ∈ stateIds writeLoop → v ∈ stateIds writeLoop →
      (∃ e ∈ writeLoop.getSuccessors u, e.dst = v) → IsEdge writeLoop u v := fun u v hu hv he => ⟨hu, hv, he⟩
  have hw : Walk writeLoop [1, 2, 3, 2] 4 :=
    .step (.step (.step (.step .start (edge 1 2 (by decide) (by decide) (by decide)))
      (edge 2 3 (by decide) (by decide) (by decide))) (edge 3 2 (by decide) (by decide) (by decide)))
      (edge 2 4 (by decide) (by decide) (by decide))
  have hc : addConstraints writeLoopLocks [0, 1] ⟨id, fun _ => .refl _⟩ [writeLoop] = true := by decide
  exact (placement_discipline (t := 0) (l := 1) hc rfl (by decide) writeLoop_parsed hw).2.2 rfl

end Liss.PlaceLocks
