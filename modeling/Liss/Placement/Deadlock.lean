/-
Placed locks introduce no deadlock.

The instrumented program runs any number of threads. Each walks its control-flow graph; at a state it first executes the
operations printed before the state, then the action of the state, which may block on the program's own locks and
conditionals, and then the operations printed after it. A placed lock has at most one owner, and a thread that wants a
lock with an owner is blocked.

`lock_order` is stated for forward predecessors only. The joins carry it to back edges (`arrive_lower`), and since the
operations at one point are printed in descending order of the locks, it still holds when their turn comes (`ThreadOk`).

- `step_inv`: what every step preserves;
- `placed_no_deadlock`: locks are taken in descending order, none is held at a lock or wait of the program, and where a
  thread is blocked on a placed lock, some owner of a placed lock can go on.
-/
import Liss.Placement.PrintProgram

namespace Liss.PlaceLocks

/-! ## The instrumented program -/

/-- where a thread is: before or after the action of a state, with operations that are still to be executed -/
structure ThreadState where
  state : ℕ
  phase : PositionType
  todo : List (PlacedOp × ℕ)

structure Config where
  threads : ℕ → ThreadState
  owner : ℕ → Option ℕ
  /-- the locks and conditionals of the program -/
  shared : ConcurrentState

/-- the owners after a placed operation; `none` when the thread is blocked -/
def execPlaced (owner : ℕ → Option ℕ) (t : ℕ) : PlacedOp × ℕ → Option (ℕ → Option ℕ)
  | (.acquire, l) => if (owner l).isNone then some (Function.update owner l (some t)) else none
  | (.release, l) => some (Function.update owner l none)

/-- the program's own state after an action; `none` when the thread is blocked -/
def execAction (shared : ConcurrentState) : Option Symbol → Option ConcurrentState
  | none => some shared
  | some sigma =>
    if ConcurrentAutomaton.blocked shared sigma then none
    else some (ConcurrentAutomaton.applyOperation shared sigma).1

/-- one step of thread `t` -/
inductive Step (threads : List AbstractCfg) (text : PositionType → Location → List (PlacedOp × ℕ)) :
    Config → Config → Prop where
  | placed {s : Config} {t : ℕ} {c : AbstractCfg} {op : PlacedOp × ℕ} {todo : List (PlacedOp × ℕ)}
      {owner : ℕ → Option ℕ} : threads[t]? = some c → (s.threads t).todo = op :: todo →
      execPlaced s.owner t op = some owner →
      Step threads text s
        { s with threads := Function.update s.threads t { s.threads t with todo := todo }, owner := owner }
  | action {s : Config} {t : ℕ} {c : AbstractCfg} {shared : ConcurrentState} : threads[t]? = some c →
      (s.threads t).phase = .before → (s.threads t).todo = [] →
      execAction s.shared (c.getState (s.threads t).state).action = some shared →
      Step threads text s
        { s with
          threads := Function.update s.threads t
            ⟨(s.threads t).state, .after, text .after ⟨t, (s.threads t).state⟩⟩
          shared := shared }
  | move {s : Config} {t : ℕ} {c : AbstractCfg} {v : ℕ} : threads[t]? = some c → (s.threads t).phase = .after →
      (s.threads t).todo = [] → IsEdge c (s.threads t).state v →
      Step threads text s
        { s with threads := Function.update s.threads t ⟨v, .before, text .before ⟨t, v⟩⟩ }

/-- all threads at state 1, nothing locked -/
def initialConfig (text : PositionType → Location → List (PlacedOp × ℕ)) : Config where
  threads t := ⟨1, .before, text .before ⟨t, 1⟩⟩
  owner _ := none
  shared := { locksviolated := [], conflicts := [], threads := [] }

inductive Reachable (threads : List AbstractCfg) (text : PositionType → Location → List (PlacedOp × ℕ)) :
    Config → Prop where
  | start : Reachable threads text (initialConfig text)
  | step {s s' : Config} : Reachable threads text s → Step threads text s s' → Reachable threads text s'

/-- the next operation of the thread acquires the placed lock -/
def Acquiring (threads : List AbstractCfg) (s : Config) (t l : ℕ) : Prop :=
  (∃ c, threads[t]? = some c) ∧ ∃ todo, (s.threads t).todo = (.acquire, l) :: todo

/-- the thread is at the action of a state -/
def AtAction (threads : List AbstractCfg) (s : Config) (t : ℕ) (sigma : Symbol) : Prop :=
  ∃ c, threads[t]? = some c ∧ (s.threads t).phase = .before ∧ (s.threads t).todo = [] ∧
    (c.getState (s.threads t).state).action = some sigma

def IsWaitOp (sigma : Symbol) : Prop :=
  sigma.operation = .wait ∨ sigma.operation = .waitNot ∨ sigma.operation = .waitReset

def BlockedOnPlaced (threads : List AbstractCfg) (s : Config) (t l : ℕ) : Prop :=
  Acquiring threads s t l ∧ s.owner l ≠ none

/-- blocked on a placed lock, a lock of the program or a wait that is no assume -/
def Blocked (threads : List AbstractCfg) (s : Config) (t : ℕ) : Prop :=
  (∃ l, BlockedOnPlaced threads s t l) ∨
    ∃ sigma, AtAction threads s t sigma ∧ (sigma.operation = .lock ∨ IsWaitOp sigma ∧ sigma.assume = false) ∧
      ConcurrentAutomaton.blocked s.shared sigma = true

/-- what lock placement asks of a control-flow graph -/
structure Placeable (c : AbstractCfg) : Prop where
  entry : ∀ u, ¬c.HasEdge u 1
  forward : ∀ v ∈ stateIds c, v ≠ 1 → ∃ u ∈ stateIds c, ∃ e ∈ c.getSuccessors u, e.dst = v ∧ e.backEdge = false
  start : 1 ∈ stateIds c

/-- the program does not use `lock_s` -/
def NoSynthesised (threads : List AbstractCfg) : Prop :=
  ∀ c ∈ threads, ∀ s ∈ c.states, ∀ a, s.action = some a → a.synthesised = false

variable {m : LockAssignment} {n : ℕ} {ord : HashOrder} {threads : List AbstractCfg} {c : AbstractCfg} {t i l u v : ℕ}

theorem mem_upTo {j : ℕ} (hji : j ≤ i) (hi : i < n) : j ∈ upTo (List.range n) i := by
  rcases hji.lt_or_eq with hlt | rfl
  · have hn : n = i + (n - i) := by omega
    have hsplit : List.range n = List.range i ++ (List.range (n - i)).map (i + ·) := by
      conv_lhs => rw [hn, List.range_add]
    rw [upTo, hsplit, List.takeWhile_append_of_pos]
    · exact List.mem_append_left _ (List.mem_append_left _ (List.mem_range.2 hlt))
    · intro k hk
      have := List.mem_range.1 hk
      simp only [decide_eq_true_eq]
      omega
  · exact mem_upTo_self _ _

/-- where a lock is taken after a state, no lower one is held at the state -/
theorem leave_lower (h : addConstraints m (List.range n) ord threads = true) (ht : threads[t]? = some c)
    (hu : u ∈ stateIds c) (hi : i < n) (ha : m.lockA ⟨t, u⟩ i = true) {j : ℕ} (hj : j ≤ i) :
    m.inl ⟨t, u⟩ j = false := by
  have hat := constraints_at h ht hu (List.mem_range.2 hi)
  simp only [lockConsistancyAt, consAfter, Bool.and_eq_true] at hat
  obtain ⟨⟨-, hafter, -⟩, -⟩ := hat
  have := imp_eq_true.1 (List.all_eq_true.1 hafter j (mem_upTo hj hi)) ha
  simpa using this

/-- where a lock is taken before a state, no lower one is held after any predecessor: the constraint says so of the
forward predecessors, and the lock status after the others is the same -/
theorem arrive_lower (h : addConstraints m (List.range n) ord threads = true) (ht : threads[t]? = some c)
    (hp : Placeable c) (he : IsEdge c u v) (hi : i < n) (hb : m.lockB ⟨t, v⟩ i = true) {j : ℕ} (hj : j ≤ i) :
    inle m ⟨t, u⟩ j = false := by
  have hne : v ≠ 1 := by
    rintro rfl
    exact hp.entry u he.2.2
  obtain ⟨w, hw, hedge⟩ := hp.forward v he.2.1 hne
  have hwf : w ∈ predecessorsForward c v := mem_predecessorsForward.2 ⟨hw, hedge⟩
  have hat := constraints_at h ht he.2.1 (List.mem_range.2 hi)
  have hjoin := constraints_at h ht he.2.1 (List.mem_range.2 (hj.trans_lt hi))
  simp only [lockConsistancyAt, Bool.and_eq_true] at hat hjoin
  obtain ⟨⟨⟨-, hpred⟩, -⟩, -⟩ := hat
  have horder : lockOrderBefore m (List.range n) i ⟨t, v⟩ ⟨t, w⟩ = true := by
    have hmem := (mem_visit ord).2 hwf
    unfold consPredecessors at hpred
    split at hpred
    · rename_i hnil
      rw [hnil] at hmem
      exact absurd hmem List.not_mem_nil
    · rename_i first rest hcons
      rw [hcons] at hmem
      simp only [Bool.and_eq_true, List.all_eq_true] at hpred
      exact (hpred.2 w hmem).1
  have hw' : m.inl ⟨t, w⟩ j = false ∧ m.lockA ⟨t, w⟩ j = false := by
    have := imp_eq_true.1 (List.all_eq_true.1 horder j (mem_upTo hj hi)) hb
    simpa using this
  rw [joined hjoin.2 (mem_predecessors.2 ⟨he.1, he.2.2⟩) (predecessors_of_forward hwf), inle, hw'.1, hw'.2]
  rfl

/-! ## The status of one lock -/

/-- the operations on one lock among those at a position -/
def opsAt (m : LockAssignment) (position : PositionType) (x : Location) (l : ℕ) : List PlacedOp :=
  match position with
  | .before => opsBefore m x l
  | .after => opsAfter m x l

/-- the lock status when the operations at a position are done -/
def target (m : LockAssignment) (position : PositionType) (x : Location) (l : ℕ) : Bool :=
  match position with
  | .before => m.inl x l
  | .after => inle m x l

theorem start_status (h : addConstraints m (List.range n) ord threads = true) (ht : threads[t]? = some c)
    (hp : Placeable c) (hl : l < n) : execOps false (opsAt m .before ⟨t, 1⟩ l) = some (target m .before ⟨t, 1⟩ l) := by
  have hat := constraints_at h ht hp.start (List.mem_range.2 hl)
  simp only [lockConsistancyAt, Bool.and_eq_true] at hat
  obtain ⟨⟨⟨-, hpred⟩, -⟩, -⟩ := hat
  have hnil : ord.visit (predecessorsForward c 1) = [] := by
    rw [List.eq_nil_iff_forall_not_mem]
    intro j hj
    rw [mem_visit ord] at hj
    exact hp.entry j (mem_predecessors.1 (predecessors_of_forward hj)).2
  obtain ⟨hin, hub⟩ : m.inl ⟨t, 1⟩ l = m.lockB ⟨t, 1⟩ l ∧ m.unlockB ⟨t, 1⟩ l = false := by
    simpa [consPredecessors, hnil] using hpred
  rw [opsAt, opsBefore, target, hub, hin]
  cases m.lockB ⟨t, 1⟩ l <;> simp [execOps]

theorem arrive_status (h : addConstraints m (List.range n) ord threads = true) (ht : threads[t]? = some c)
    (hp : Placeable c) (he : IsEdge c u v) (hl : l < n) :
    execOps (inle m ⟨t, u⟩ l) (opsAt m .before ⟨t, v⟩ l) = some (target m .before ⟨t, v⟩ l) := by
  have hne : v ≠ 1 := by
    rintro rfl
    exact hp.entry u he.2.2
  obtain ⟨w, hw, hedge⟩ := hp.forward v he.2.1 hne
  obtain ⟨first, hc⟩ := consistent (constraints_at h ht he.2.1 (List.mem_range.2 hl))
    ⟨w, mem_predecessorsForward.2 ⟨hw, hedge⟩⟩
  rw [hc.join u (mem_predecessors.2 ⟨he.1, he.2.2⟩)]
  exact arrive_exec hc

theorem leave_status (h : addConstraints m (List.range n) ord threads = true) (ht : threads[t]? = some c)
    (hu : u ∈ stateIds c) (hl : l < n) :
    execOps (m.inl ⟨t, u⟩ l) (opsAt m .after ⟨t, u⟩ l) = some (target m .after ⟨t, u⟩ l) := by
  have hat := constraints_at h ht hu (List.mem_range.2 hl)
  have hexcl := (placed_source h ht hu (List.mem_range.2 hl) .after).2
  simp only [lockConsistancyAt, consAfter, Bool.and_eq_true] at hat
  obtain ⟨⟨-, -, hunlock⟩, -⟩ := hat
  rw [opsAt, opsAfter, target, inle]
  cases ha : m.lockA ⟨t, u⟩ l with
  | true =>
    have hin := leave_lower h ht hu hl ha le_rfl
    have hua : m.unlockA ⟨t, u⟩ l = false := hexcl ha
    rw [hin, hua]
    rfl
  | false =>
    cases hua : m.unlockA ⟨t, u⟩ l with
    | true =>
      rw [imp_eq_true.1 hunlock hua]
      rfl
    | false => simp [execOps]

/-! ## The operations of a thread -/

/-- the operations on one lock that are still to be executed -/
def opsOf (l : ℕ) (todo : List (PlacedOp × ℕ)) : List PlacedOp := (todo.filter fun op => op.2 = l).map Prod.fst

theorem opsOf_cons (l : ℕ) (op : PlacedOp × ℕ) (todo : List (PlacedOp × ℕ)) :
    opsOf l (op :: todo) = if op.2 = l then op.1 :: opsOf l todo else opsOf l todo := by
  by_cases hop : op.2 = l
  · simp [opsOf, hop]
  · simp [opsOf, hop]

theorem opsOf_eq_nil {todo : List (PlacedOp × ℕ)} (h : ∀ op ∈ todo, op.2 ≠ l) : opsOf l todo = [] := by
  rw [opsOf, List.map_eq_nil_iff, List.filter_eq_nil_iff]
  intro op hop
  simpa using h op hop

/-- in descending order no lock stands twice -/
theorem opsOf_eq_singleton {todo : List (PlacedOp × ℕ)} (hs : todo.Pairwise fun a b => b.2 < a.2) {op : PlacedOp}
    (hop : (op, l) ∈ todo) : opsOf l todo = [op] := by
  induction todo with
  | nil => exact absurd hop List.not_mem_nil
  | cons a todo ih =>
    obtain ⟨hlt, hs⟩ := List.pairwise_cons.1 hs
    rw [opsOf_cons]
    rcases List.mem_cons.1 hop with rfl | hop
    · rw [if_pos rfl, opsOf_eq_nil fun b hb => (hlt b hb).ne]
    · rw [if_neg (hlt _ hop).ne', ih hs hop]

/-- the operations printed for one lock are those that are placed -/
theorem opsOf_text (order : ModelOrder) (sort : LockSort) (h : addConstraints m (List.range n) ord threads = true)
    (ht : threads[t]? = some c) (hu : u ∈ stateIds c) (hl : l < n) (position : PositionType) :
    opsOf l (text m n threads order sort position ⟨t, u⟩) = opsAt m position ⟨t, u⟩ l := by
  have hs := text_sorted order sort h position ⟨t, u⟩
  have hmem : ∀ lockT, (opOf lockT, l) ∈ text m n threads order sort position ⟨t, u⟩ ↔
      placed m lockT position ⟨t, u⟩ l = true := by
    intro lockT
    rw [mem_text order sort h ht hu position lockT]
    exact and_iff_right hl
  have hexcl := (placed_source h ht hu (List.mem_range.2 hl) position).2
  have hops : opsAt m position ⟨t, u⟩ l = (if placed m .unlock position ⟨t, u⟩ l then [.release] else []) ++
      if placed m .lock position ⟨t, u⟩ l then [.acquire] else [] := by
    cases position <;> rfl
  rw [hops]
  cases hlock : placed m .lock position ⟨t, u⟩ l with
  | true =>
    rw [hexcl hlock, opsOf_eq_singleton hs ((hmem .lock).2 hlock)]
    rfl
  | false =>
    cases hunlock : placed m .unlock position ⟨t, u⟩ l with
    | true =>
      rw [opsOf_eq_singleton hs ((hmem .unlock).2 hunlock)]
      rfl
    | false =>
      apply opsOf_eq_nil
      intro op hop heq
      obtain ⟨kind, k⟩ := op
      simp only at heq
      subst heq
      cases kind with
      | acquire =>
        rw [(hmem .lock).1 hop] at hlock
        exact absurd hlock (by simp)
      | release =>
        rw [(hmem .unlock).1 hop] at hunlock
        exact absurd hunlock (by simp)

/-! ## The invariant -/

/-- the thread owns the lock -/
def holds (owner : ℕ → Option ℕ) (t l : ℕ) : Bool := owner l = some t

/-- a thread with its remaining operations: they are in descending order and lead to the right lock status, and where
one acquires a lock, no lock up to that one is held -/
structure ThreadOk (m : LockAssignment) (n : ℕ) (c : AbstractCfg) (t : ℕ) (owner : ℕ → Option ℕ) (ts : ThreadState) :
    Prop where
  mem : ts.state ∈ stateIds c
  sorted : ts.todo.Pairwise fun a b => b.2 < a.2
  status : ∀ l < n, execOps (holds owner t l) (opsOf l ts.todo) = some (target m ts.phase ⟨t, ts.state⟩ l)
  bound : ∀ op ∈ ts.todo, op.2 < n
  lower : ∀ i, (.acquire, i) ∈ ts.todo → ∀ j ≤ i, holds owner t j = false

structure Inv (m : LockAssignment) (n : ℕ) (threads : List AbstractCfg) (s : Config) : Prop where
  thread : ∀ t c, threads[t]? = some c → ThreadOk m n c t s.owner (s.threads t)
  owner : ∀ l t, s.owner l = some t → l < n ∧ ∃ c, threads[t]? = some c

theorem ThreadOk.congr {owner owner' : ℕ → Option ℕ} {ts : ThreadState} (h : ThreadOk m n c t owner ts)
    (heq : ∀ l, holds owner' t l = holds owner t l) : ThreadOk m n c t owner' ts := by
  refine ⟨h.mem, h.sorted, fun l hl => ?_, h.bound, fun i hi j hj => ?_⟩
  · rw [heq]
    exact h.status l hl
  · rw [heq]
    exact h.lower i hi j hj

/-- a thread at the beginning of the text of a position -/
theorem ThreadOk.enter (order : ModelOrder) (sort : LockSort) (h : addConstraints m (List.range n) ord threads = true)
    (ht : threads[t]? = some c) (hu : u ∈ stateIds c) {owner : ℕ → Option ℕ} {position : PositionType}
    (hstatus : ∀ l < n, execOps (holds owner t l) (opsAt m position ⟨t, u⟩ l) = some (target m position ⟨t, u⟩ l))
    (hlower : ∀ i < n, placed m .lock position ⟨t, u⟩ i = true → ∀ j ≤ i, holds owner t j = false) :
    ThreadOk m n c t owner ⟨u, position, text m n threads order sort position ⟨t, u⟩⟩ where
  mem := hu
  sorted := text_sorted order sort h position _
  status l hl := by
    rw [opsOf_text order sort h ht hu hl]
    exact hstatus l hl
  bound op hop := by
    obtain ⟨kind, k⟩ := op
    cases kind with
    | acquire => exact ((mem_text order sort h ht hu position .lock).1 hop).1
    | release => exact ((mem_text order sort h ht hu position .unlock).1 hop).1
  lower i hi j hj := by
    obtain ⟨hin, hplaced⟩ := (mem_text order sort h ht hu position .lock).1 hi
    exact hlower i hin hplaced j hj

/-- when the operations are done, the lock status is the one that the assignment says -/
theorem ThreadOk.done {owner : ℕ → Option ℕ} {ts : ThreadState} (h : ThreadOk m n c t owner ts) (hnil : ts.todo = [])
    (hl : l < n) : holds owner t l = target m ts.phase ⟨t, ts.state⟩ l := by
  have := h.status l hl
  rw [hnil, opsOf_eq_nil (fun op hop => absurd hop List.not_mem_nil), execOps, Option.some.injEq] at this
  exact this

/-- a placed operation changes the status of its own lock alone, as `execOps` says, and only for the thread itself -/
theorem execPlaced_status {owner owner' : ℕ → Option ℕ} {kind : PlacedOp} {k : ℕ} {ops : List PlacedOp} {b : Bool}
    (hexec : execPlaced owner t (kind, k) = some owner')
    (hops : execOps (holds owner t k) (kind :: ops) = some b) :
    (∀ l, l ≠ k → owner' l = owner l) ∧ execOps (holds owner' t k) ops = some b ∧
      ∀ t', t' ≠ t → (owner' k = some t' ↔ owner k = some t') := by
  cases kind with
  | acquire =>
    simp only [execPlaced, Option.ite_none_right_eq_some, Option.some.injEq] at hexec
    obtain ⟨hfree, rfl⟩ := hexec
    have hnone : owner k = none := Option.isNone_iff_eq_none.1 hfree
    have hfalse : holds owner t k = false := by simp [holds, hnone]
    have htrue : holds (Function.update owner k (some t)) t k = true := by simp [holds]
    refine ⟨fun l hl => Function.update_of_ne hl _ _, ?_, fun t' ht' => ?_⟩
    · rw [hfalse, execOps, if_neg (by simp)] at hops
      rw [htrue]
      exact hops
    · simp [hnone, Ne.symm ht']
  | release =>
    simp only [execPlaced, Option.some.injEq] at hexec
    obtain rfl := hexec
    have hheld : holds owner t k = true := by
      by_contra hne
      rw [execOps, if_neg hne] at hops
      exact absurd hops (by simp)
    have howner : owner k = some t := by simpa [holds] using hheld
    have hfalse : holds (Function.update owner k none) t k = false := by simp [holds]
    refine ⟨fun l hl => Function.update_of_ne hl _ _, ?_, fun t' ht' => ?_⟩
    · rw [execOps, if_pos hheld] at hops
      rw [hfalse]
      exact hops
    · simp [howner, Ne.symm ht']

/-- one placed operation of the thread itself -/
theorem ThreadOk.placed {owner owner' : ℕ → Option ℕ} {ts : ThreadState} (h : ThreadOk m n c t owner ts)
    {op : PlacedOp × ℕ} {todo : List (PlacedOp × ℕ)} (htodo : ts.todo = op :: todo)
    (hexec : execPlaced owner t op = some owner') :
    ThreadOk m n c t owner' { ts with todo := todo } ∧ (∀ l, owner' l = some t → owner l = some t ∨ l < n) ∧
      ∀ l t', t' ≠ t → (owner' l = some t' ↔ owner l = some t') := by
  obtain ⟨kind, k⟩ := op
  have hsorted := h.sorted
  rw [htodo, List.pairwise_cons] at hsorted
  obtain ⟨hlt, hsorted⟩ := hsorted
  have hkn : k < n := h.bound (kind, k) (htodo ▸ List.mem_cons_self)
  have hbound : ∀ op ∈ todo, op.2 < n := fun op hop => h.bound op (htodo ▸ List.mem_cons_of_mem _ hop)
  have hlower : ∀ i, (.acquire, i) ∈ todo → ∀ j ≤ i, holds owner t j = false := fun i hi =>
    h.lower i (htodo ▸ List.mem_cons_of_mem _ hi)
  have hstatus : ∀ l < n, execOps (holds owner t l) (if k = l then kind :: opsOf l todo else opsOf l todo) =
      some (target m ts.phase ⟨t, ts.state⟩ l) := by
    intro l hl
    have := h.status l hl
    rw [htodo, opsOf_cons] at this
    exact this
  have hstatusk := hstatus k hkn
  rw [if_pos rfl] at hstatusk
  obtain ⟨hsame, hk, hother⟩ := execPlaced_status hexec hstatusk
  have hholds : ∀ l, l ≠ k → holds owner' t l = holds owner t l := fun l hl => by rw [holds, holds, hsame l hl]
  refine ⟨⟨h.mem, hsorted, fun l hl => ?_, hbound, fun i hi j hj => ?_⟩, fun l hl => ?_, fun l t' ht' => ?_⟩
  · by_cases hlk : l = k
    · rw [hlk]
      exact hk
    · rw [hholds l hlk]
      have := hstatus l hl
      rw [if_neg (Ne.symm hlk)] at this
      exact this
  · have hik : i < k := hlt _ hi
    rw [hholds j (by omega)]
    exact hlower i hi j hj
  · by_cases hlk : l = k
    · exact .inr (hlk ▸ hkn)
    · exact .inl (hsame l hlk ▸ hl)
  · by_cases hlk : l = k
    · rw [hlk]
      exact hother t' ht'
    · rw [hsame l hlk]

/-- what changes in one thread alone -/
theorem Inv.update {s : Config} (hi : Inv m n threads s) (ht : threads[t]? = some c) {ts : ThreadState}
    {owner : ℕ → Option ℕ} (shared : ConcurrentState) (hts : ThreadOk m n c t owner ts)
    (hother : ∀ l t', t' ≠ t → (owner l = some t' ↔ s.owner l = some t')) (hbound : ∀ l, owner l = some t → l < n) :
    Inv m n threads ⟨Function.update s.threads t ts, owner, shared⟩ where
  thread t' c' ht' := by
    by_cases heq : t' = t
    · subst heq
      rw [ht, Option.some.injEq] at ht'
      subst ht'
      simp only [Function.update_self]
      exact hts
    · simp only [Function.update_of_ne heq]
      refine (hi.thread t' c' ht').congr fun l => ?_
      simp only [holds, hother l t' heq]
  owner l t' hl := by
    by_cases heq : t' = t
    · subst heq
      exact ⟨hbound l hl, c, ht⟩
    · exact hi.owner l t' ((hother l t' heq).1 hl)

/-- **What every step preserves.** -/
theorem step_inv (order : ModelOrder) (sort : LockSort) (h : addConstraints m (List.range n) ord threads = true)
    (hpre : ∀ c ∈ threads, Placeable c) {s s' : Config} (hi : Inv m n threads s)
    (hs : Step threads (text m n threads order sort) s s') : Inv m n threads s' := by
  cases hs with
  | placed ht htodo hexec =>
    obtain ⟨hok, hbound, hother⟩ := (hi.thread _ _ ht).placed htodo hexec
    refine hi.update ht s.shared hok hother fun l hl => ?_
    rcases hbound l hl with hold | hlt
    · exact (hi.owner l _ hold).1
    · exact hlt
  | @action t c shared ht hphase htodo hexec =>
    have hok := hi.thread t c ht
    have hheld : ∀ l < n, holds s.owner t l = m.inl ⟨t, (s.threads t).state⟩ l := by
      intro l hl
      rw [hok.done htodo hl, hphase]
      rfl
    refine hi.update ht shared ?_ (fun _ _ _ => Iff.rfl) fun l hl => (hi.owner l t hl).1
    refine ThreadOk.enter order sort h ht hok.mem (fun l hl => ?_) fun i hin hplaced j hj => ?_
    · rw [hheld l hl]
      exact leave_status h ht hok.mem hl
    · rw [hheld j (by omega)]
      exact leave_lower h ht hok.mem hin hplaced hj
  | @move t c v ht hphase htodo hedge =>
    have hok := hi.thread t c ht
    have hp := hpre c (List.mem_of_getElem? ht)
    have hheld : ∀ l < n, holds s.owner t l = inle m ⟨t, (s.threads t).state⟩ l := by
      intro l hl
      rw [hok.done htodo hl, hphase]
      rfl
    refine hi.update ht s.shared ?_ (fun _ _ _ => Iff.rfl) fun l hl => (hi.owner l t hl).1
    refine ThreadOk.enter order sort h ht hedge.2.1 (fun l hl => ?_) fun i hin hplaced j hj => ?_
    · rw [hheld l hl]
      exact arrive_status h ht hp hedge hl
    · rw [hheld j (by omega)]
      exact arrive_lower h ht hp hedge hin hplaced hj

theorem reachable_inv (order : ModelOrder) (sort : LockSort) (h : addConstraints m (List.range n) ord threads = true)
    (hpre : ∀ c ∈ threads, Placeable c) {s : Config} (hs : Reachable threads (text m n threads order sort) s) :
    Inv m n threads s := by
  induction hs with
  | start =>
    refine ⟨fun t c ht => ?_, fun l t hl => absurd hl (by simp [initialConfig])⟩
    have hp := hpre c (List.mem_of_getElem? ht)
    exact ThreadOk.enter order sort h ht hp.start (fun l hl => start_status h ht hp hl) fun _ _ _ _ _ => rfl
  | step _ hstep ih => exact step_inv order sort h hpre ih hstep

/-! ## No deadlock -/

section

variable {order : ModelOrder} {sort : LockSort} {s : Config}

/-- placed locks are taken in descending order -/
theorem Inv.acquiring (hi : Inv m n threads s) (ha : Acquiring threads s t i) {j : ℕ} (hj : j ≤ i) :
    s.owner j ≠ some t := by
  obtain ⟨⟨c, ht⟩, todo, htodo⟩ := ha
  have := (hi.thread t c ht).lower i (htodo ▸ List.mem_cons_self) j hj
  simpa [holds] using this

/-- where the thread may not be locked, it owns nothing -/
theorem Inv.unlockable (hi : Inv m n threads s) (h : addConstraints m (List.range n) ord threads = true)
    {sigma : Symbol} (ha : AtAction threads s t sigma) (hu : sigma.isUnlockablePoint = true) (j : ℕ) :
    s.owner j ≠ some t := by
  intro howner
  obtain ⟨c, ht, hphase, htodo, haction⟩ := ha
  have hj := (hi.owner j t howner).1
  have hok := hi.thread t c ht
  have hheld := hok.done htodo hj
  rw [hphase, holds, howner] at hheld
  have hat := constraints_at h ht hok.mem (List.mem_range.2 hj)
  simp only [lockConsistancyAt, Bool.and_eq_true] at hat
  obtain ⟨⟨⟨⟨⟨-, hpreempt⟩, -⟩, -⟩, -⟩, -⟩ := hat
  have hfree := imp_eq_true.1 hpreempt (by rw [haction]; exact hu)
  simp only [target, decide_true] at hheld
  rw [← hheld] at hfree
  exact absurd hfree (by simp)

theorem isUnlockablePoint_of_lock {sigma : Symbol} (hop : sigma.operation = .lock) (hs : sigma.synthesised = false) :
    sigma.isUnlockablePoint = true := by
  simp [Symbol.isUnlockablePoint, hop, hs]

theorem isUnlockablePoint_of_wait {sigma : Symbol} (hop : IsWaitOp sigma) (ha : sigma.assume = false) :
    sigma.isUnlockablePoint = true := by
  rcases hop with hop | hop | hop <;> simp [Symbol.isUnlockablePoint, hop, ha]

/-- along the owners of the locks that are waited for the lock numbers go down -/
theorem Inv.free_owner (hi : Inv m n threads s) (h : addConstraints m (List.range n) ord threads = true)
    (hno : NoSynthesised threads) (hb : BlockedOnPlaced threads s t i) :
    ∃ t' j, s.owner j = some t' ∧ ¬Blocked threads s t' := by
  induction i using Nat.strong_induction_on generalizing t with
  | _ i ih =>
    obtain ⟨hacq, howned⟩ := hb
    obtain ⟨t', ht'⟩ := Option.ne_none_iff_exists'.1 howned
    by_cases hblocked : Blocked threads s t'
    · rcases hblocked with ⟨k, hk⟩ | ⟨sigma, haction, hkind, -⟩
      · have hlt : k < i := by
          by_contra hge
          exact hi.acquiring hk.1 (not_lt.1 hge) ht'
        exact ih k hlt hk
      · have hunlockable : sigma.isUnlockablePoint = true := by
          rcases hkind with hlock | ⟨hwait, hassume⟩
          · obtain ⟨c, hc, -, -, hac⟩ := haction
            obtain ⟨state, hmem, hstate⟩ := AbstractCfg.mem_states_of_action hac
            exact isUnlockablePoint_of_lock hlock (hno c (List.mem_of_getElem? hc) state hmem sigma hstate)
          · exact isUnlockablePoint_of_wait hwait hassume
        exact absurd ht' (hi.unlockable h haction hunlockable i)
    · exact ⟨t', i, ht', hblocked⟩

/-- **Placed locks introduce no deadlock.** In every reachable state of the instrumented program, a thread that acquires
a placed lock owns none up to that one, a thread at a lock of the program or at a wait that is no assume owns none at
all, and where some thread is blocked on a placed lock, some owner of a placed lock is not blocked. -/
theorem placed_no_deadlock (h : addConstraints m (List.range n) ord threads = true) (hpre : ∀ c ∈ threads, Placeable c)
    (hno : NoSynthesised threads) (hs : Reachable threads (text m n threads order sort) s) :
    (∀ t i, Acquiring threads s t i → ∀ j ≤ i, s.owner j ≠ some t) ∧
      (∀ t sigma, AtAction threads s t sigma →
        (sigma.operation = .lock ∧ sigma.synthesised = false ∨ IsWaitOp sigma ∧ sigma.assume = false) →
        ∀ j, s.owner j ≠ some t) ∧
      ∀ t i, BlockedOnPlaced threads s t i → ∃ t' j, s.owner j = some t' ∧ ¬Blocked threads s t' := by
  have hi := reachable_inv order sort h hpre hs
  refine ⟨fun t i ha j hj => hi.acquiring ha hj, fun t sigma ha hkind => ?_, fun t i hb => hi.free_owner h hno hb⟩
  rcases hkind with ⟨hlock, hsyn⟩ | ⟨hwait, hassume⟩
  · exact hi.unlockable h ha (isUnlockablePoint_of_lock hlock hsyn)
  · exact hi.unlockable h ha (isUnlockablePoint_of_wait hwait hassume)

end

/-! ## Two threads that want the same lock -/

/-- `x=1;`: the states start, write and end -/
def oneWrite : AbstractCfg where
  threadId := 0
  states :=
    [State.ofId 0 0, { State.ofId 0 1 with returnState := 3 },
      { State.ofAction { operation := .write, loc := ⟨0, 2⟩ } with lockBefore := some 1, lockAfter := some 2 },
      { State.ofId 0 3 with final := true }]
  edges := [[], [{ dst := 2 }], [{ dst := 3 }], []]

/-- the write is locked -/
def oneWriteLocks : LockAssignment where
  lockB x l := x.state = 2 && l = 0
  unlockB _ _ := false
  lockA _ _ := false
  unlockA x l := x.state = 2 && l = 0
  inl x l := x.state = 2 && l = 0

/-- two threads that run it -/
def bothWrite : List AbstractCfg := [oneWrite, oneWrite]

theorem oneWrite_placeable : Placeable oneWrite where
  entry u := by
    rintro ⟨e, he, hd⟩
    rcases u with _ | _ | _ | _ | u
    all_goals simp [AbstractCfg.getSuccessors, oneWrite] at he
    · simp [he] at hd
    · simp [he] at hd
  forward := by decide
  start := by decide

theorem bothWrite_noSynthesised : NoSynthesised bothWrite := by
  have hall : ∀ c ∈ bothWrite, ∀ s ∈ c.states, ∀ a ∈ s.action, a.synthesised = false := by decide
  exact fun c hc s hs a ha => hall c hc s hs a ha

/-- insertion sort is one way to sort -/
def insertionLockSort : LockSort where
  sort := List.insertionSort fun a b => a.lock ≤ b.lock
  perm := List.perm_insertionSort _
  sorted := List.pairwise_insertionSort _

def bothText : PositionType → Location → List (PlacedOp × ℕ) :=
  text oneWriteLocks 1 bothWrite ⟨id, fun _ => .refl _⟩ insertionLockSort

/-- the first thread takes the lock, and the second waits for it -/
theorem bothWrite_blocked : ∃ s, Reachable bothWrite bothText s ∧ BlockedOnPlaced bothWrite s 1 0 ∧
    ∃ t j, s.owner j = some t ∧ ¬Blocked bothWrite s t := by
  have hedge : IsEdge oneWrite 1 2 := ⟨by decide, by decide, { dst := 2 }, List.mem_singleton_self _, rfl⟩
  have h0 : Reachable bothWrite bothText (initialConfig bothText) := .start
  have h1 := h0.step (.action (t := 0) (c := oneWrite) rfl rfl (by decide) rfl)
  have h2 := h1.step (.move (t := 0) (c := oneWrite) (v := 2) rfl rfl (by decide) hedge)
  have h3 := h2.step (.placed (t := 0) (c := oneWrite) rfl (by decide : _ = [(.acquire, 0)]) rfl)
  have h4 := h3.step (.action (t := 1) (c := oneWrite) rfl rfl (by decide) rfl)
  have h5 := h4.step (.move (t := 1) (c := oneWrite) (v := 2) rfl rfl (by decide) hedge)
  have hc : addConstraints oneWriteLocks (List.range 1) ⟨id, fun _ => .refl _⟩ bothWrite = true := by decide
  have hpre : ∀ c ∈ bothWrite, Placeable c := by simpa [bothWrite] using oneWrite_placeable
  refine ⟨_, h5, ?_, (placed_no_deadlock hc hpre bothWrite_noSynthesised h5).2.2 1 0 ?_⟩ <;>
    exact ⟨⟨⟨oneWrite, rfl⟩, [], by decide⟩, by decide⟩

end Liss.PlaceLocks
