/-
Where a call returns, after `minimise(true)` and `compact`.

`minimise` may remove the state where a call returns, if it has no action and no place for a lock, and `compact` may
drop it with the states that it does not reach. Then `return_state` keeps the old number, and designates another state
or none.

- `active_iff_survives`: it can be told from the links of the CFG before which states survive both passes;
- `returns_iff`: the return states are renumbered with their states exactly if they survive whenever the call does.
-/
import Liss.Cfg.Renumbering

namespace Liss

namespace AbstractCfg

variable {c m k : AbstractCfg}

/-! ## Survival -/

/-- a state that is reached from state 1 over links that do not lead back -/
def Survives (c : AbstractCfg) (u : ℕ) : Prop := Relation.ReflTransGen (Forward (c.Contracted true) 1) 1 u

/-- **Survival.** -/
theorem active_iff_survives (hc : c.Constructed) {fuel : ℕ} (h : c.minimise true fuel = some m) {u : ℕ} :
    m.Active u ↔ c.Survives u :=
  (active_iff_forward h).trans (forward_reach_congr fun _ v hu => hasEdge_minimise hc h hu v)

/-- a surviving state is state 1 or kept -/
theorem Survives.kept {u : ℕ} (h : c.Survives u) : u = 1 ∨ c.kept true u = true := by
  cases h with
  | refl => exact Or.inl rfl
  | tail _ he => exact Or.inr he.1.1

/-! ## Return states -/

/-- `k` consists of the active states of `m`, renumbered in order, and the return state of each is the new number of the
state that was its return state before -/
def ReturnsKept (m k : AbstractCfg) : Prop :=
  ∃ f, Renumbered m k {u | m.Active u} f ∧ StrictMonoOn f {u | m.Active u} ∧
    ∀ u, m.Active u → (m.getState u).returnState ≠ noState →
      m.Active (m.getState u).returnState ∧ (k.getState (f u)).returnState = f (m.getState u).returnState

theorem strictMonoOn_place {actives : List ℕ} (h : actives.Pairwise (· < ·)) :
    StrictMonoOn (place 1 actives) {u | u ∈ actives} := by
  intro u hu v hv huv
  obtain ⟨n, hn, hp⟩ := exists_place h hu
  obtain ⟨n', hn', hp'⟩ := exists_place h hv
  obtain ⟨hlt, rfl⟩ := List.getElem?_eq_some_iff.1 hn
  obtain ⟨hlt', rfl⟩ := List.getElem?_eq_some_iff.1 hn'
  rw [hp, hp']
  rcases Nat.lt_trichotomy n n' with hnn | rfl | hnn
  · omega
  · exact absurd huv (lt_irrefl _)
  · exact absurd (List.pairwise_iff_getElem.1 h n' n hlt' hlt hnn) (not_lt_of_gt huv)

/-- when the return states are active -/
theorem returnsKept_of_active (hm : m.Proper) (hstart : 1 < m.states.length) {fuel : ℕ} (hk : m.compact fuel = some k)
    (hall : ∀ u, m.Active u → (m.getState u).returnState ≠ noState → m.Active (m.getState u).returnState) :
    ReturnsKept m k := by
  obtain ⟨actives, hcomp⟩ := compact_spec hm.ranged hstart hk
  have hset : {u | u ∈ actives} = {u | m.Active u} := Set.ext hcomp.mem
  refine ⟨place 1 actives, compacted_renumbered hm hstart hcomp, hset ▸ strictMonoOn_place hcomp.ascending,
    fun u hu hr => ⟨hall u hu hr, ?_⟩⟩
  obtain ⟨n, hn, hp⟩ := exists_place hcomp.ascending ((hcomp.mem u).2 hu)
  rw [hp, hcomp.state n u hn, if_neg hr, renumber, if_pos ((hcomp.mem _).2 (hall u hu hr))]

/-- **Calls and returns.** The links survive exactly if the return state of every state that survives does, that is,
if it has an action, is final or has a place for a lock, and is reached over links that do not lead back. -/
theorem returns_iff (hc : c.Constructed) (hstart : 1 < c.states.length) {fuel fuel' : ℕ}
    (h : c.minimise true fuel = some m) (hk : m.compact fuel' = some k) :
    ReturnsKept m k ↔ ∀ u, c.Survives u → (c.getState u).returnState ≠ noState →
      ((c.getState u).returnState = 1 ∨ c.kept true (c.getState u).returnState = true) ∧
        c.Survives (c.getState u).returnState := by
  have hstart' : 1 < m.states.length := by rwa [(sameSize_minimise h).states]
  have hsame : ∀ u, (m.getState u).returnState = (c.getState u).returnState := by
    intro u
    have hs := minimise_state h u
    simp only [State.mk.injEq] at hs
    exact hs.2.2.2.2.1
  constructor
  · intro ⟨f, _, _, hret⟩ u hu hr
    rw [← hsame] at hr ⊢
    have hs := (active_iff_survives hc h).1 (hret u ((active_iff_survives hc h).2 hu) hr).1
    exact ⟨hs.kept, hs⟩
  · intro hall
    refine returnsKept_of_active (hc.proper.minimise h) hstart' hk fun u hu hr => ?_
    rw [hsame] at hr ⊢
    exact (active_iff_survives hc h).2 (hall u ((active_iff_survives hc h).1 hu) hr).2

/-! ## A call that loses its return -/

/-- a call, the state where it returns, and a state with an action; the places for locks are `before` and `after` -/
def callRow (returns : Option ℕ) : AbstractCfg :=
  ((((⟨0, [State.ofId 0 0, State.ofId 0 1, State.ofId 0 2, State.ofId 0 3, State.ofAction { storeX with loc := ⟨0, 4⟩ }],
    [[], [], [], [], []]⟩ : AbstractCfg).addEdge 1 2).addEdge 2 3).addEdge 3 4).modifyState 2 (fun s =>
      { s with final := false, nonDet := false, returnState := 3, lockBefore := some 0, lockAfter := none }) |>.modifyState
      3 fun s =>
        { s with final := false, nonDet := false, returnState := 0, lockBefore := none, lockAfter := returns }

theorem callRow_constructed (returns : Option ℕ) : (callRow returns).Constructed :=
  .setFields (.setFields (.addEdge (.addEdge (.addEdge (.addState (.addDummyState (.addDummyState (.addDummyState
    (.empty 0) rfl) rfl) rfl) storeX (by decide) rfl) (by decide) 1 false true 0) (by decide) 2 false true 0)
    (by decide) 3 false true 0) 2 false false 3 (some 0) none) 3 false false 0 none returns

/-- with a place for a lock at the return, as in `f();` -/
def placedRow : AbstractCfg := callRow (some 1)

/-- without one, as in `x = f();`, where the place after the return is taken away for the write -/
def plainRow : AbstractCfg := callRow none

theorem placedRow_minimise : (placedRow.minimise true 20).isSome = true := by decide

theorem placedRow_compact : (((placedRow.minimise true 20).get placedRow_minimise).compact 20).isSome = true := by
  decide

theorem plainRow_minimise : (plainRow.minimise true 20).isSome = true := by decide

theorem plainRow_compact : (((plainRow.minimise true 20).get plainRow_minimise).compact 20).isSome = true := by decide

theorem placedRow_returns : ReturnsKept ((placedRow.minimise true 20).get placedRow_minimise)
    ((((placedRow.minimise true 20).get placedRow_minimise).compact 20).get placedRow_compact) := by
  have hmin := (Option.some_get placedRow_minimise).symm
  refine (returns_iff (callRow_constructed (some 1)) (by decide) hmin (Option.some_get placedRow_compact).symm).2 ?_
  intro u _ hr
  have hret : ∀ u, (placedRow.getState u).returnState = noState ∨ (placedRow.getState u).returnState = 3
    | 0 | 1 | 3 | 4 | u + 5 => Or.inl rfl
    | 2 => Or.inr rfl
  have hthree := (hret u).resolve_left hr
  have hedge : ∀ u v, (∃ e ∈ ((placedRow.minimise true 20).get placedRow_minimise).getSuccessors u,
      e.backEdge = false ∧ e.dst = v) → UnmarkedEdge ((placedRow.minimise true 20).get placedRow_minimise) u v :=
    fun _ _ h => h
  have hactive : Active ((placedRow.minimise true 20).get placedRow_minimise) 3 :=
    (Relation.ReflTransGen.single (hedge 1 2 (by decide))).tail (hedge 2 3 (by decide))
  have hsurvives : (callRow (some 1)).Survives 3 := (active_iff_survives (callRow_constructed (some 1)) hmin).1 hactive
  rw [show ((callRow (some 1)).getState u).returnState = 3 from hthree]
  exact ⟨hsurvives.kept, hsurvives⟩

/-- the state with the action gets the number 3 that the call still returns to -/
theorem plainRow_stale : ¬ ∀ (c m k : AbstractCfg) (fuel fuel' : ℕ), c.Constructed → 1 < c.states.length →
    c.minimise true fuel = some m → m.compact fuel' = some k → ReturnsKept m k := by
  intro hall
  obtain ⟨f, -, -, hret⟩ := hall plainRow _ _ 20 20 (callRow_constructed none) (by decide)
    (Option.some_get plainRow_minimise).symm (Option.some_get plainRow_compact).symm
  have hedge : ∀ u v, (∃ e ∈ ((plainRow.minimise true 20).get plainRow_minimise).getSuccessors u,
      e.backEdge = false ∧ e.dst = v) → UnmarkedEdge ((plainRow.minimise true 20).get plainRow_minimise) u v :=
    fun _ _ h => h
  have hactive := (hret 2 (.single (hedge 1 2 (by decide))) (by decide)).1
  have := active_subset (l := [1, 2, 4]) (by decide) (by decide) hactive
  revert this
  decide

end AbstractCfg

end Liss
