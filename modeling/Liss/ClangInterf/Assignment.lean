/-
The states of an assignment.

`TraverseBinAssign` links the end of the inner visitor's chain to the outer one, not its start. With one access on the
left side the two are the same state. In `a[i] = x` the accesses to `a` and `i` are two states, and that of `a` is
left without a predecessor.

- `way_split`: the paths through a chain end with all of its states, in order;
- `oneChain_iff`: the states of an assignment are one chain exactly if no assignment in it has several states for its
  left side.
-/
import Liss.ClangInterf.Chains

namespace Liss

namespace StatementVisitor

open AbstractCfg

variable {u v w : StatementVisitor} {k : VisitContext} {writer : Bool} {lhs rhs : Expr}

/-- the assignment has one state at most for its left side, and so have those in its sides -/
def singleTarget (k : VisitContext) (lhs rhs : Expr) : Bool :=
  singleTargets k rhs && (singleTargets k lhs && decide (stateCount k lhs ≤ 1))

/-- a path from `x` to `y` -/
def Way (c : AbstractCfg) (x y : ℕ) (p : List ℕ) : Prop := p.IsChain c.HasEdge ∧ p.head? = some x ∧ p.getLast? = some y

/-- where the statement is entered: at the last state of what was traversed before, or else at `first_state` -/
def entry (v w : StatementVisitor) : ℕ := if v.endState = noState then w.startState else v.endState

/-- The states that `w` has more than `v` are one chain. The right side has been traversed when the visitor is `u`. -/
structure OneChain (v u w : StatementVisitor) : Prop where
  pred : ∀ y, v.size ≤ y → y < w.size → y ≠ w.startState → ∃ x, w.thread.HasEdge x y
  connected : Relation.ReflTransGen w.thread.HasEdge (entry v w) w.endState
  through : ∀ p, Way w.thread (entry v w) w.endState p →
    ∀ y, v.size ≤ y → y < w.size → (w.thread.getState y).action ≠ none → y ∈ p
  order : ∀ p, Way w.thread (entry v w) w.endState p →
    ∃ p1 p2, p = p1 ++ p2 ∧ (∀ x ∈ p2, ¬(v.size ≤ x ∧ x < u.size)) ∧ ∀ y ∈ p1, ¬(u.size ≤ y ∧ y < w.size)

/-! ## Paths through a chain -/

/-- only old states lead to an old state -/
theorem Extends.old (hv : v.Valid) (h : Extends v w) {x y : ℕ} (hxy : w.thread.HasEdge x y) (hy : y < v.size) :
    x < v.size := by
  by_contra hx
  obtain ⟨e, he, -⟩ := (h.kept x y hy).1 hxy
  have hsized := hv.constructed.proper.ranged.sized
  rw [getSuccessors, List.getD_eq_default _ _ (by rw [hsized]; exact not_lt.1 hx)] at he
  simp at he

/-- the last step of a path -/
theorem Way.last {c : AbstractCfg} {x z : ℕ} {p : List ℕ} (h : Way c x z p) :
    (p = [z] ∧ x = z) ∨ ∃ q y, p = q ++ [z] ∧ Way c x y q ∧ c.HasEdge y z := by
  obtain ⟨hchain, hhead, hlast⟩ := h
  cases p using List.reverseRecOn with
  | nil => simp at hhead
  | append_singleton q t =>
    obtain rfl : t = z := by simpa using hlast
    cases hq : q.getLast? with
    | none =>
      obtain rfl := List.getLast?_eq_none_iff.1 hq
      exact .inl ⟨rfl, by simpa using hhead.symm⟩
    | some y =>
      obtain ⟨hleft, -, hedge⟩ := List.isChain_append.1 hchain
      have hne : q ≠ [] := by
        intro h0
        simp [h0] at hq
      rw [List.head?_append_of_ne_nil _ hne] at hhead
      exact .inr ⟨q, y, rfl, ⟨hleft, hhead, hq⟩, hedge y hq t rfl⟩

/-- a path to an old state stays on old states -/
theorem Extends.old_way (hv : v.Valid) (h : Extends v w) {x z : ℕ} {p : List ℕ} (hp : Way w.thread x z p)
    (hold : z < v.size) : ∀ y ∈ p, y < v.size := by
  induction p using List.reverseRecOn generalizing z with
  | nil => simp
  | append_singleton p t ih =>
    intro y hy
    rcases hp.last with ⟨hpz, -⟩ | ⟨q, y', hq, hway, hedge⟩
    · rw [hpz] at hy
      rw [List.mem_singleton.1 hy]
      exact hold
    · obtain ⟨rfl, -⟩ := List.append_inj' hq rfl
      rw [hq] at hy
      rcases List.mem_append.1 hy with hy | hy
      · exact ih hway (h.old hv hedge hold) y hy
      · rw [List.mem_singleton.1 hy]
        exact hold

/-- the statement is entered at an old state, or at the first of the new ones -/
theorem entry_lt (hv : v.Valid) (hc : Chain v w) (hlt : v.size < w.size) : entry v w ≤ v.size := by
  unfold entry
  split_ifs with h0
  · exact (hc.first hlt h0).le
  · exact hv.lt.le

/-- **Paths.** By induction on the state that the path leads to. -/
theorem way_split (hv : v.Valid) (h : Extends v w) (hc : Chain v w) {n : ℕ} (hlt : v.size + n < w.size) {p : List ℕ}
    (hp : Way w.thread (entry v w) (v.size + n) p) :
    ∃ p1, p = p1 ++ List.range' v.size (n + 1) ∧ ∀ x ∈ p1, x < v.size := by
  have hentry := entry_lt hv hc (by omega)
  induction n generalizing p with
  | zero =>
    rcases hp.last with ⟨rfl, -⟩ | ⟨q, y, rfl, hq, hedge⟩
    · exact ⟨[], rfl, by simp⟩
    · -- the first of the new states is linked to the end of the old ones
      have hy : y = v.endState := by
        obtain ⟨-, hy⟩ := (hc.link y v.size (le_refl _) hlt).1 hedge
        rwa [if_pos rfl] at hy
      exact ⟨q, rfl, h.old_way hv hq (hy ▸ hv.lt)⟩
  | succ n ih =>
    rcases hp.last with ⟨-, hstart⟩ | ⟨q, y, rfl, hq, hedge⟩
    · omega
    · obtain ⟨-, hy⟩ := (hc.link y (v.size + (n + 1)) (by omega) hlt).1 hedge
      rw [if_neg (by omega)] at hy
      obtain rfl : y = v.size + n := by omega
      obtain ⟨p1, rfl, hp1⟩ := ih (by omega) hq
      refine ⟨p1, ?_, hp1⟩
      rw [List.range'_1_concat (n := n + 1), List.append_assoc]

/-! ## A chain -/

/-- there is a path to each new state -/
theorem Chain.reaches (hv : v.Valid) (hc : Chain v w) {n : ℕ} (hlt : v.size + n < w.size) :
    Relation.ReflTransGen w.thread.HasEdge (entry v w) (v.size + n) := by
  induction n with
  | zero =>
    by_cases h0 : v.endState = noState
    · rw [entry, if_pos h0, hc.first hlt h0]
      exact .refl
    · rw [entry, if_neg h0]
      apply Relation.ReflTransGen.single
      rw [Nat.add_zero]
      exact (hc.link _ v.size (le_refl _) hlt).2 ⟨h0, (if_pos rfl).symm⟩
  | succ n ih =>
    apply (ih (by omega)).tail
    have hpos := hv.size_pos
    apply (hc.link _ _ (by omega) hlt).2
    refine ⟨?_, ?_⟩
    · simp only [noState]
      omega
    · rw [if_neg (by omega)]
      omega

/-- each new state but the first of all has a predecessor -/
theorem Chain.pred (hv : v.Valid) (hc : Chain v w) {y : ℕ} (hle : v.size ≤ y) (hlt : y < w.size)
    (hne : y ≠ w.startState) : ∃ x, w.thread.HasEdge x y := by
  refine ⟨_, (hc.link _ y hle hlt).2 ⟨?_, rfl⟩⟩
  split_ifs with hy
  · intro h0
    exact hne (hy.trans (hc.first (by omega) h0).symm)
  · have hpos := hv.size_pos
    simp only [noState]
    omega

/-- nothing is added -/
theorem OneChain.of_same (hv : v.Valid) (huw : w.size ≤ u.size) (h : Extends v w) (hsize : w.size = v.size) :
    OneChain v u w := by
  obtain ⟨hstart, hend⟩ := h.same hsize
  have hentry : entry v w = w.endState := by
    unfold entry
    split_ifs with h0
    · rw [hstart, hend, h0]
      exact hv.progress.2 h0
    · exact hend.symm
  refine ⟨fun y h1 h2 => by omega, ?_, fun p hp y h1 h2 => by omega, fun p hp => ⟨p, [], ?_, ?_, ?_⟩⟩
  · rw [hentry]
  · rw [List.append_nil]
  · simp
  · intro y _ hy
    omega

/-- the states before `u` and those from `u` on -/
theorem OneChain.of_chain (hv : v.Valid) (hvu : v.size ≤ u.size) (huw : u.size ≤ w.size) (h : Extends v w)
    (hc : Chain v w) : OneChain v u w := by
  rcases Nat.lt_or_eq_of_le h.le with hlt | heq
  · have hend : w.endState = v.size + (w.size - 1 - v.size) := by
      have := h.last hlt
      omega
    have hsplit : ∀ p, Way w.thread (entry v w) w.endState p →
        ∃ p1, p = p1 ++ List.range' v.size (w.size - v.size) ∧ ∀ x ∈ p1, x < v.size := by
      intro p hp
      rw [hend] at hp
      obtain ⟨p1, hp1, hold⟩ := way_split hv h hc (by omega) hp
      rw [show w.size - 1 - v.size + 1 = w.size - v.size by omega] at hp1
      exact ⟨p1, hp1, hold⟩
    refine ⟨fun y h1 h2 h3 => hc.pred hv h1 h2 h3, ?_, fun p hp y h1 h2 _ => ?_, fun p hp => ?_⟩
    · rw [hend]
      exact hc.reaches hv (by omega)
    · obtain ⟨p1, rfl, -⟩ := hsplit p hp
      apply List.mem_append_right
      rw [List.mem_range'_1]
      omega
    · obtain ⟨p1, rfl, hold⟩ := hsplit p hp
      refine ⟨p1 ++ List.range' v.size (u.size - v.size), List.range' u.size (w.size - u.size), ?_, ?_, ?_⟩
      · calc p1 ++ List.range' v.size (w.size - v.size)
          _ = p1 ++ List.range' v.size (u.size - v.size + (w.size - u.size)) := by
            congr 2
            omega
          _ = p1 ++ (List.range' v.size (u.size - v.size) ++ List.range' u.size (w.size - u.size)) := by
            rw [← List.range'_append_1, Nat.add_sub_cancel' hvu]
          _ = _ := (List.append_assoc _ _ _).symm
      · intro x hx hlt
        rw [List.mem_range'_1] at hx
        omega
      · intro y hy hle
        rcases List.mem_append.1 hy with hy | hy
        · have := hold y hy
          omega
        · rw [List.mem_range'_1] at hy
          omega
  · exact .of_same hv (by omega) h heq.symm

/-! ## Assignments -/

/-- the right side, and all of the assignment -/
theorem traverseBinAssign_traversed (hv : v.Valid) (hu : traverseStmt k writer rhs v = .ok u)
    (hw : traverseBinAssign k writer lhs rhs v = .ok w) :
    Traversed v u (stateCount k rhs) (singleTargets k rhs) ∧
      Traversed u w (stateCount k lhs) (singleTargets k lhs && decide (stateCount k lhs ≤ 1)) := by
  have hvu := traverseStmt_traversed hv hu
  obtain ⟨u', x, hu', hx, rfl⟩ := traverseBinAssign_ok hw
  obtain rfl : u = u' := Except.ok.inj (hu.symm.trans hu')
  have hu' := hv.extends hvu.ext
  exact ⟨hvu, joinInner_traversed hu' (traverseStmt_traversed hu'.inner hx)⟩

theorem Lost.not_oneChain (hl : Lost v w) : ¬OneChain v u w := by
  intro hone
  obtain ⟨y, hle, hlt, hnone, hne⟩ := hl
  obtain ⟨x, hx⟩ := hone.pred y hle (by omega) hne
  exact hnone x hx

/-- **Assignments.** -/
theorem oneChain_iff (hv : v.Valid) (hu : traverseStmt k writer rhs v = .ok u)
    (hw : traverseBinAssign k writer lhs rhs v = .ok w) : OneChain v u w ↔ singleTarget k lhs rhs = true := by
  obtain ⟨hvu, huw⟩ := traverseBinAssign_traversed hv hu hw
  have hvw := hvu.trans hv huw
  constructor
  · intro hone
    by_contra hsingle
    exact (hvw.lost (Bool.eq_false_of_not_eq_true hsingle)).not_oneChain hone
  · intro hsingle
    exact .of_chain hv hvu.ext.le huw.ext.le hvw.ext (hvw.chain hsingle)

/-! ## Two assignments -/

/-- a visitor that starts on an empty thread -/
def onEmpty : StatementVisitor := { thread := .empty 0 }

theorem valid_onEmpty : onEmpty.Valid := ⟨.empty 0, by decide, by decide, Iff.rfl⟩

/-- a reference to a global variable -/
def global (id : ℕ) (name : String) : Expr := .declRefExpr id (.var name false false "")

/-- `x = (y = z)` -/
theorem nested_oneChain : ∃ u w,
    traverseStmt {} false (.binAssign 1 (global 2 "y") (global 3 "z")) onEmpty = .ok u ∧
      traverseBinAssign {} false (global 0 "x") (.binAssign 1 (global 2 "y") (global 3 "z")) onEmpty = .ok w ∧
      OneChain onEmpty u w := by
  obtain ⟨w, hw⟩ := exists_ok (x := traverseBinAssign {} false (global 0 "x")
    (.binAssign 1 (global 2 "y") (global 3 "z")) onEmpty) (by decide)
  obtain ⟨u, _, hu, _, _⟩ := traverseBinAssign_ok hw
  exact ⟨u, w, hu, hw, (oneChain_iff valid_onEmpty hu hw).2 (by decide)⟩

/-- `a[i] = x` -/
theorem element_not_oneChain : ¬∀ (k : VisitContext) (writer : Bool) (lhs rhs : Expr) (v u w : StatementVisitor),
    v.Valid → traverseStmt k writer rhs v = .ok u → traverseBinAssign k writer lhs rhs v = .ok w →
      OneChain v u w := by
  intro h
  obtain ⟨w, hw⟩ := exists_ok (x := traverseBinAssign {} false (.other 3 [global 0 "a", global 1 "i"])
    (global 2 "x") onEmpty) (by decide)
  obtain ⟨u, _, hu, _, _⟩ := traverseBinAssign_ok hw
  obtain ⟨hvu, huw⟩ := traverseBinAssign_traversed valid_onEmpty hu hw
  have hlost : Lost onEmpty w := (hvu.trans valid_onEmpty huw).lost (by decide)
  exact hlost.not_oneChain (h _ _ _ _ onEmpty u w valid_onEmpty hu hw)

end StatementVisitor

end Liss
