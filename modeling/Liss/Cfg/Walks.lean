/-
A walk through the CFG of a thread and the automaton of its minimised copy.

The automaton knows only the states that `minimise(false)` keeps. While a thread walks over the removed states it stays
where it is after the last kept one, and when the thread executes the action of a kept state it takes the tag of the
edge to it, if there is one, and then the action.

- `edge_path`: an edge of the minimised CFG is a path of the automaton;
- `Tracks.move`, `Tracks.skip`, `Tracks.execute`: the automaton follows each step of the walk;
- `Tracks.finish`: at the final state it accepts, after at most one more tag.
-/
import Liss.Cfg.PathLanguage

namespace Liss

/-- the symbols of a word that are no tags -/
def untagged (w : List Symbol) : List Symbol := w.filter fun s => s.operation != .tag

@[simp] theorem untagged_nil : untagged [] = [] := rfl

theorem untagged_append (w w' : List Symbol) : untagged (w ++ w') = untagged w ++ untagged w' := List.filter_append _ _

namespace AbstractCfg

variable {c m : AbstractCfg} {fuel : ℕ}

/-- a CFG without tags is framed if its states are -/
theorem framed_of_lt (hstart : (c.getState 1).action = none ∧ (c.getState 1).final = false)
    (hstates : ∀ u < c.states.length, u ≠ noState →
      ((c.getState u).final = true → (c.getState u).action = none ∧ c.getSuccessors u = []) ∧
        ∀ a ∈ (c.getState u).action, a.loc = ⟨c.threadId, u⟩ ∧ a.operation ≠ .tag)
    (hedges : ∀ es ∈ c.edges, ∀ e ∈ es, e.dst ≠ noState ∧ e.tag = none) : c.Framed := by
  have hnone : ∀ u, ¬u < c.states.length → c.getState u = {} := fun u hu => List.getD_eq_default _ _ (by omega)
  have hsucc : ∀ u, ∀ e ∈ c.getSuccessors u, e.dst ≠ noState ∧ e.tag = none := by
    intro u e he
    obtain ⟨es, hes, hm⟩ := mem_edges_of_getSuccessors he
    exact hedges es hes e hm
  refine ⟨hstart, fun u hu hf => ?_, fun u hu a ha => ?_, fun u _ e he => (hsucc u e he).1, fun u _ e he t ht => ?_⟩
  · by_cases hlt : u < c.states.length
    · exact (hstates u hlt hu).1 hf
    · simp [hnone u hlt] at hf
  · by_cases hlt : u < c.states.length
    · exact (hstates u hlt hu).2 a ha
    · simp [hnone u hlt] at ha
  · simp [(hsucc u e he).2] at ht

/-- no reachable state has more edges than `tag_edge` has numbers -/
def Narrow (m : AbstractCfg) : Prop := ∀ u ∈ m.Reached, (m.getSuccessors u).length ≤ 256

theorem narrow_of_edges (h : ∀ es ∈ m.edges, es.length ≤ 256) : m.Narrow := by
  intro u _
  rw [getSuccessors, List.getD_eq_getElem?_getD]
  cases hes : m.edges[u]? with
  | none => simp
  | some es => exact h es (List.mem_of_getElem? hes)

/-! ## One edge -/

/-- the first edge with the tag of an edge is the edge itself -/
theorem branch_of_narrow (hm : m.Framed) (h : c.minimise false fuel = some m) (hn : m.Narrow) {u : ℕ}
    (hu : u ∈ m.Reached) {e : Edge} (he : e ∈ m.getSuccessors u) {t : Symbol} (ht : e.tag = some t) :
    m.branch u t = some e := by
  obtain ⟨f, hf, hmem, hft⟩ := hm.branch_of_tag (hm.reached hu) he ht
  rw [hf, tag_unique h hu (hn u hu) hmem he hft ht]

/-- from after `u` the automaton comes before the target of an edge, or over an edge without tag to where it reads its
action or accepts at once -/
theorem edge_path (hm : m.Framed) (h : c.minimise false fuel = some m) (hn : m.Narrow) {u : ℕ}
    (hu : u ∈ m.Reached) {e : Edge} (he : e ∈ m.getSuccessors u) :
    (∃ r, m.threadAutomaton.Path (m.after u) r e.dst ∧ untagged (Automaton.word r) = []) ∨
      m.after u = -u ∧ e.tag = none := by
  have hu0 := hm.reached hu
  by_cases hchoice : u = 1 ∨ (m.getSuccessors u).length ≠ 1
  · rw [after_of_choice hchoice]
    cases ht : e.tag with
    | none => exact .inr ⟨rfl, rfl⟩
    | some t =>
      left
      have hstep : m.threadAutomaton.Step ⟨-u, t, e.dst⟩ :=
        (step_after hm hu0 (minimise_targets h hu).1).2 (.inl ⟨e, branch_of_narrow hm h hn hu he ht, ht, rfl⟩)
      refine ⟨[⟨-u, t, e.dst⟩], .single hstep, ?_⟩
      simp [untagged, hm.operation_tag hu0 he ht]
  · left
    obtain ⟨hu1, hlen⟩ := not_or.1 hchoice
    rcases m.afterAction_cases u with ⟨f, hsucc, hpos⟩ | ⟨hne, -⟩
    · obtain rfl : e = f := by simpa [hsucc] using he
      rw [after, if_neg hu1, hpos]
      exact ⟨[], .nil _, rfl⟩
    · exact absurd (not_not.1 hlen) hne

/-- the action of the target -/
theorem action_path (hm : m.Framed) (h : c.minimise false fuel = some m) (hn : m.Narrow) {u : ℕ}
    (hu : u ∈ m.Reached) {e : Edge} (he : e ∈ m.getSuccessors u) {a : Symbol}
    (ha : (m.getState e.dst).action = some a) :
    ∃ r, m.threadAutomaton.Path (m.after u) r (m.after e.dst) ∧ untagged (Automaton.word r) = [a] := by
  have hafter : m.after e.dst = m.afterAction e.dst := by rw [after, if_neg (hm.target_ne_one h hu he)]
  have hop : (a.operation != .tag) = true := by
    simpa using (hm.own _ (hm.target u (hm.reached hu) e he) a ha).2
  rcases edge_path hm h hn hu he with ⟨r, hp, hw⟩ | ⟨hpos, ht⟩
  · have hact : m.threadAutomaton.Step ⟨e.dst, a, m.after e.dst⟩ := step_before.2 ⟨ha, hafter⟩
    refine ⟨r ++ [⟨e.dst, a, m.after e.dst⟩], hp.append (.single hact), ?_⟩
    rw [Automaton.word_append, untagged_append, hw]
    simp [untagged, hop]
  · have hstep : m.threadAutomaton.Step ⟨-u, a, m.after e.dst⟩ :=
      (step_after hm (hm.reached hu) (minimise_targets h hu).1).2 (.inr ⟨e, he, ht, ha, hafter⟩)
    rw [hpos]
    refine ⟨[⟨-u, a, m.after e.dst⟩], .single hstep, ?_⟩
    simp [untagged, hop]

/-- a final target -/
theorem final_path (hm : m.Framed) (h : c.minimise false fuel = some m) (hn : m.Narrow) {u : ℕ}
    (hu : u ∈ m.Reached) {e : Edge} (he : e ∈ m.getSuccessors u) (hf : (m.getState e.dst).final = true) :
    ∃ r q, m.threadAutomaton.Path (m.after u) r q ∧ untagged (Automaton.word r) = [] ∧ m.intIsFinalState q = true := by
  rcases edge_path hm h hn hu he with ⟨r, hp, hw⟩ | ⟨hpos, ht⟩
  · exact ⟨r, _, hp, hw, (intIsFinalState_before m e.dst).trans hf⟩
  · exact ⟨[], _, .nil _, rfl, hpos ▸ (intIsFinalState_after m (hm.reached hu)).2 ⟨e, he, ht, hf⟩⟩

/-! ## Walks -/

/-- a state where the automaton can be: reachable, and the first one or one with an action -/
structure Anchor (c m : AbstractCfg) (u : ℕ) : Prop where
  reached : u ∈ m.Reached
  kept : u = 1 ∨ (c.getState u).action.isSome = true

/-- the automaton stands after `u`, the last state with an action that the thread has executed; the thread is at `x`,
whose action it has executed when `done` -/
def Tracks (c m : AbstractCfg) (x : ℕ) (done : Bool) (q : ℤ) : Prop :=
  ∃ u, Anchor c m u ∧ q = m.after u ∧
    if done then x = u ∨ (c.getState x).action = none ∧ ∃ ds, Link c.HasEdge (c.kept false) u ds x
    else x = 1 ∧ u = 1 ∨ ∃ ds, Link c.HasEdge (c.kept false) u ds x

theorem tracks_start (c m : AbstractCfg) : Tracks c m 1 false (-1) :=
  ⟨1, ⟨.refl, .inl rfl⟩, by simp [after], .inl ⟨rfl, rfl⟩⟩

/-- a linked state that is kept is the target of an edge -/
theorem Anchor.edge (h : c.minimise false fuel = some m) {u x : ℕ} (hu : Anchor c m u) {ds : List ℕ}
    (hl : Link c.HasEdge (c.kept false) u ds x) (hk : c.kept false x = true) : ∃ e ∈ m.getSuccessors u, e.dst = x := by
  obtain ⟨c1, c2, -, -, hedge, -, hvisited⟩ := minimise_loops h
  exact (hedge u x).2 ((hvisited u hu.reached).complete ds x hl hk)

/-- the thread leaves a state -/
theorem Tracks.move (hc : c.Framed) {x v : ℕ} {q : ℤ} (ht : Tracks c m x true q) (hx : x ≠ noState)
    (he : c.HasEdge x v) : Tracks c m v false q := by
  obtain ⟨u, hu, hq, hat⟩ := ht
  refine ⟨u, hu, hq, .inr ?_⟩
  rcases (by simpa using hat : x = u ∨ (c.getState x).action = none ∧
    ∃ ds, Link c.HasEdge (c.kept false) u ds x) with rfl | ⟨hnone, ds, hl⟩
  · exact ⟨[], link_nil.2 he⟩
  · have hfinal : (c.getState x).final = false := by
      by_contra hf
      obtain ⟨e, hmem, -⟩ := he
      simp [(hc.exit x hx (by simpa using hf)).2] at hmem
    have hk : c.kept false x = false := by simp [AbstractCfg.kept, hnone, hfinal]
    exact ⟨ds ++ [x], link_snoc.2 ⟨hl, hk, he⟩⟩

/-- the thread passes a state without action -/
theorem Tracks.skip {x : ℕ} {q : ℤ} (ht : Tracks c m x false q) (hnone : (c.getState x).action = none) :
    Tracks c m x true q := by
  obtain ⟨u, hu, hq, hat⟩ := ht
  refine ⟨u, hu, hq, ?_⟩
  rcases (by simpa using hat : x = 1 ∧ u = 1 ∨ ∃ ds, Link c.HasEdge (c.kept false) u ds x) with ⟨rfl, rfl⟩ | hl
  · exact .inl rfl
  · exact .inr ⟨hnone, hl⟩

/-- **The thread executes an action.** -/
theorem Tracks.execute (hc : c.Framed) (h : c.minimise false fuel = some m) (hn : m.Narrow) {x : ℕ} {q : ℤ}
    (ht : Tracks c m x false q) {a : Symbol} (ha : (c.getState x).action = some a) :
    ∃ r q', m.threadAutomaton.Path q r q' ∧ untagged (Automaton.word r) = [a] ∧ Tracks c m x true q' := by
  obtain ⟨u, hu, rfl, hat⟩ := ht
  have hm := hc.minimise h
  rcases (by simpa using hat : x = 1 ∧ u = 1 ∨ ∃ ds, Link c.HasEdge (c.kept false) u ds x) with ⟨rfl, rfl⟩ | ⟨ds, hl⟩
  · simp [hc.start.1] at ha
  · obtain ⟨e, he, rfl⟩ := hu.edge h hl (by simp [AbstractCfg.kept, ha])
    obtain ⟨r, hp, hw⟩ := action_path hm h hn hu.reached he ((minimise_fields h e.dst).1.trans ha)
    refine ⟨r, _, hp, hw, e.dst, ⟨Reached.edge hu.reached he, .inr (by simp [ha])⟩, rfl, ?_⟩
    exact .inl rfl

/-- **The thread has come to its end.** -/
theorem Tracks.finish (hc : c.Framed) (h : c.minimise false fuel = some m) (hn : m.Narrow) {x : ℕ} {q : ℤ}
    (ht : Tracks c m x true q) (hx : x ≠ noState) (hf : (c.getState x).final = true) :
    ∃ r q', m.threadAutomaton.Path q r q' ∧ untagged (Automaton.word r) = [] ∧ m.intIsFinalState q' = true := by
  obtain ⟨u, hu, rfl, hat⟩ := ht
  have hm := hc.minimise h
  have hnone := (hc.exit x hx hf).1
  rcases (by simpa using hat : x = u ∨ (c.getState x).action = none ∧
    ∃ ds, Link c.HasEdge (c.kept false) u ds x) with rfl | ⟨-, ds, hl⟩
  · rcases hu.kept with rfl | hact
    · simp [hc.start.2] at hf
    · simp [hnone] at hact
  · obtain ⟨e, he, rfl⟩ := hu.edge h hl (by simp [AbstractCfg.kept, hf])
    exact final_path hm h hn hu.reached he ((minimise_fields h e.dst).2.trans hf)

end AbstractCfg

end Liss
