/-
`compact` renumbers the active states, those that are reached from state 1 over edges that are no back edges.

- `active_exact`, `active_total`: the loop over the frontier ends, with exactly these states;
- `compactShift_spec`: the loop that moves them ahead puts the k-th active state at place k;
- `compact_spec`: so the new CFG is the old one on the active states, each renumbered by its place among them.
-/
import Liss.Cfg.Constructed
import Liss.Cfg.Distances

namespace Liss

namespace AbstractCfg

variable {c k : AbstractCfg}

/-! ## The active states -/

/-- reached over edges that are no back edges -/
def Active (c : AbstractCfg) (id : ℕ) : Prop := Relation.ReflTransGen c.UnmarkedEdge 1 id

theorem Active.reachable {id : ℕ} (h : c.Active id) : Relation.ReflTransGen c.HasEdge 1 id :=
  Relation.ReflTransGen.mono (fun _ _ ⟨e, he, _, hd⟩ => ⟨e, he, hd⟩) _ _ h

theorem Ranged.active (h : c.Ranged) (hstart : 1 < c.states.length) {id : ℕ} (ha : c.Active id) :
    id ≠ noState ∧ id < c.states.length := by
  induction ha with
  | refl => exact ⟨by decide, hstart⟩
  | tail _ he _ =>
    obtain ⟨e, he, -, rfl⟩ := he
    exact h.target _ e he

theorem mem_activeStep {next v : ℕ} : v ∈ ((c.getSuccessors next).filter fun e => !e.backEdge).map Edge.dst ↔
    c.UnmarkedEdge next v := by
  simp only [List.mem_map, List.mem_filter, Bool.not_eq_true', UnmarkedEdge, and_assoc]

/-- the flags and the frontier -/
structure ActiveInv (c : AbstractCfg) (active : List Bool) (q : List ℕ) : Prop where
  length : active.length = c.states.length
  sound : ∀ id, active.getD id false = true → c.Active id
  queued : ∀ id ∈ q, c.Active id
  closed : ∀ id, active.getD id false = true → ∀ v, c.UnmarkedEdge id v → active.getD v false = true ∨ v ∈ q
  start : active.getD 1 false = true ∨ 1 ∈ q

theorem getD_set_true {l : List Bool} {i : ℕ} (hi : i < l.length) (j : ℕ) (b : Bool) :
    (l.set i b).getD j false = if i = j then b else l.getD j false := by
  simp only [List.getD_eq_getElem?_getD, List.getElem?_set]
  by_cases hij : i = j
  · subst hij
    simp [hi]
  · simp [hij]

theorem activeInv_step (h : c.Ranged) (hstart : 1 < c.states.length) {active active' : List Bool} {next : ℕ}
    {q new : List ℕ} (hi : ActiveInv c active (next :: q)) (hs : c.activeStep active next = some (active', new)) :
    ActiveInv c active' (q ++ new) := by
  simp only [activeStep, Option.some.injEq, Prod.mk.injEq] at hs
  obtain ⟨rfl, rfl⟩ := hs
  have hnext := hi.queued next List.mem_cons_self
  have hlt : next < active.length := by
    rw [hi.length]
    exact (h.active hstart hnext).2
  have hget : ∀ id, (active.set next true).getD id false = true ↔ id = next ∨ active.getD id false = true := by
    intro id
    rw [getD_set_true hlt]
    by_cases hid : next = id
    · simp [hid]
    · simp [hid, Ne.symm hid]
  have hmove : ∀ v, active.getD v false = true ∨ v ∈ next :: q →
      (active.set next true).getD v false = true ∨ v ∈ q ++ ((c.getSuccessors next).filter fun e => !e.backEdge).map
        Edge.dst := by
    intro v hv
    rw [hget]
    rcases hv with hv | hv
    · exact Or.inl (Or.inr hv)
    · rcases List.mem_cons.1 hv with rfl | hv
      · exact Or.inl (Or.inl rfl)
      · exact Or.inr (List.mem_append_left _ hv)
  refine ⟨by rw [List.length_set, hi.length], fun id hid => ?_, fun id hid => ?_, fun id hid v hv => ?_,
    hmove 1 hi.start⟩
  · rcases (hget id).1 hid with rfl | hid
    · exact hnext
    · exact hi.sound id hid
  · rcases List.mem_append.1 hid with hid | hid
    · exact hi.queued id (List.mem_cons_of_mem _ hid)
    · exact hnext.tail (mem_activeStep.1 hid)
  · rcases (hget id).1 hid with rfl | hid
    · exact Or.inr (List.mem_append_right _ (mem_activeStep.2 hv))
    · exact hmove v (hi.closed id hid v hv)

theorem activeInv_init (c : AbstractCfg) : ActiveInv c (List.replicate c.states.length false) [1] := by
  refine ⟨List.length_replicate, fun id hid => ?_, by simp [Active, Relation.ReflTransGen.refl], fun id hid => ?_, by simp⟩
  · simp at hid
  · simp at hid

/-- **The flags are those of the active states.** -/
theorem active_exact (h : c.Ranged) (hstart : 1 < c.states.length) {fuel : ℕ} {active : List Bool}
    (hrun : Worklist.run c.activeStep fuel (List.replicate c.states.length false) [1] = some active) :
    active.length = c.states.length ∧ ∀ id, active.getD id false = true ↔ c.Active id := by
  have hi : ActiveInv c active [] :=
    Worklist.run_inv (ActiveInv c) (fun _ _ _ _ _ hi hs => activeInv_step h hstart hi hs) (activeInv_init c) hrun
  refine ⟨hi.length, fun id => ⟨hi.sound id, fun ha => ?_⟩⟩
  induction ha with
  | refl => simpa using hi.start
  | tail _ hv ih => simpa using hi.closed _ ih _ hv

/-- the frontier empties when a bounded number grows along the edges that are no back edges -/
theorem active_total {rank : ℕ → ℕ} {bound : ℕ} (hrank : ∀ u v, c.Active u → c.UnmarkedEdge u v → rank u < rank v)
    (hbound : ∀ u, c.Active u → rank u ≤ bound) :
    ∃ N, ∀ fuel, N ≤ fuel →
      ∃ active, Worklist.run c.activeStep fuel (List.replicate c.states.length false) [1] = some active := by
  let k := c.targets.length
  let w : ℕ → ℕ := fun u => Worklist.depthWeight k (bound + 1) (rank u)
  refine ⟨w 1 + 1, fun fuel hf => ?_⟩
  refine Worklist.run_total (fun _ q => ∀ id ∈ q, c.Active id) (fun _ q => Worklist.weight w q) ?_
    (by simp [Active, Relation.ReflTransGen.refl]) (by simp only [Worklist.weight_cons, Worklist.weight_nil]; omega)
  intro active next q hq
  have hnext := hq next List.mem_cons_self
  refine ⟨_, _, rfl, fun id hid => ?_, ?_⟩
  · rcases List.mem_append.1 hid with hid | hid
    · exact hq id (List.mem_cons_of_mem _ hid)
    · exact hnext.tail (mem_activeStep.1 hid)
  · have hlen : (((c.getSuccessors next).filter fun e => !e.backEdge).map Edge.dst).length ≤ k := by
      rw [List.length_map]
      exact (List.length_filter_le _ _).trans (length_getSuccessors_le c next)
    have hw : ∀ v ∈ ((c.getSuccessors next).filter fun e => !e.backEdge).map Edge.dst,
        w v ≤ Worklist.depthWeight k (bound + 1) (rank next + 1) := by
      intro v hv
      have hlt := hrank next v hnext (mem_activeStep.1 hv)
      exact Nat.pow_le_pow_right (Nat.succ_pos k) (by omega)
    exact Worklist.weight_lt hlen hw (Worklist.mul_depthWeight_lt (Nat.lt_succ_of_le (hbound next hnext)))

/-! ## Moving ahead -/

/-- the place of `id` among the active states from number `i` on -/
def place (i : ℕ) (actives : List ℕ) (id : ℕ) : ℕ := actives.idxOf id + i

/-- a state that is put at place `i` -/
def movedState (c : AbstractCfg) (id i : ℕ) : State := if id = i then c.getState id else (c.getState id).setId i

/-- the active states from number `i` on, in order, are `actives`; they have not been touched -/
structure ShiftInv (c : AbstractCfg) (i : ℕ) (actives : List ℕ) (st : CompactState) : Prop where
  sizes : st.cfg.states.length = c.states.length ∧ st.cfg.edges.length = c.states.length ∧
    st.active.length = c.states.length ∧ st.mapping.length = c.states.length
  ascending : actives.Pairwise (· < ·)
  flags : ∀ id, i ≤ id → (st.active.getD id false = true ↔ id ∈ actives)
  range : ∀ id ∈ actives, i ≤ id ∧ id < c.states.length

/-- what the loop makes of the places from `i` on -/
structure Shifted (i : ℕ) (actives : List ℕ) (st st' : CompactState) : Prop where
  last : st'.lastActive = if actives = [] then st.lastActive else i + actives.length - 1
  state : ∀ n id, actives[n]? = some id → st'.cfg.getState (i + n) = st.cfg.movedState id (i + n)
  edges : ∀ n id, actives[n]? = some id → st'.cfg.getSuccessors (i + n) = st.cfg.getSuccessors id
  below : ∀ j < i, st'.cfg.getState j = st.cfg.getState j ∧ st'.cfg.getSuccessors j = st.cfg.getSuccessors j
  mapping : ∀ id, st'.mapping.getD id noState =
    if id ∈ actives ∧ place i actives id ≠ id then place i actives id else st.mapping.getD id noState

theorem shifted_nil (i : ℕ) (st : CompactState) : Shifted i [] st st :=
  ⟨rfl, by simp, by simp, fun _ _ => ⟨rfl, rfl⟩, by simp⟩

/-- the least element of an ascending list comes first -/
theorem eq_cons_of_least {l : List ℕ} (h : l.Pairwise (· < ·)) {j : ℕ} (hj : j ∈ l) (hle : ∀ x ∈ l, j ≤ x) :
    ∃ l', l = j :: l' := by
  cases l with
  | nil => simp at hj
  | cons x l' =>
    rcases List.mem_cons.1 hj with rfl | hj
    · exact ⟨l', rfl⟩
    · have h1 := (List.pairwise_cons.1 h).1 j hj
      have h2 := hle x List.mem_cons_self
      omega

/-- an active state that stays at its place -/
theorem Shifted.stay {i : ℕ} {actives : List ℕ} {st st' : CompactState}
    (hasc : (i :: actives).Pairwise (· < ·)) (h : Shifted (i + 1) actives { st with lastActive := i } st') :
    Shifted i (i :: actives) st st' := by
  have hnot : i ∉ actives := fun hi => lt_irrefl i ((List.pairwise_cons.1 hasc).1 i hi)
  refine ⟨?_, fun n id hn => ?_, fun n id hn => ?_, fun j hj => h.below j (by omega), fun id => ?_⟩
  · rw [h.last, if_neg (List.cons_ne_nil _ _)]
    cases actives with
    | nil => rfl
    | cons x l => simp only [reduceCtorEq, if_false, List.length_cons]; omega
  · cases n with
    | zero =>
      obtain rfl : i = id := by simpa using hn
      rw [Nat.add_zero, (h.below i (by omega)).1, movedState, if_pos rfl]
    | succ n =>
      have := h.state n id (by simpa using hn)
      rwa [show i + 1 + n = i + (n + 1) by omega] at this
  · cases n with
    | zero =>
      obtain rfl : i = id := by simpa using hn
      rw [Nat.add_zero, (h.below i (by omega)).2]
    | succ n =>
      have := h.edges n id (by simpa using hn)
      rwa [show i + 1 + n = i + (n + 1) by omega] at this
  · rw [h.mapping]
    by_cases hid : id = i
    · subst hid
      simp [hnot, place]
    · have hplace : place i (i :: actives) id = place (i + 1) actives id := by
        rw [place, place, List.idxOf_cons_ne _ (Ne.symm hid)]
        omega
      rw [hplace]
      simp [hid]

/-- the state `j` is moved ahead to place `i` -/
def moveAhead (st : CompactState) (i j : ℕ) : CompactState :=
  { cfg := ((st.cfg.setEdges i (st.cfg.getSuccessors j)).setEdges j []).modifyState i fun _ => (st.cfg.getState j).setId i
    active := st.active.set j false
    mapping := st.mapping.set j i
    lastActive := i }

theorem getState_moveAhead {st : CompactState} {i j : ℕ} (hi : i < st.cfg.states.length) (id : ℕ) :
    (moveAhead st i j).cfg.getState id = if i = id then (st.cfg.getState j).setId i else st.cfg.getState id :=
  @getState_modifyState ((st.cfg.setEdges i (st.cfg.getSuccessors j)).setEdges j []) i hi _ id

theorem getSuccessors_moveAhead {st : CompactState} {i j : ℕ} (hi : i < st.cfg.edges.length)
    (hj : j < st.cfg.edges.length) (hij : i ≠ j) (id : ℕ) : (moveAhead st i j).cfg.getSuccessors id =
      if i = id then st.cfg.getSuccessors j else if j = id then [] else st.cfg.getSuccessors id := by
  have hstep : (moveAhead st i j).cfg.getSuccessors id =
      ((st.cfg.setEdges i (st.cfg.getSuccessors j)).setEdges j []).getSuccessors id := rfl
  rw [hstep, getSuccessors_setEdges, getSuccessors_setEdges, length_edges_setEdges]
  by_cases h1 : i = id
  · subst h1
    simp [hi, Ne.symm hij]
  · by_cases h2 : j = id
    · subst h2
      simp [h1, hj]
    · simp [h1, h2]

/-- an active state that is moved -/
theorem Shifted.move {i j : ℕ} {actives : List ℕ} {st st' : CompactState} (hi : i < st.cfg.states.length)
    (hi' : i < st.cfg.edges.length) (hj : j < st.cfg.edges.length) (hjm : j < st.mapping.length) (hij : i < j)
    (hasc : (j :: actives).Pairwise (· < ·)) (h : Shifted (i + 1) actives (moveAhead st i j) st') :
    Shifted i (j :: actives) st st' := by
  have hgt := (List.pairwise_cons.1 hasc).1
  have hne : ∀ {n id : ℕ}, actives[n]? = some id → i ≠ id ∧ j ≠ id := by
    intro n id hn
    have := hgt id (List.mem_of_getElem? hn)
    omega
  refine ⟨?_, fun n id hn => ?_, fun n id hn => ?_, fun x hx => ?_, fun id => ?_⟩
  · rw [h.last, if_neg (List.cons_ne_nil _ _)]
    cases actives with
    | nil => rfl
    | cons x l => simp only [reduceCtorEq, if_false, List.length_cons]; omega
  · cases n with
    | zero =>
      obtain rfl : j = id := by simpa using hn
      rw [Nat.add_zero, (h.below i (by omega)).1, getState_moveAhead hi, if_pos rfl, movedState, if_neg (by omega)]
    | succ n =>
      have hn' : actives[n]? = some id := by simpa using hn
      have hstate := h.state n id hn'
      rw [show i + 1 + n = i + (n + 1) by omega] at hstate
      rw [hstate]
      simp only [movedState, getState_moveAhead hi, (hne hn').1, if_false]
  · cases n with
    | zero =>
      obtain rfl : j = id := by simpa using hn
      rw [Nat.add_zero, (h.below i (by omega)).2, getSuccessors_moveAhead hi' hj (by omega), if_pos rfl]
    | succ n =>
      have hn' : actives[n]? = some id := by simpa using hn
      have hedges := h.edges n id hn'
      rw [show i + 1 + n = i + (n + 1) by omega] at hedges
      rw [hedges, getSuccessors_moveAhead hi' hj (by omega), if_neg (hne hn').1, if_neg (hne hn').2]
  · obtain ⟨h1, h2⟩ := h.below x (by omega)
    rw [h1, h2, getState_moveAhead hi, getSuccessors_moveAhead hi' hj (by omega)]
    rw [if_neg (by omega), if_neg (by omega), if_neg (by omega)]
    exact ⟨rfl, rfl⟩
  · rw [h.mapping]
    have hset : (moveAhead st i j).mapping.getD id noState = if j = id then i else st.mapping.getD id noState := by
      simp only [moveAhead, List.getD_eq_getElem?_getD, List.getElem?_set]
      by_cases hid : j = id
      · subst hid
        simp [hjm]
      · simp [hid]
    rw [hset]
    by_cases hid : id = j
    · subst hid
      have hnot : id ∉ actives := fun hm => lt_irrefl id (hgt id hm)
      have hplace : place i (id :: actives) id = i := by simp [place]
      simp [hnot, hplace, show i ≠ id by omega]
    · have hplace : place i (j :: actives) id = place (i + 1) actives id := by
        rw [place, place, List.idxOf_cons_ne _ (Ne.symm hid)]
        omega
      rw [hplace]
      simp [hid, Ne.symm hid]

/-- the invariant from the next place on, if the first active state stays -/
theorem ShiftInv.stay {i : ℕ} {actives : List ℕ} {st : CompactState} (h : ShiftInv c i (i :: actives) st) :
    ShiftInv c (i + 1) actives { st with lastActive := i } := by
  obtain ⟨hgt, hasc⟩ := List.pairwise_cons.1 h.ascending
  refine ⟨h.sizes, hasc, fun id hid => ?_, fun id hid => ?_⟩
  · rw [h.flags id (by omega), List.mem_cons, or_iff_right (by omega)]
  · have hlt := hgt id hid
    exact ⟨by omega, (h.range id (List.mem_cons_of_mem _ hid)).2⟩

/-- the invariant from the next place on, if the first active state is moved -/
theorem ShiftInv.move {i j : ℕ} {actives : List ℕ} {st : CompactState} (h : ShiftInv c i (j :: actives) st) :
    ShiftInv c (i + 1) actives (moveAhead st i j) := by
  obtain ⟨h1, h2, h3, h4⟩ := h.sizes
  obtain ⟨hgt, hasc⟩ := List.pairwise_cons.1 h.ascending
  have hj := h.range j List.mem_cons_self
  refine ⟨⟨?_, ?_, ?_, ?_⟩, hasc, fun id hid => ?_, fun id hid => ?_⟩
  · simp [moveAhead, h1]
  · simp [moveAhead, h2]
  · simp [moveAhead, h3]
  · simp [moveAhead, h4]
  · rw [show (moveAhead st i j).active = st.active.set j false from rfl, getD_set_true (by omega)]
    by_cases hid' : j = id
    · subst hid'
      have hnot : j ∉ actives := fun hm => lt_irrefl j (hgt j hm)
      simp [hnot]
    · rw [if_neg hid', h.flags id (by omega), List.mem_cons, or_iff_right (Ne.symm hid')]
  · have hlt := hgt id hid
    exact ⟨by omega, (h.range id (List.mem_cons_of_mem _ hid)).2⟩

/-- no active state is left -/
theorem ShiftInv.eq_nil {i : ℕ} {actives : List ℕ} {st : CompactState} (h : ShiftInv c i actives st)
    (hnone : ∀ id, i ≤ id → id < c.states.length → st.active.getD id false = false) : actives = [] := by
  apply List.eq_nil_iff_forall_not_mem.2
  intro id hid
  have hr := h.range id hid
  have hfalse := hnone id hr.1 hr.2
  rw [(h.flags id hr.1).2 hid] at hfalse
  simp at hfalse

/-- the first active state is the first one in the list -/
theorem ShiftInv.eq_cons {i j : ℕ} {actives : List ℕ} {st : CompactState} (h : ShiftInv c i actives st) (hij : i ≤ j)
    (hj : st.active.getD j false = true) (hbefore : ∀ x, i ≤ x → x < j → st.active.getD x false = false) :
    ∃ rest, actives = j :: rest := by
  apply eq_cons_of_least h.ascending ((h.flags j hij).1 hj)
  intro x hx
  by_contra hlt
  have hr := h.range x hx
  have hfalse := hbefore x hr.1 (by omega)
  rw [(h.flags x hr.1).2 hx] at hfalse
  simp at hfalse

/-- **The loop.** The k-th active state is put at place k. -/
theorem compactShift_spec {i : ℕ} {actives : List ℕ} {st : CompactState} (h : ShiftInv c i actives st) :
    Shifted i actives st (compactShift (List.range' i (c.states.length - i)) st) := by
  obtain ⟨n, hn⟩ : ∃ n, n = c.states.length - i := ⟨_, rfl⟩
  rw [← hn]
  induction n generalizing i actives st with
  | zero =>
    rw [h.eq_nil fun id h1 h2 => by omega]
    exact shifted_nil i st
  | succ n ih =>
    obtain ⟨h1, h2, h3, h4⟩ := h.sizes
    rw [List.range'_succ, compactShift]
    split_ifs with hact
    · -- place i is active itself
      obtain ⟨rest, rfl⟩ := h.eq_cons (Nat.le_refl i) hact fun x hx hlt => by omega
      exact Shifted.stay h.ascending (ih h.stay (by omega))
    · split
      · rename_i hnone
        have hnil := h.eq_nil fun id hle hlt => by
          simpa using List.find?_range'_eq_none.1 hnone id hle (by omega)
        rw [hnil]
        exact shifted_nil i st
      · rename_i j hfind
        obtain ⟨hj, hmem, hbefore⟩ := List.find?_range'_eq_some.1 hfind
        rw [List.mem_range'_1] at hmem
        have hij : i ≠ j := by
          rintro rfl
          exact hact hj
        obtain ⟨rest, rfl⟩ := h.eq_cons hmem.1 hj fun x hle hlt => by simpa using hbefore x hle hlt
        exact Shifted.move (by omega) (by omega) (by omega) (by omega) (by omega) h.ascending (ih h.move (by omega))

/-! ## The result -/

/-- the number of an active state afterwards; other numbers stay -/
def renumber (actives : List ℕ) (id : ℕ) : ℕ := if id ∈ actives then place 1 actives id else id

/-- an edge of the state that gets number `i` -/
def renumberEdge (actives : List ℕ) (i : ℕ) (e : Edge) : Edge :=
  { e.setId i with dst := renumber actives e.dst, inBetweeners := [] }

/-- `k` is `c` on the active states, renumbered by their places -/
structure Compacted (c : AbstractCfg) (actives : List ℕ) (k : AbstractCfg) : Prop where
  ascending : actives.Pairwise (· < ·)
  mem : ∀ id, id ∈ actives ↔ c.Active id
  length : k.states.length = actives.length + 1
  state : ∀ n id, actives[n]? = some id → k.getState (1 + n) =
    if (c.getState id).returnState = noState then c.movedState id (1 + n)
    else { c.movedState id (1 + n) with returnState := renumber actives (c.getState id).returnState }
  edges : ∀ n id, actives[n]? = some id → k.getSuccessors (1 + n) =
    (c.getSuccessors id).map (renumberEdge actives (1 + n))

theorem returnState_movedState (c : AbstractCfg) (id i : ℕ) :
    (c.movedState id i).returnState = (c.getState id).returnState := by
  unfold movedState
  split_ifs <;> rfl

theorem mapId_eq_renumber {actives mapping : List ℕ}
    (h : ∀ id, mapping.getD id noState = if id ∈ actives ∧ place 1 actives id ≠ id then place 1 actives id else noState)
    (id : ℕ) : mapId mapping id = renumber actives id := by
  rw [mapId, renumber, h]
  have hpos : place 1 actives id ≠ noState := Nat.succ_ne_zero _
  by_cases hid : id ∈ actives
  · by_cases hp : place 1 actives id = id
    · simp [hid, hp]
    · simp [hid, hp, hpos]
  · simp [hid]

/-- the active states in order -/
def activeList (c : AbstractCfg) (active : List Bool) : List ℕ :=
  (List.range' 1 c.noStates).filter fun id => active.getD id false

/-- before the loop -/
def shiftStart (c : AbstractCfg) (active : List Bool) : CompactState :=
  { cfg := c, active := active, mapping := List.replicate c.states.length noState, lastActive := 0 }

section

variable {active : List Bool}

theorem mem_activeList (h : c.Ranged) (hstart : 1 < c.states.length)
    (hflags : ∀ id, active.getD id false = true ↔ c.Active id) (id : ℕ) : id ∈ c.activeList active ↔ c.Active id := by
  rw [activeList, List.mem_filter, hflags, List.mem_range'_1, and_iff_right_iff_imp, noStates]
  intro ha
  have hbound := h.active hstart ha
  simp only [noState] at hbound
  omega

theorem length_activeList (hstart : 1 < c.states.length) :
    (c.activeList active).length + 1 ≤ c.states.length := by
  have hle := List.length_filter_le (fun id => active.getD id false) (List.range' 1 c.noStates)
  rw [List.length_range', noStates] at hle
  have hle' : (c.activeList active).length ≤ c.states.length - 1 := hle
  omega

theorem shiftInv_start (h : c.Ranged) (hstart : 1 < c.states.length) (hlen : active.length = c.states.length)
    (hflags : ∀ id, active.getD id false = true ↔ c.Active id) :
    ShiftInv c 1 (c.activeList active) (c.shiftStart active) := by
  have hmem := mem_activeList h hstart hflags
  refine ⟨⟨rfl, h.sized, hlen, List.length_replicate⟩, List.Pairwise.filter _ List.pairwise_lt_range', fun id _ => ?_,
    fun id hid => ?_⟩
  · rw [hmem]
    exact hflags id
  · have hbound := h.active hstart ((hmem id).1 hid)
    simp only [noState] at hbound
    omega

/-- the numbers that the loop enters into the mapping -/
theorem Shifted.mapId {actives : List ℕ} {st : CompactState} (h : Shifted 1 actives (c.shiftStart active) st) (id : ℕ) :
    mapId st.mapping id = renumber actives id := by
  refine mapId_eq_renumber (fun id => ?_) id
  have hm := h.mapping id
  have hnone : (c.shiftStart active).mapping.getD id noState = noState := by simp [shiftStart, noState]
  rwa [hnone] at hm

end

/-- **`compact`.** -/
theorem compact_spec (h : c.Ranged) (hstart : 1 < c.states.length) {fuel : ℕ} (hk : c.compact fuel = some k) :
    ∃ actives, Compacted c actives k := by
  unfold compact at hk
  simp only [Option.bind_eq_bind, Option.bind_eq_some_iff, Option.pure_def, Option.some.injEq] at hk
  obtain ⟨active, hrun, rfl⟩ := hk
  rw [show ({ cfg := c, active := active, mapping := List.replicate c.states.length noState, lastActive := 0 } :
    CompactState) = c.shiftStart active from rfl]
  obtain ⟨hlen, hflags⟩ := active_exact h hstart hrun
  have hmem := mem_activeList h hstart hflags
  have hinv := shiftInv_start h hstart hlen hflags
  have hshift : Shifted 1 (c.activeList active) (c.shiftStart active)
      (compactShift (List.range' 1 c.noStates) (c.shiftStart active)) := compactShift_spec hinv
  have hsize := sameSize_compactShift (List.range' 1 c.noStates) (c.shiftStart active)
  have hmap := hshift.mapId
  have hone : c.activeList active ≠ [] := List.ne_nil_of_mem ((hmem 1).2 .refl)
  have hle : (c.activeList active).length + 1 ≤ c.states.length := length_activeList hstart
  set actives := c.activeList active
  set st := compactShift (List.range' 1 c.noStates) (c.shiftStart active)
  have hlast : st.lastActive = actives.length := by
    have hlast := hshift.last
    rw [if_neg hone] at hlast
    exact hlast.trans (by omega)
  have hplace : ∀ {n id : ℕ}, actives[n]? = some id → 1 + n < actives.length + 1 := by
    intro n id hn
    have := (List.getElem?_eq_some_iff.1 hn).1
    omega
  refine ⟨actives, hinv.ascending, hmem, ?_, fun n id hn => ?_, fun n id hn => ?_⟩
  · rw [List.length_mapIdx, List.length_take, hlast, hsize.states]
    exact Nat.min_eq_left hle
  · have hs : st.cfg.getState (1 + n) = c.movedState id (1 + n) := hshift.state n id hn
    have hlt := hplace hn
    have hget : st.cfg.states[1 + n]? = some (c.movedState id (1 + n)) := by
      have hlt' : 1 + n < st.cfg.states.length := by
        rw [hsize.states]
        exact lt_of_lt_of_le hlt hle
      rw [List.getElem?_eq_getElem hlt', ← hs, getState, List.getD_eq_getElem _ _ hlt']
    simp only [getState, List.getD_eq_getElem?_getD, List.getElem?_mapIdx, List.getElem?_take, hlast, hlt, if_true, hget,
      Option.map_some, Option.getD_some, returnState_movedState, hmap]
    simp only [Nat.add_eq_zero_iff, Nat.one_ne_zero, false_and, false_or]
  · have hs : st.cfg.getSuccessors (1 + n) = c.getSuccessors id := hshift.edges n id hn
    have hlt := hplace hn
    have hlt' : 1 + n < st.cfg.edges.length := by
      rw [hsize.edges]
      have := h.sized
      show 1 + n < c.edges.length
      omega
    have hget : st.cfg.edges[1 + n]? = some (c.getSuccessors id) := by
      rw [List.getElem?_eq_getElem hlt']
      rw [getSuccessors, List.getD_eq_getElem _ _ hlt'] at hs
      rw [hs]
    simp only [getSuccessors, List.getD_eq_getElem?_getD, List.getElem?_mapIdx, List.getElem?_take, hlast, hlt, if_true,
      hget, Option.map_some, Option.getD_some, hmap]
    rw [if_neg (by omega)]
    rfl

end AbstractCfg

end Liss
