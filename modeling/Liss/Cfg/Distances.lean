/-
The second loop of `minimise`: the distances of the states and the marks of the back edges.

Each item of the queue is a simple path from state 1. An edge that leads back onto the path is marked; the target of
any other edge gets a greater distance than the state, and the longer path is put into the queue. A state whose distance
is raised later is in the queue again.

- `distInv_step`: one item of the queue;
- `minimise_distances`: afterwards the marked edges of a reachable state are those that lead back onto some simple path
  to it, and the others lead to a greater distance, so that they form no cycle.
-/
import Liss.Lib.RootPaths
import Liss.Cfg.Visited

namespace Liss

namespace AbstractCfg

variable {c d d' : AbstractCfg}

def distance (c : AbstractCfg) (id : ℕ) : ℤ := (c.getState id).distance

/-! ## One item of the queue -/

/-- the mark that the visit of a state at the end of the path `path` gives to an edge -/
def markBack (path : List ℕ) (e : Edge) : Edge := if path.contains e.dst then { e with backEdge := true } else e

theorem getState_modifyState {id : ℕ} (hid : id < c.states.length) (f : State → State) (v : ℕ) :
    (c.modifyState id f).getState v = if id = v then f (c.getState v) else c.getState v := by
  simp only [getState, modifyState, List.getD_eq_getElem?_getD, List.getElem?_modify]
  by_cases hv : id = v
  · subst hv
    simp [List.getElem?_eq_getElem hid]
  · simp [hv]

/-- the distances after the targets of some edges have been raised to `x` -/
theorem distance_raise (l : List Edge) (x : ℤ) (hl : ∀ e ∈ l, e.dst < c.states.length) (v : ℕ) :
    (l.foldl (fun c e => c.modifyState e.dst fun s => { s with distance := max s.distance x }) c).distance v =
      if v ∈ l.map Edge.dst then max (c.distance v) x else c.distance v := by
  induction l generalizing c with
  | nil => simp
  | cons e l ih =>
    have he := hl e List.mem_cons_self
    rw [List.foldl_cons, ih (by simpa using fun e' he' => hl e' (List.mem_cons_of_mem _ he'))]
    simp only [distance, getState_modifyState he, List.map_cons, List.mem_cons]
    by_cases hv : e.dst = v
    · subst hv
      simp
    · simp [hv, Ne.symm hv]

/-- what one item of the queue does: it marks the edges of its state, raises the targets ahead, and puts the longer
paths into the queue -/
structure Stepped (d d' : AbstractCfg) (item : ℕ × List ℕ) (new : List (ℕ × List ℕ)) : Prop where
  succ : ∀ u, d'.getSuccessors u =
    if u = item.1 then (d.getSuccessors u).map (markBack (item.1 :: item.2)) else d.getSuccessors u
  dist : ∀ v, d'.distance v = if d.HasEdge item.1 v ∧ v ∉ item.1 :: item.2 then
    max (d.distance v) (d.distance item.1 + 1) else d.distance v
  new : ∀ x, x ∈ new ↔ ∃ v, d.HasEdge item.1 v ∧ v ∉ item.1 :: item.2 ∧ x = (v, item.1 :: item.2)
  size : d'.states.length = d.states.length

theorem stepped_distanceStep {item : ℕ × List ℕ} {new : List (ℕ × List ℕ)}
    (hrange : ∀ e ∈ d.getSuccessors item.1, e.dst < d.states.length) (h : d.distanceStep item = some (d', new)) :
    Stepped d d' item new := by
  simp only [distanceStep, Option.some.injEq, Prod.mk.injEq] at h
  obtain ⟨rfl, rfl⟩ := h
  set fwd := (d.getSuccessors item.1).filter fun e => !(item.1 :: item.2).contains e.dst with hfwd
  have hmem : ∀ v, v ∈ fwd.map Edge.dst ↔ d.HasEdge item.1 v ∧ v ∉ item.1 :: item.2 := by
    intro v
    simp only [hfwd, List.mem_map, List.mem_filter, HasEdge, Bool.not_eq_true', List.contains_eq_mem,
      decide_eq_false_iff_not]
    constructor
    · intro h
      obtain ⟨e, ⟨he, hn⟩, hd⟩ := h
      exact ⟨⟨e, he, hd⟩, hd ▸ hn⟩
    · intro h
      obtain ⟨⟨e, he, hd⟩, hn⟩ := h
      exact ⟨e, ⟨he, hd ▸ hn⟩, hd⟩
  have hedges := edges_raise fwd ((d.getState item.1).distance + 1) d
  refine ⟨fun u => ?_, fun v => ?_, fun x => ?_, ?_⟩
  · rw [getSuccessors_setEdges, hedges]
    have hget : ∀ u, (fwd.foldl (fun c e => c.modifyState e.dst fun s =>
        { s with distance := max s.distance ((d.getState item.1).distance + 1) }) d).getSuccessors u =
          d.getSuccessors u := by
      intro u
      rw [getSuccessors, hedges, getSuccessors]
    by_cases hu : u = item.1
    · subst hu
      by_cases hlt : item.1 < d.edges.length
      · rw [if_pos ⟨rfl, hlt⟩, if_pos rfl]
        rfl
      · have hnil : d.getSuccessors item.1 = [] := by
          rw [getSuccessors, List.getD_eq_default _ _ (by omega)]
        rw [if_neg fun hh => hlt hh.2, if_pos rfl, hget, hnil]
        rfl
    · rw [if_neg fun hh => hu hh.1.symm, if_neg hu, hget]
  · have hr := distance_raise (c := d) fwd ((d.getState item.1).distance + 1)
      (fun e he => hrange e (List.mem_of_mem_filter he)) v
    simp only [hmem] at hr
    exact hr
  · simp only [List.mem_map]
    constructor
    · intro h
      obtain ⟨e, he, hx⟩ := h
      obtain ⟨h1, h2⟩ := (hmem e.dst).1 (List.mem_map_of_mem he)
      exact ⟨e.dst, h1, h2, hx.symm⟩
    · intro h
      obtain ⟨v, h1, h2, hx⟩ := h
      obtain ⟨e, he, rfl⟩ := List.mem_map.1 ((hmem v).2 ⟨h1, h2⟩)
      exact ⟨e, he, hx.symm⟩
  · exact (sameSize_raise fwd _ d).states

section

variable {item : ℕ × List ℕ} {new : List (ℕ × List ℕ)}

theorem Stepped.le_distance (hs : Stepped d d' item new) (v : ℕ) : d.distance v ≤ d'.distance v := by
  rw [hs.dist v]
  split_ifs
  · exact le_max_left _ _
  · exact le_refl _

/-- a state on the path of the item is not raised, in particular not its own -/
theorem Stepped.distance_of_mem (hs : Stepped d d' item new) {v : ℕ} (hv : v ∈ item.1 :: item.2) :
    d'.distance v = d.distance v := by
  rw [hs.dist, if_neg fun hh => hh.2 hv]

/-- an edge afterwards is one before, marked if it leads back onto the path of the item -/
theorem Stepped.origin (hs : Stepped d d' item new) {u : ℕ} {e : Edge} (he : e ∈ d'.getSuccessors u) :
    ∃ e' ∈ d.getSuccessors u, e'.dst = e.dst ∧
      (e.backEdge = true ↔ e'.backEdge = true ∨ u = item.1 ∧ e.dst ∈ item.1 :: item.2) := by
  rw [hs.succ u] at he
  split_ifs at he with hu
  · obtain ⟨e', he', rfl⟩ := List.mem_map.1 he
    refine ⟨e', he', ?_⟩
    simp only [markBack, List.contains_eq_mem, decide_eq_true_eq]
    split_ifs with hin
    · exact ⟨rfl, by simp [hu, hin]⟩
    · exact ⟨rfl, by simp [hin]⟩
  · exact ⟨e, he, rfl, by simp [hu]⟩

end

/-! ## The loop -/

/-- `u` is closer than the targets of its edges that lead forward -/
def Ordered (c d : AbstractCfg) (u : ℕ) : Prop := ∀ v, Forward c.HasEdge 1 u v → d.distance u + 1 ≤ d.distance v

/-- the edges of `u` that lead back onto the path are marked -/
def Marked (d : AbstractCfg) (u : ℕ) (path : List ℕ) : Prop :=
  ∀ e ∈ d.getSuccessors u, e.dst ∈ path → e.backEdge = true

/-- an edge without its mark -/
def unmark (e : Edge) : Edge := { e with backEdge := false }

/-- the state `d` of the loop on the CFG `c` and its queue -/
structure DistInv (c d : AbstractCfg) (q : List (ℕ × List ℕ)) : Prop where
  edges : ∀ u, (d.getSuccessors u).map unmark = (c.getSuccessors u).map unmark
  size : d.states.length = c.states.length
  queued : ∀ item ∈ q, RootPath c.HasEdge 1 (item.1 :: item.2)
  onPath : ∀ u, Relation.ReflTransGen c.HasEdge 1 u → ∀ e ∈ d.getSuccessors u, e.backEdge = true →
    OnPath c.HasEdge 1 u e.dst
  done : ∀ u p, RootPath c.HasEdge 1 (u :: p) → (∃ item ∈ q, item.1 :: item.2 <:+ u :: p) ∨
    Marked d u (u :: p) ∧ ((∃ item ∈ q, item.1 = u) ∨ Ordered c d u)
  nonneg : ∀ u, 0 ≤ d.distance u
  root : d.distance 1 = 0

/-- what does not depend on the marks -/
theorem DistInv.map {β : Type*} {q : List (ℕ × List ℕ)} (h : DistInv c d q) {f : Edge → β}
    (hf : ∀ e, f (unmark e) = f e) (u : ℕ) : (d.getSuccessors u).map f = (c.getSuccessors u).map f := by
  have hmap : ∀ es : List Edge, (es.map unmark).map f = es.map f := by
    intro es
    rw [List.map_map]
    exact List.map_congr_left fun e _ => hf e
  rw [← hmap, h.edges u, hmap]

theorem DistInv.dst {q : List (ℕ × List ℕ)} (h : DistInv c d q) (u : ℕ) :
    (d.getSuccessors u).map Edge.dst = (c.getSuccessors u).map Edge.dst := h.map (fun _ => rfl) u

theorem DistInv.hasEdge {q : List (ℕ × List ℕ)} (h : DistInv c d q) {u v : ℕ} : d.HasEdge u v ↔ c.HasEdge u v := by
  rw [hasEdge_iff_dst, hasEdge_iff_dst, h.dst]

section

variable {item : ℕ × List ℕ} {q new : List (ℕ × List ℕ)}

theorem Stepped.unmark (hs : Stepped d d' item new) (u : ℕ) :
    (d'.getSuccessors u).map unmark = (d.getSuccessors u).map unmark := by
  rw [hs.succ u]
  split_ifs
  · rw [List.map_map]
    apply List.map_congr_left
    intro e _
    simp only [Function.comp_apply, markBack]
    split_ifs <;> rfl
  · rfl

/-- marks stay -/
theorem Stepped.marked (hs : Stepped d d' item new) {u : ℕ} {p : List ℕ} (hm : Marked d u p) : Marked d' u p := by
  intro e he hin
  obtain ⟨e', he', hdst, hback⟩ := hs.origin he
  exact hback.2 (.inl (hm e' he' (hdst ▸ hin)))

/-- the edges of the item's state are marked that lead back onto its path -/
theorem Stepped.marked_item (hs : Stepped d d' item new) : Marked d' item.1 (item.1 :: item.2) := by
  intro e he hin
  obtain ⟨e', -, -, hback⟩ := hs.origin he
  exact hback.2 (.inr ⟨rfl, hin⟩)

/-- the item's state is closer than its targets ahead -/
theorem Stepped.ordered_item (h : DistInv c d (item :: q)) (hs : Stepped d d' item new) : Ordered c d' item.1 := by
  have hpath := h.queued item List.mem_cons_self
  intro v hv
  have hnot : v ∉ item.1 :: item.2 := fun hm => hv.2 ⟨item.2, hpath, hm⟩
  rw [hs.distance_of_mem List.mem_cons_self, hs.dist v, if_pos ⟨h.hasEdge.2 hv.1, hnot⟩]
  exact le_max_right _ _

/-- a state that is raised is queued, and the others stay closer than their targets -/
theorem Stepped.ordered (h : DistInv c d (item :: q)) (hs : Stepped d d' item new) {u : ℕ}
    (hu : (∃ item' ∈ item :: q, item'.1 = u) ∨ Ordered c d u) :
    (∃ item' ∈ q ++ new, item'.1 = u) ∨ Ordered c d' u := by
  by_cases hself : u = item.1
  · exact .inr (hself ▸ hs.ordered_item h)
  by_cases hraised : d.HasEdge item.1 u ∧ u ∉ item.1 :: item.2
  · exact .inl ⟨_, List.mem_append_right _ ((hs.new _).2 ⟨u, hraised.1, hraised.2, rfl⟩), rfl⟩
  rcases hu with ⟨item', hi, rfl⟩ | ho
  · rcases List.mem_cons.1 hi with rfl | hi
    · exact absurd rfl hself
    · exact .inl ⟨item', List.mem_append_left _ hi, rfl⟩
  · right
    intro v hv
    calc d'.distance u + 1 = d.distance u + 1 := by rw [hs.dist u, if_neg hraised]
      _ ≤ d.distance v := ho v hv
      _ ≤ d'.distance v := hs.le_distance v

/-- a path through the item's path ends there, or goes on over a new item -/
theorem Stepped.through (h : DistInv c d (item :: q)) (hs : Stepped d d' item new) {u : ℕ} {p : List ℕ}
    (hp : RootPath c.HasEdge 1 (u :: p)) (hsuf : item.1 :: item.2 <:+ u :: p) :
    u = item.1 ∧ p = item.2 ∨ ∃ item' ∈ new, item'.1 :: item'.2 <:+ u :: p := by
  obtain ⟨l, hl⟩ := hsuf
  rcases List.eq_nil_or_concat l with rfl | ⟨l', v, rfl⟩
  · obtain ⟨h1, h2⟩ := List.cons.inj hl
    exact .inl ⟨h1.symm, h2.symm⟩
  · have hsub : v :: item.1 :: item.2 <:+ u :: p := ⟨l', by simpa using hl⟩
    have hv := hp.suffix hsub (by simp)
    cases hv with
    | step _ he hnot => exact .inr ⟨_, (hs.new _).2 ⟨v, h.hasEdge.2 he, hnot, rfl⟩, hsub⟩

/-- edges lead to states -/
theorem DistInv.range (h : DistInv c d q) {u : ℕ} (hrange : ∀ e ∈ c.getSuccessors u, e.dst < c.states.length) :
    ∀ e ∈ d.getSuccessors u, e.dst < d.states.length := by
  intro e he
  have hmem : e.dst ∈ (c.getSuccessors u).map Edge.dst := h.dst u ▸ List.mem_map_of_mem he
  obtain ⟨e', he', hd⟩ := List.mem_map.1 hmem
  rw [← hd, h.size]
  exact hrange e' he'

theorem distInv_step (hrange : ∀ u, Relation.ReflTransGen c.HasEdge 1 u → ∀ e ∈ c.getSuccessors u,
      e.dst < c.states.length) (h : DistInv c d (item :: q)) (hstep : d.distanceStep item = some (d', new)) :
    DistInv c d' (q ++ new) := by
  have hpath := h.queued item List.mem_cons_self
  have hs := stepped_distanceStep (h.range (hrange _ hpath.reach)) hstep
  refine ⟨fun u => (hs.unmark u).trans (h.edges u), hs.size.trans h.size, fun x hx => ?_, fun u hu e he hb => ?_,
    fun u p hp => ?_, fun u => (h.nonneg u).trans (hs.le_distance u), ?_⟩
  · rcases List.mem_append.1 hx with hx | hx
    · exact h.queued x (List.mem_cons_of_mem _ hx)
    · obtain ⟨v, hv, hn, rfl⟩ := (hs.new x).1 hx
      exact .step hpath (h.hasEdge.1 hv) hn
  · obtain ⟨e', he', hdst, hback⟩ := hs.origin he
    rcases hback.1 hb with hb' | ⟨rfl, hin⟩
    · exact hdst ▸ h.onPath u hu e' he' hb'
    · exact ⟨item.2, hpath, hin⟩
  · rcases h.done u p hp with ⟨item', hi, hsuf⟩ | ⟨hm, ho⟩
    · rcases List.mem_cons.1 hi with rfl | hi
      · rcases hs.through h hp hsuf with ⟨rfl, rfl⟩ | ⟨item', hi, hsuf⟩
        · exact .inr ⟨hs.marked_item, .inr (hs.ordered_item h)⟩
        · exact .inl ⟨item', List.mem_append_right _ hi, hsuf⟩
      · exact .inl ⟨item', List.mem_append_left _ hi, hsuf⟩
    · exact .inr ⟨hs.marked hm, hs.ordered h ho⟩
  · exact (hs.distance_of_mem hpath.root_mem).trans h.root

end

theorem distInv_init (hunmarked : ∀ u, Relation.ReflTransGen c.HasEdge 1 u → ∀ e ∈ c.getSuccessors u,
    e.backEdge = false) (hzero : ∀ u, c.distance u = 0) : DistInv c c [(1, [])] := by
  refine ⟨fun _ => rfl, rfl, ?_, fun u hu e he hb => ?_, fun u p hp => ?_, fun u => (hzero u).ge, hzero 1⟩
  · intro item hi
    rw [List.mem_singleton.1 hi]
    exact .root
  · rw [hunmarked u hu e he] at hb
    simp at hb
  · exact Or.inl ⟨_, List.mem_singleton_self _, hp.root_suffix⟩

/-- the loop, from a CFG without marks whose edges lead to states -/
theorem minimiseDistances_inv (hunmarked : ∀ u, Relation.ReflTransGen c.HasEdge 1 u → ∀ e ∈ c.getSuccessors u,
      e.backEdge = false)
    (hrange : ∀ u, Relation.ReflTransGen c.HasEdge 1 u → ∀ e ∈ c.getSuccessors u, e.dst < c.states.length)
    {fuel : ℕ} (h : c.minimiseDistances fuel = some d) : DistInv c d [] := by
  unfold minimiseDistances at h
  set zero : AbstractCfg := { c with states := c.states.map fun s => { s with distance := 0 } } with hz
  have hlen : zero.states.length = c.states.length := List.length_map _
  have hzero : ∀ u, zero.distance u = 0 := by
    intro u
    simp only [hz, distance, getState, List.getD_eq_getElem?_getD, List.getElem?_map]
    cases c.states[u]? <;> rfl
  have hinv : DistInv zero d [] := by
    refine Worklist.run_inv (DistInv zero) ?_ (distInv_init hunmarked hzero) h
    intro d item q d' new hi hs
    refine distInv_step (fun u hu e he => ?_) hi hs
    rw [hlen]
    exact hrange u hu e he
  exact ⟨hinv.edges, hinv.size.trans hlen, hinv.queued, hinv.onPath, hinv.done, hinv.nonneg, hinv.root⟩

/-! ## After `minimise` -/

theorem lt_length_of_kept {leaveLockables : Bool} {id : ℕ} (h : c.kept leaveLockables id = true) :
    id < c.states.length := by
  by_contra hid
  have hd : c.getState id = {} := List.getD_eq_default _ _ (by omega)
  simp [kept, hd, State.lockable] at h

/-- an edge after the cost of a back edge is set -/
def withCost (c : AbstractCfg) (u : ℕ) (e : Edge) : Edge :=
  if u ≠ 0 ∧ e.backEdge = true then { e with cost := c.distance u - c.distance e.dst + 1 } else e

@[simp] theorem dst_withCost (c : AbstractCfg) (u : ℕ) (e : Edge) : (c.withCost u e).dst = e.dst := by
  unfold withCost
  split_ifs <;> rfl

@[simp] theorem tag_withCost (c : AbstractCfg) (u : ℕ) (e : Edge) : (c.withCost u e).tag = e.tag := by
  unfold withCost
  split_ifs <;> rfl

@[simp] theorem backEdge_withCost (c : AbstractCfg) (u : ℕ) (e : Edge) : (c.withCost u e).backEdge = e.backEdge := by
  unfold withCost
  split_ifs <;> rfl

theorem getSuccessors_backEdgeCosts (c : AbstractCfg) (u : ℕ) :
    c.backEdgeCosts.getSuccessors u = (c.getSuccessors u).map (c.withCost u) := by
  simp only [getSuccessors, backEdgeCosts, List.getD_eq_getElem?_getD, List.getElem?_mapIdx]
  cases c.edges[u]? with
  | none => rfl
  | some es =>
    simp only [Option.map_some, Option.getD_some]
    split_ifs with hu
    · rw [List.map_congr_left (g := id) fun e _ => by rw [withCost, if_neg fun hh => hh.1 hu]; rfl, List.map_id]
    · apply List.map_congr_left
      intro e _
      simp only [withCost, ne_eq, hu, not_false_eq_true, true_and]
      rfl

theorem hasEdge_of_sameGraph (h : SameGraph d c) {u v : ℕ} : d.HasEdge u v ↔ c.HasEdge u v := by
  have hmem : ∀ d : AbstractCfg, d.HasEdge u v ↔ v ∈ ((d.getSuccessors u).map Edge.shape).map Prod.fst := by
    intro d
    simp only [HasEdge, List.map_map, List.mem_map]
    rfl
  rw [hmem, hmem, h.shape]

/-- the three loops of `minimise`, seen from the states that can be reached afterwards -/
theorem minimise_loops {leaveLockables : Bool} {fuel : ℕ} {c' : AbstractCfg}
    (h : c.minimise leaveLockables fuel = some c') :
    ∃ c1 c2, c.minimiseEdges leaveLockables fuel = some c1 ∧ c' = c2.backEdgeCosts ∧
      (∀ u v, c'.HasEdge u v ↔ c1.HasEdge u v) ∧ DistInv c1 c2 [] ∧
      (∀ u, Relation.ReflTransGen c'.HasEdge 1 u → c.Visited leaveLockables u (c1.getSuccessors u)) := by
  unfold minimise at h
  simp only [Option.bind_eq_bind, Option.bind_eq_some_iff, Option.pure_def, Option.some.injEq] at h
  obtain ⟨c1, h1, c2, h2, rfl⟩ := h
  have hedge : ∀ u v, c2.backEdgeCosts.HasEdge u v ↔ c1.HasEdge u v := fun u v =>
    hasEdge_of_sameGraph ((sameGraph_backEdgeCosts c2).trans (sameGraph_minimiseDistances h2))
  have hsame : c2.backEdgeCosts.HasEdge = c1.HasEdge := funext fun u => funext fun v => propext (hedge u v)
  have hvisited : ∀ u, Relation.ReflTransGen c1.HasEdge 1 u → c.Visited leaveLockables u (c1.getSuccessors u) :=
    fun u hu => minimiseEdges_visited h1 hu
  refine ⟨c1, c2, h1, rfl, hedge, minimiseDistances_inv (fun u hu => (hvisited u hu).unmarked) ?_ h2, fun u hu => ?_⟩
  · intro u hu e he
    rw [states_minimiseEdges h1]
    exact lt_length_of_kept ((hvisited u hu).kept e he)
  · rw [hsame] at hu
    exact hvisited u hu

/-- **Back edges and distances.** The marked edges of a reachable state lead back onto a simple path to it, and the
other ones to a greater distance. -/
theorem minimise_distances {leaveLockables : Bool} {fuel : ℕ} {c' : AbstractCfg}
    (h : c.minimise leaveLockables fuel = some c') {u : ℕ} (hu : Relation.ReflTransGen c'.HasEdge 1 u) {e : Edge}
    (he : e ∈ c'.getSuccessors u) :
    (e.backEdge = true ↔ OnPath c'.HasEdge 1 u e.dst) ∧
      (e.backEdge = false → c'.distance u + 1 ≤ c'.distance e.dst) := by
  obtain ⟨c1, c2, -, rfl, hedge, hinv, -⟩ := minimise_loops h
  have hsame : c2.backEdgeCosts.HasEdge = c1.HasEdge := funext fun u => funext fun v => propext (hedge u v)
  rw [hsame] at hu ⊢
  rw [getSuccessors_backEdgeCosts] at he
  obtain ⟨e', he', rfl⟩ := List.mem_map.1 he
  simp only [dst_withCost, backEdge_withCost]
  have hiff : e'.backEdge = true ↔ OnPath c1.HasEdge 1 u e'.dst := by
    constructor
    · exact hinv.onPath u hu e' he'
    · intro ⟨p, hp, hm⟩
      rcases hinv.done u p hp with ⟨item, hi, -⟩ | ⟨hmark, -⟩
      · simp at hi
      · exact hmark e' he' hm
  refine ⟨hiff, fun hb => ?_⟩
  obtain ⟨p, hp⟩ := exists_rootPath hu
  rcases hinv.done u p hp with ⟨item, hi, -⟩ | ⟨-, ⟨item, hi, -⟩ | hord⟩
  · simp at hi
  · simp at hi
  · refine hord e'.dst ⟨hinv.hasEdge.1 ⟨e', he', rfl⟩, fun hon => ?_⟩
    rw [hiff.2 hon] at hb
    simp at hb

/-- an edge that is no back edge -/
def UnmarkedEdge (c : AbstractCfg) (u v : ℕ) : Prop := ∃ e ∈ c.getSuccessors u, e.backEdge = false ∧ e.dst = v

/-- **Marks, distances and cycles.** -/
theorem minimise_marks (c : AbstractCfg) (leaveLockables : Bool) :
    (∀ fuel1 c1, c.minimiseEdges leaveLockables fuel1 = some c1 →
      ∃ N, ∀ fuel, N ≤ fuel → ∃ c2, c1.minimiseDistances fuel = some c2) ∧
      ∀ fuel c', c.minimise leaveLockables fuel = some c' →
        (∀ u, Relation.ReflTransGen c'.HasEdge 1 u → ∀ e ∈ c'.getSuccessors u,
          (e.backEdge = true ↔ OnPath c'.HasEdge 1 u e.dst) ∧
            (e.backEdge = false → c'.distance u + 1 ≤ c'.distance e.dst)) ∧
        ∀ u, ¬Relation.TransGen (fun a b => Relation.ReflTransGen c'.HasEdge 1 a ∧ c'.UnmarkedEdge a b) u u := by
  refine ⟨fun _ c1 _ => ⟨c1.distancesFuel, fun fuel hf => minimiseDistances_total c1 hf⟩,
    fun fuel c' h => ⟨?_, fun u => ?_⟩⟩
  · exact fun u hu e he => minimise_distances h hu he
  · refine not_transGen_self (f := c'.distance) (fun a b hab => ?_) u
    obtain ⟨ha, e, he, hb, rfl⟩ := hab
    have := (minimise_distances h ha he).2 hb
    omega

end AbstractCfg

end Liss
