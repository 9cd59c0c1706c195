/-
What the passes over a CFG leave alone, and a rule for what they keep true of every edge.

`minimise` makes an edge from two others (`joinEdge`), marks it, tags it again with its number, or gives it a cost. A
property of edges and their sources that these four keep (`EdgeRule`) holds of every edge afterwards if it did before.

- `minimise_edges`: the rule;
- `minimise_links`: every new edge stands for a path over removed states, whatever the shape of the graph;
- `Ranged`: the two vectors have one length and edges lead to states; the construction and `minimise` keep it.
-/
import Liss.Cfg.Minimise

namespace Liss

namespace AbstractCfg

variable {c : AbstractCfg} {leaveLockables : Bool}

/-! ## Lengths -/

@[simp] theorem length_states_setEdges (c : AbstractCfg) (src : ℕ) (es : List Edge) :
    (c.setEdges src es).states.length = c.states.length := rfl

@[simp] theorem length_edges_setEdges (c : AbstractCfg) (src : ℕ) (es : List Edge) :
    (c.setEdges src es).edges.length = c.edges.length := by simp [setEdges]

@[simp] theorem length_states_modifyState (c : AbstractCfg) (id : ℕ) (f : State → State) :
    (c.modifyState id f).states.length = c.states.length := by simp [modifyState]

@[simp] theorem length_edges_modifyState (c : AbstractCfg) (id : ℕ) (f : State → State) :
    (c.modifyState id f).edges.length = c.edges.length := rfl

/-- same thread, same number of states, same number of edge vectors -/
structure SameSize (d c : AbstractCfg) : Prop where
  threadId : d.threadId = c.threadId
  states : d.states.length = c.states.length
  edges : d.edges.length = c.edges.length

theorem SameSize.refl (c : AbstractCfg) : SameSize c c := ⟨rfl, rfl, rfl⟩

theorem SameSize.trans {d e : AbstractCfg} (h : SameSize d e) (h' : SameSize e c) : SameSize d c :=
  ⟨h.threadId.trans h'.threadId, h.states.trans h'.states, h.edges.trans h'.edges⟩

theorem sameSize_setEdges (c : AbstractCfg) (src : ℕ) (es : List Edge) : SameSize (c.setEdges src es) c :=
  ⟨rfl, rfl, c.length_edges_setEdges src es⟩

theorem sameSize_modifyState (c : AbstractCfg) (id : ℕ) (f : State → State) : SameSize (c.modifyState id f) c :=
  ⟨rfl, c.length_states_modifyState id f, rfl⟩

theorem sameSize_minimiseEdges {fuel : ℕ} {c' : AbstractCfg} (h : c.minimiseEdges leaveLockables fuel = some c') :
    SameSize c' c := by
  unfold minimiseEdges at h
  obtain ⟨r, hr, rfl⟩ := Option.map_eq_some_iff.1 h
  apply Worklist.run_inv (fun st _ => SameSize st.1 c) _ (SameSize.refl c) hr
  intro st next q st' new hd hs
  rw [minimiseStep] at hs
  split_ifs at hs
  · simp only [Option.some.injEq, Prod.mk.injEq] at hs
    rwa [← hs.1]
  · obtain ⟨successors, -, heq⟩ := Option.map_eq_some_iff.1 hs
    simp only [Prod.mk.injEq] at heq
    rw [← heq.1]
    exact (sameSize_setEdges _ _ _).trans hd

/-- raising distances -/
theorem sameSize_raise (l : List Edge) (dist : ℤ) (d : AbstractCfg) :
    SameSize (l.foldl (fun c e => c.modifyState e.dst fun s => { s with distance := max s.distance dist }) d) d := by
  induction l generalizing d with
  | nil => exact SameSize.refl d
  | cons e l ih => exact (ih _).trans (sameSize_modifyState d _ _)

theorem edges_raise (l : List Edge) (dist : ℤ) (d : AbstractCfg) :
    (l.foldl (fun c e => c.modifyState e.dst fun s => { s with distance := max s.distance dist }) d).edges = d.edges := by
  induction l generalizing d with
  | nil => rfl
  | cons e l ih => exact (ih _).trans rfl

theorem sameSize_minimiseDistances {fuel : ℕ} {c' : AbstractCfg} (h : c.minimiseDistances fuel = some c') :
    SameSize c' c := by
  have hinit : SameSize { c with states := c.states.map fun s => { s with distance := 0 } } c :=
    ⟨rfl, List.length_map _, rfl⟩
  apply Worklist.run_inv (fun d _ => SameSize d c) _ hinit h
  intro d item q d' new hd hs
  simp only [distanceStep, Option.some.injEq, Prod.mk.injEq] at hs
  rw [← hs.1]
  exact ((sameSize_setEdges _ _ _).trans (sameSize_raise _ _ d)).trans hd

theorem sameSize_minimise {fuel : ℕ} {c' : AbstractCfg} (h : c.minimise leaveLockables fuel = some c') :
    SameSize c' c := by
  unfold minimise at h
  simp only [Option.bind_eq_bind, Option.bind_eq_some_iff, Option.pure_def, Option.some.injEq] at h
  obtain ⟨c1, h1, c2, h2, rfl⟩ := h
  have hcosts : SameSize c2.backEdgeCosts c2 := ⟨rfl, rfl, List.length_mapIdx⟩
  exact (hcosts.trans (sameSize_minimiseDistances h2)).trans (sameSize_minimiseEdges h1)

theorem sameSize_compactShift (is : List ℕ) (st : CompactState) : SameSize (compactShift is st).cfg st.cfg := by
  induction is generalizing st with
  | nil => exact SameSize.refl _
  | cons i is ih =>
    rw [compactShift]
    split_ifs
    · exact ih _
    · split
      · exact SameSize.refl _
      · refine (ih _).trans ((sameSize_modifyState _ _ _).trans ?_)
        exact (sameSize_setEdges _ _ _).trans (sameSize_setEdges _ _ _)

/-- `compact` cuts both vectors at the same place -/
theorem compact_sized (hsize : c.edges.length = c.states.length) {fuel : ℕ} {c' : AbstractCfg}
    (h : c.compact fuel = some c') : c'.edges.length = c'.states.length := by
  unfold compact at h
  simp only [Option.bind_eq_bind, Option.bind_eq_some_iff, Option.pure_def, Option.some.injEq] at h
  obtain ⟨active, -, rfl⟩ := h
  have hshift := sameSize_compactShift (List.range' 1 c.noStates)
    { cfg := c, active := active, mapping := List.replicate c.states.length noState, lastActive := 0 }
  simp only [List.length_mapIdx, List.length_take, hshift.states, hshift.edges, hsize]

/-- the states are the old ones up to distances -/
theorem states_minimise {fuel : ℕ} {c' : AbstractCfg} (h : c.minimise leaveLockables fuel = some c') {id : ℕ}
    {s : State} (hs : c'.states[id]? = some s) :
    ∃ s', c.states[id]? = some s' ∧ s.action = s'.action ∧ s.nonActionSymbol = s'.nonActionSymbol := by
  have hsize := sameSize_minimise h
  obtain ⟨hlt, hget⟩ := List.getElem?_eq_some_iff.1 hs
  have hlt' : id < c.states.length := by rw [← hsize.states]; exact hlt
  have hstate := minimise_state h id
  simp only [getState, List.getD_eq_getElem _ _ hlt, List.getD_eq_getElem _ _ hlt', hget, State.mk.injEq] at hstate
  exact ⟨_, List.getElem?_eq_getElem hlt', hstate.1, hstate.2.1⟩

/-- a kept state stays kept -/
theorem minimise_kept {fuel : ℕ} {c' : AbstractCfg} (h : c.minimise leaveLockables fuel = some c') (leave : Bool)
    (id : ℕ) : c'.kept leave id = c.kept leave id := by
  have hs := minimise_state h id
  simp only [State.mk.injEq] at hs
  obtain ⟨ha, -, hf, -, -, hb, hb', -⟩ := hs
  simp only [kept, State.lockable, ha, hf, hb, hb']

/-! ## Every edge -/

theorem tagEdge_all {P : Edge → Prop} {threadId state k : ℕ} {es : List Edge} (h : ∀ e ∈ es, P e)
    (htag : ∀ e n, P e → P { e with tag := some (Symbol.ofBranch threadId state n) }) :
    ∀ e ∈ tagEdge threadId state es k, P e := by
  intro e he
  obtain ⟨i, hi, rfl⟩ := List.getElem_of_mem he
  simp only [tagEdge, List.length_modify] at hi
  have hold := h _ (List.getElem_mem hi)
  simp only [tagEdge, List.getElem_modify]
  split_ifs
  · exact htag _ _ hold
  · exact hold

/-- what holds of the successors without their marks, and of an edge with any tag of the state -/
theorem retag_all {P : Edge → Prop} {threadId next : ℕ} {successors : List Edge}
    (h : ∀ e ∈ successors, P { e with backEdge := false })
    (htag : ∀ e n, P e → P { e with tag := some (Symbol.ofBranch threadId next n) }) :
    ∀ e ∈ retag threadId next successors, P e := by
  induction successors using List.reverseRecOn with
  | nil => simp [retag]
  | append_singleton l e ih =>
    have hl := ih fun e' he' => h e' (List.mem_append_left _ he')
    have happ : ∀ e' ∈ retag threadId next l ++ [{ e with backEdge := false }], P e' := by
      intro e' he'
      rcases List.mem_append.1 he' with he' | he'
      · exact hl e' he'
      · rw [List.mem_singleton.1 he']
        exact h e (by simp)
    unfold retag at happ ⊢
    rw [List.foldl_append]
    simp only [List.foldl_cons, List.foldl_nil]
    split_ifs
    · exact tagEdge_all happ htag
    · exact happ

/-- `Q u e`, about an edge `e` of the state `u`, is kept by what `minimise` does to edges -/
structure EdgeRule (c : AbstractCfg) (remain : List ℕ) (Q : ℕ → Edge → Prop) : Prop where
  join : ∀ u e e2, Q u e → c.removable remain e.dst = true → Q e.dst e2 → Q u (joinEdge e e2)
  mark : ∀ u e b, Q u e → Q u { e with backEdge := b }
  cost : ∀ u e x, Q u e → Q u { e with cost := x }
  tag : ∀ u e n, Q u e → Q u { e with tag := some (Symbol.ofBranch c.threadId u n) }

/-- the same for the first loop of `minimise`, which gives no costs -/
structure LoopRule (c : AbstractCfg) (remain : List ℕ) (Q : ℕ → Edge → Prop) : Prop where
  join : ∀ u e e2, Q u e → c.removable remain e.dst = true → Q e.dst e2 → Q u (joinEdge e e2)
  mark : ∀ u e b, Q u e → Q u { e with backEdge := b }
  tag : ∀ u e n, Q u e → Q u { e with tag := some (Symbol.ofBranch c.threadId u n) }

theorem EdgeRule.loop {remain : List ℕ} {Q : ℕ → Edge → Prop} (hQ : c.EdgeRule remain Q) : c.LoopRule remain Q :=
  ⟨hQ.join, hQ.mark, hQ.tag⟩

/-- the property holds of every edge -/
def EveryEdge (c : AbstractCfg) (Q : ℕ → Edge → Prop) : Prop := ∀ u, ∀ e ∈ c.getSuccessors u, Q u e

theorem everyEdge_of_lt {Q : ℕ → Edge → Prop} (h : ∀ u < c.edges.length, ∀ e ∈ c.getSuccessors u, Q u e) :
    c.EveryEdge Q := by
  intro u e he
  by_cases hu : u < c.edges.length
  · exact h u hu e he
  · rw [getSuccessors, List.getD_eq_default _ _ (by omega)] at he
    simp at he

theorem EveryEdge.setEdges {Q : ℕ → Edge → Prop} (h : c.EveryEdge Q) {src : ℕ} {es : List Edge}
    (hes : ∀ e ∈ es, Q src e) : (c.setEdges src es).EveryEdge Q := by
  intro u e he
  rw [getSuccessors_setEdges] at he
  split_ifs at he with hu
  · exact hu.1 ▸ hes e he
  · exact h u e he

/-- what `add_edge` adds -/
theorem EveryEdge.addEdge {Q : ℕ → Edge → Prop} (h : c.EveryEdge Q) {src dst : ℕ} {backEdge autoTag : Bool} {cost : ℤ}
    (hnew : Q src { dst := dst, backEdge := backEdge, cost := cost })
    (htag : ∀ e n, Q src e → Q src { e with tag := some (Symbol.ofBranch c.threadId src n) }) :
    (c.addEdge src dst backEdge autoTag cost).EveryEdge Q := by
  have happ : ∀ es : List Edge, (∀ e ∈ es, Q src e) →
      ∀ e ∈ es ++ [{ dst := dst, backEdge := backEdge, cost := cost }], Q src e := by
    intro es hes e he
    rcases List.mem_append.1 he with he | he
    · exact hes e he
    · rw [List.mem_singleton.1 he]
      exact hnew
  rw [AbstractCfg.addEdge]
  apply EveryEdge.setEdges h
  split_ifs
  · exact tagEdge_all (happ _ (tagEdge_all (h src) htag)) htag
  · exact happ _ (tagEdge_all (h src) htag)
  · exact tagEdge_all (happ _ (h src)) htag
  · exact happ _ (h src)

theorem fresh_iff : c.Fresh ↔ c.EveryEdge fun _ e => e.dst ≠ 1 ∧ e.inBetweeners = [] := by
  constructor
  · intro h u e he
    exact ⟨fun hd => h.entry u ⟨e, he, hd⟩, h.direct u e he⟩
  · intro h
    refine ⟨fun u hu => ?_, fun u e he => (h u e he).2⟩
    obtain ⟨e, he, hd⟩ := hu
    exact (h u e he).1 hd

/-- `add_edge` keeps the CFG fresh -/
theorem Fresh.addEdge (h : c.Fresh) {src dst : ℕ} (hd : dst ≠ 1) {backEdge autoTag : Bool} {cost : ℤ} :
    (c.addEdge src dst backEdge autoTag cost).Fresh := by
  apply fresh_iff.2
  exact (fresh_iff.1 h).addEdge ⟨hd, rfl⟩ fun _ _ he => he

/-- the targets -/
theorem dst_addEdge {src dst : ℕ} {backEdge autoTag : Bool} {cost : ℤ} (hsrc : src < c.edges.length) (u : ℕ) :
    ((c.addEdge src dst backEdge autoTag cost).getSuccessors u).map Edge.dst =
      if src = u then (c.getSuccessors u).map Edge.dst ++ [dst] else (c.getSuccessors u).map Edge.dst := by
  have htag : ∀ (es : List Edge) (k : ℕ), (tagEdge c.threadId src es k).map Edge.dst = es.map Edge.dst := by
    intro es k
    have := congrArg (List.map Prod.fst) (shape_tagEdge c.threadId src es k)
    simpa [List.map_map, Function.comp_def, Edge.shape] using this
  rw [addEdge, getSuccessors_setEdges]
  by_cases hu : src = u
  · subst hu
    rw [if_pos ⟨rfl, hsrc⟩, if_pos rfl]
    split_ifs <;> simp [htag]
  · rw [if_neg fun hh => hu hh.1, if_neg hu]

theorem hasEdge_iff_dst (c : AbstractCfg) (u v : ℕ) : c.HasEdge u v ↔ v ∈ (c.getSuccessors u).map Edge.dst := by
  simp only [HasEdge, List.mem_map]

theorem hasEdge_addEdge {src dst : ℕ} {backEdge autoTag : Bool} {cost : ℤ} (hsrc : src < c.edges.length) {u v : ℕ} :
    (c.addEdge src dst backEdge autoTag cost).HasEdge u v ↔ c.HasEdge u v ∨ (src = u ∧ dst = v) := by
  rw [hasEdge_iff_dst, hasEdge_iff_dst, dst_addEdge hsrc]
  by_cases hu : src = u
  · simp [hu, eq_comm]
  · simp [hu]

section
variable {remain : List ℕ} {Q : ℕ → Edge → Prop}

/-- the step of the inner loop, on a CFG with the same states -/
theorem LoopRule.expandStep (hQ : c.LoopRule remain Q) {d : AbstractCfg} (hstates : d.states = c.states)
    (hd : d.EveryEdge Q) {next : ℕ} {st st' : List ℕ × List Edge} {edgeTo : Edge} {q new : List Edge}
    (hst : ∀ e ∈ st.2, Q next e) (hq : ∀ e ∈ edgeTo :: q, Q next e)
    (hs : d.expandStep remain st edgeTo = some (st', new)) : (∀ e ∈ st'.2, Q next e) ∧ ∀ e ∈ q ++ new, Q next e := by
  have hrem : ∀ id, d.removable remain id = c.removable remain id := by
    intro id
    simp only [removable, getState, hstates]
  have hto : Q next edgeTo := hq edgeTo List.mem_cons_self
  have hq' : ∀ e ∈ q, Q next e := fun e he => hq e (List.mem_cons_of_mem _ he)
  simp only [AbstractCfg.expandStep, hrem] at hs
  split_ifs at hs with hk
  · simp only [Option.some.injEq, Prod.mk.injEq] at hs
    rw [← hs.1, ← hs.2]
    refine ⟨hst, fun e he => ?_⟩
    rcases List.mem_append.1 he with he | he
    · exact hq' e he
    · obtain ⟨e2, he2, rfl⟩ := List.mem_map.1 he
      exact hQ.join next edgeTo e2 hto hk (hd _ e2 (List.mem_of_mem_filter he2))
  · simp only [Option.some.injEq, Prod.mk.injEq] at hs
    rw [← hs.1, ← hs.2, List.append_nil]
    refine ⟨fun e he => ?_, hq'⟩
    rcases mem_insertTo he with rfl | he
    · exact hto
    · exact hst e he

/-- what `expand` returns -/
theorem LoopRule.expand (hQ : c.LoopRule remain Q) {d : AbstractCfg} (hstates : d.states = c.states)
    (hd : d.EveryEdge Q) {fuel next : ℕ} {successors : List Edge} (h : d.expand remain fuel next = some successors) :
    ∀ e ∈ successors, Q next e := by
  unfold AbstractCfg.expand at h
  obtain ⟨r, hr, rfl⟩ := Option.map_eq_some_iff.1 h
  exact (Worklist.run_inv (fun st q => (∀ e ∈ st.2, Q next e) ∧ ∀ e ∈ q, Q next e)
    (fun _ _ _ _ _ hi hs => hQ.expandStep hstates hd hi.1 hi.2 hs) ⟨by simp, hd next⟩ hr).1

theorem LoopRule.retag (hQ : c.LoopRule remain Q) {next : ℕ} {successors : List Edge} (h : ∀ e ∈ successors, Q next e) :
    ∀ e ∈ retag c.threadId next successors, Q next e :=
  retag_all (fun e he => hQ.mark next e false (h e he)) fun e n he => hQ.tag next e n he

theorem LoopRule.minimiseEdges {Q : ℕ → Edge → Prop} (hQ : c.LoopRule (c.remain leaveLockables) Q)
    (h : c.EveryEdge Q) {fuel : ℕ} {c' : AbstractCfg} (hc : c.minimiseEdges leaveLockables fuel = some c') :
    c'.EveryEdge Q := by
  unfold AbstractCfg.minimiseEdges at hc
  obtain ⟨r, hr, rfl⟩ := Option.map_eq_some_iff.1 hc
  refine (Worklist.run_inv (fun (st : AbstractCfg × List ℕ) _ =>
    st.1.EveryEdge Q ∧ st.1.states = c.states ∧ st.1.threadId = c.threadId) ?_ ⟨h, rfl, rfl⟩ hr).1
  rintro st next q st' new ⟨hedges, hstates, hthread⟩ hs
  rw [minimiseStep] at hs
  split_ifs at hs
  · simp only [Option.some.injEq, Prod.mk.injEq] at hs
    rw [← hs.1]
    exact ⟨hedges, hstates, hthread⟩
  · obtain ⟨successors, hex, heq⟩ := Option.map_eq_some_iff.1 hs
    simp only [Prod.mk.injEq] at heq
    rw [← heq.1]
    refine ⟨hedges.setEdges ?_, hstates, hthread⟩
    rw [hthread]
    exact hQ.retag (hQ.expand hstates hedges hex)

theorem EdgeRule.distanceStep (hQ : c.EdgeRule remain Q) {d d' : AbstractCfg} (hd : d.EveryEdge Q)
    {item : ℕ × List ℕ} {new : List (ℕ × List ℕ)} (h : d.distanceStep item = some (d', new)) : d'.EveryEdge Q := by
  simp only [AbstractCfg.distanceStep, Option.some.injEq, Prod.mk.injEq] at h
  rw [← h.1]
  apply EveryEdge.setEdges
  · intro u e he
    rw [AbstractCfg.getSuccessors, edges_raise] at he
    exact hd u e he
  · intro e he
    obtain ⟨e', he', rfl⟩ := List.mem_map.1 he
    split_ifs
    · exact hQ.mark _ e' true (hd _ e' he')
    · exact hd _ e' he'

theorem EdgeRule.backEdgeCosts (hQ : c.EdgeRule remain Q) {d : AbstractCfg} (hd : d.EveryEdge Q) :
    d.backEdgeCosts.EveryEdge Q := by
  intro u e he
  simp only [AbstractCfg.backEdgeCosts, AbstractCfg.getSuccessors, List.getD_eq_getElem?_getD, List.getElem?_mapIdx] at he
  cases hes : d.edges[u]? with
  | none => simp [hes] at he
  | some es =>
    have hmem : ∀ e ∈ es, Q u e := by
      intro e he
      refine hd u e ?_
      simp [AbstractCfg.getSuccessors, hes, he]
    simp only [hes, Option.map_some, Option.getD_some] at he
    split_ifs at he
    · exact hmem e he
    · obtain ⟨e', he', rfl⟩ := List.mem_map.1 he
      split_ifs
      · exact hQ.cost u e' _ (hmem e' he')
      · exact hmem e' he'

/-- **Rule for edges.** -/
theorem minimise_edges {Q : ℕ → Edge → Prop} (hQ : c.EdgeRule (c.remain leaveLockables) Q) (h : c.EveryEdge Q)
    {fuel : ℕ} {c' : AbstractCfg} (hc : c.minimise leaveLockables fuel = some c') : c'.EveryEdge Q := by
  unfold minimise at hc
  simp only [Option.bind_eq_bind, Option.bind_eq_some_iff, Option.pure_def, Option.some.injEq] at hc
  obtain ⟨c1, h1, c2, h2, rfl⟩ := hc
  have hc1 : c1.EveryEdge Q := hQ.loop.minimiseEdges h h1
  have hc2 : c2.EveryEdge Q :=
    Worklist.run_inv (fun d _ => d.EveryEdge Q) (fun _ _ _ _ _ hd hs => hQ.distanceStep hd hs) hc1 h2
  exact hQ.backEdgeCosts hc2

end

/-! ## Links -/

/-- the edge stands for a path of the graph; the unused state 0 is left out -/
def Linked (c : AbstractCfg) (leaveLockables : Bool) (u : ℕ) (e : Edge) : Prop :=
  u ≠ noState → e.dst ≠ noState ∧ Link c.HasEdge (c.kept leaveLockables) u e.inBetweeners e.dst

theorem edgeRule_linked (c : AbstractCfg) (leaveLockables : Bool) :
    c.EdgeRule (c.remain leaveLockables) (c.Linked leaveLockables) := by
  refine ⟨fun u e e2 h1 hk h2 hu => ?_, fun _ _ _ h => h, fun _ _ _ h => h, fun _ _ _ h => h⟩
  rw [removable_remain, Bool.not_eq_true'] at hk
  obtain ⟨hd, hl⟩ := h1 hu
  obtain ⟨hd2, hl2⟩ := h2 hd
  exact ⟨hd2, link_append.2 ⟨hl, hk, hl2⟩⟩

/-- **The in-between states are a path of the old graph.** The states other than the unused state 0 have no edge to it,
and no in-between states yet. -/
theorem minimise_links (htarget : ∀ u, u ≠ noState → ∀ e ∈ c.getSuccessors u, e.dst ≠ noState)
    (hdirect : ∀ u, u ≠ noState → ∀ e ∈ c.getSuccessors u, e.inBetweeners = []) {fuel : ℕ} {c' : AbstractCfg}
    (h : c.minimise leaveLockables fuel = some c') {u : ℕ} (hu : u ≠ noState) {e : Edge}
    (he : e ∈ c'.getSuccessors u) : Link c.HasEdge (c.kept leaveLockables) u e.inBetweeners e.dst := by
  have hinit : c.EveryEdge (c.Linked leaveLockables) := by
    intro u e he hu
    refine ⟨htarget u hu e he, ?_⟩
    rw [hdirect u hu e he]
    exact link_nil.2 ⟨e, he, rfl⟩
  exact (minimise_edges (edgeRule_linked c leaveLockables) hinit h u e he hu).2

/-! ## Ranges -/

/-- the two vectors have one length, and every edge leads to a state -/
structure Ranged (c : AbstractCfg) : Prop where
  sized : c.edges.length = c.states.length
  target : c.EveryEdge fun _ e => e.dst ≠ noState ∧ e.dst < c.states.length

theorem Ranged.minimise (h : c.Ranged) {fuel : ℕ} {c' : AbstractCfg} (hc : c.minimise leaveLockables fuel = some c') :
    c'.Ranged := by
  have hsize := sameSize_minimise hc
  refine ⟨by rw [hsize.edges, hsize.states, h.sized], ?_⟩
  rw [hsize.states]
  exact minimise_edges ⟨fun _ _ _ _ _ h2 => h2, fun _ _ _ h => h, fun _ _ _ h => h, fun _ _ _ h => h⟩ h.target hc

end AbstractCfg

end Liss
