/-
`tag_edge` in `add_edge` and in `minimise`: the tags of a state with many successors. Edge numbers are cut to 8 bits.

- `minimise_tags`: the first 256 edges of a reachable state carry their own numbers, so that no two of them are
  confused;
- `numbered_addEdges`: so do the edges that are added to a state, up to 256 of them;
- `wideBranch_tags`: the edges of a branch into 257 states, one target of which is itself a choice without tags, have
  one tag twice.
-/
import Liss.Cfg.Threads

namespace Liss

/-- numbers below 256 survive the cut -/
theorem Symbol.int8_inj {n n' : ℕ} (hn : n < 256) (hn' : n' < 256) (h : Symbol.int8 n = Symbol.int8 n') : n = n' := by
  unfold Symbol.int8 at h
  rw [Nat.mod_eq_of_lt hn, Nat.mod_eq_of_lt hn'] at h
  split_ifs at h <;> omega

theorem Symbol.ofBranch_inj {threadId s n n' : ℕ} (hn : n < 256) (hn' : n' < 256)
    (h : Symbol.ofBranch threadId s n = Symbol.ofBranch threadId s n') : n = n' :=
  Symbol.int8_inj hn hn' (congrArg Symbol.tagBranch h)

namespace AbstractCfg

variable {c m : AbstractCfg}

/-! ## Up to 256 edges -/

/-- the loops after the first one change neither the targets nor the tags -/
theorem minimise_labels {leaveLockables : Bool} {fuel : ℕ} (h : c.minimise leaveLockables fuel = some m) :
    ∃ c1, c.minimiseEdges leaveLockables fuel = some c1 ∧
      (∀ u, (m.getSuccessors u).map (fun e => (e.dst, e.tag)) = (c1.getSuccessors u).map fun e => (e.dst, e.tag)) ∧
        ∀ u ∈ m.Reached, c.Visited leaveLockables u (c1.getSuccessors u) := by
  obtain ⟨c1, c2, h1, rfl, -, hinv, hvisited⟩ := minimise_loops h
  refine ⟨c1, h1, fun u => ?_, hvisited⟩
  have hcosts : (c2.getSuccessors u).map ((fun e : Edge => (e.dst, e.tag)) ∘ c2.withCost u) =
      (c2.getSuccessors u).map fun e => (e.dst, e.tag) := by
    apply List.map_congr_left
    intro e _
    simp
  rw [getSuccessors_backEdgeCosts, List.map_map, hcosts]
  exact hinv.map (fun _ => rfl) u

/-- **The first 256 edges.** -/
theorem minimise_tags {leaveLockables : Bool} {fuel : ℕ} (h : c.minimise leaveLockables fuel = some m) {u : ℕ}
    (hu : u ∈ m.Reached) {k : ℕ} {e : Edge} (he : (m.getSuccessors u)[k]? = some e) (hk : k < 256) {t : Symbol}
    (ht : e.tag = some t) : t = Symbol.ofBranch c.threadId u k := by
  obtain ⟨c1, -, hlabels, hvisited⟩ := minimise_labels h
  have hget : ((c1.getSuccessors u).map fun e => (e.dst, e.tag))[k]? = some (e.dst, e.tag) := by
    rw [← hlabels u, List.getElem?_map, he]
    rfl
  rw [List.getElem?_map] at hget
  obtain ⟨e1, he1, heq⟩ := Option.map_eq_some_iff.1 hget
  exact (hvisited u hu).tag k e1 he1 hk t ((Prod.mk.inj heq).2.trans ht)

/-- no two of them carry one tag -/
theorem tag_unique {leaveLockables : Bool} {fuel : ℕ} (h : c.minimise leaveLockables fuel = some m) {u : ℕ}
    (hu : u ∈ m.Reached) (hlen : (m.getSuccessors u).length ≤ 256) {e f : Edge} (he : e ∈ m.getSuccessors u)
    (hf : f ∈ m.getSuccessors u) {t : Symbol} (het : e.tag = some t) (hft : f.tag = some t) : e = f := by
  obtain ⟨k, hk⟩ := List.mem_iff_getElem?.1 he
  obtain ⟨k', hk'⟩ := List.mem_iff_getElem?.1 hf
  have hlt := (List.getElem?_eq_some_iff.1 hk).1
  have hlt' := (List.getElem?_eq_some_iff.1 hk').1
  have h1 := minimise_tags h hu hk (by omega) het
  have h2 := minimise_tags h hu hk' (by omega) hft
  have hkk := Symbol.ofBranch_inj (by omega) (by omega) (h1.symm.trans h2)
  subst hkk
  exact Option.some.inj (hk.symm.trans hk')

/-! ## Adding edges -/

/-- edges from `src` to each of the targets in turn -/
def addEdges (c : AbstractCfg) (es : List (ℕ × ℕ)) : AbstractCfg := es.foldl (fun c e => c.addEdge e.1 e.2) c

/-- edges of `src` to the targets `vs`, tagged with their numbers -/
def tagged (threadId src : ℕ) (vs : List ℕ) : List Edge :=
  vs.mapIdx fun i v => { dst := v, tag := some (Symbol.ofBranch threadId src i) }

theorem dst_tagged (threadId src : ℕ) (vs : List ℕ) : (tagged threadId src vs).map Edge.dst = vs := by
  apply List.ext_getElem?
  intro i
  simp [tagged, Option.map_map, Function.comp_def]

/-- a single edge has no tag -/
def numbered (threadId src : ℕ) (vs : List ℕ) : List Edge :=
  if vs.length ≤ 1 then vs.map fun v => { dst := v } else tagged threadId src vs

theorem states_addEdges (c : AbstractCfg) (es : List (ℕ × ℕ)) : (c.addEdges es).states = c.states := by
  induction es generalizing c with
  | nil => rfl
  | cons e es ih => exact (ih _).trans rfl

theorem threadId_addEdges (c : AbstractCfg) (es : List (ℕ × ℕ)) : (c.addEdges es).threadId = c.threadId := by
  induction es generalizing c with
  | nil => rfl
  | cons e es ih => exact (ih _).trans rfl

theorem length_edges_addEdges (c : AbstractCfg) (es : List (ℕ × ℕ)) :
    (c.addEdges es).edges.length = c.edges.length := by
  induction es generalizing c with
  | nil => rfl
  | cons e es ih => exact (ih _).trans (c.length_edges_setEdges _ _)

theorem Constructed.addEdges (hc : c.Constructed) {es : List (ℕ × ℕ)}
    (h : ∀ e ∈ es, e.2 ≠ noState ∧ e.2 < c.states.length) : (c.addEdges es).Constructed := by
  induction es generalizing c with
  | nil => exact hc
  | cons e es ih =>
    exact ih (hc.addEdge (h e List.mem_cons_self) e.1 false true 0) fun e' he' => h e' (List.mem_cons_of_mem _ he')

theorem EveryEdge.addEdges {Q : ℕ → Edge → Prop} (h : c.EveryEdge Q) {es : List (ℕ × ℕ)}
    (hnew : ∀ e ∈ es, Q e.1 { dst := e.2 })
    (htag : ∀ u e n, Q u e → Q u { e with tag := some (Symbol.ofBranch c.threadId u n) }) :
    (c.addEdges es).EveryEdge Q := by
  induction es generalizing c with
  | nil => exact h
  | cons e es ih =>
    exact ih (EveryEdge.addEdge h (hnew e List.mem_cons_self) (htag e.1))
      (fun e' he' => hnew e' (List.mem_cons_of_mem _ he'))
      htag

/-- the other states -/
theorem getSuccessors_addEdges {es : List (ℕ × ℕ)} {u : ℕ} (h : ∀ e ∈ es, e.1 ≠ u) :
    (c.addEdges es).getSuccessors u = c.getSuccessors u := by
  induction es generalizing c with
  | nil => rfl
  | cons e es ih =>
    have hne := h e List.mem_cons_self
    rw [addEdges, List.foldl_cons, ← addEdges, ih fun e' he' => h e' (List.mem_cons_of_mem _ he'), addEdge,
      getSuccessors_setEdges, if_neg fun hh => hne hh.1]

theorem modify_concat {α : Type*} (f : α → α) (l : List α) (a : α) : (l ++ [a]).modify l.length f = l ++ [f a] := by
  induction l with
  | nil => rfl
  | cons b l ih => simp [ih]

/-- the number of the last edge -/
theorem tagEdge_concat (threadId state : ℕ) {es : List Edge} (hlen : es.length < 256) (e : Edge) :
    tagEdge threadId state (es ++ [e]) es.length =
      es ++ [{ e with tag := some (Symbol.ofBranch threadId state es.length) }] := by
  rw [tagEdge, Nat.mod_eq_of_lt hlen, modify_concat]

/-- **Numbers of new edges.** -/
theorem numbered_addEdges {src : ℕ} (hsrc : src < c.edges.length) (hdet : (c.getState src).nonDet = false)
    (hnil : c.getSuccessors src = []) {vs : List ℕ} (hlen : vs.length ≤ 256) :
    (c.addEdges (vs.map fun v => (src, v))).getSuccessors src = numbered c.threadId src vs := by
  induction vs using List.reverseRecOn with
  | nil => exact hnil
  | append_singleton vs v ih =>
    rw [List.length_append, List.length_singleton] at hlen
    have ih := ih (by omega)
    set d := c.addEdges (vs.map fun v => (src, v)) with hd
    have hstate : d.getState src = c.getState src := by
      rw [getState, hd, states_addEdges, ← getState]
    have hthread : d.threadId = c.threadId := threadId_addEdges c _
    have hadd : c.addEdges ((vs ++ [v]).map fun v => (src, v)) = d.addEdge src v := by
      rw [addEdges, List.map_append, List.foldl_append]
      rfl
    rw [hadd, addEdge, getSuccessors_setEdges, if_pos ⟨rfl, by rwa [hd, length_edges_addEdges]⟩, hstate, hdet, ih,
      hthread]
    -- the first edge is tagged when the second one is added
    cases vs with
    | nil => rfl
    | cons x vs =>
      have hfirst : (if (true && !false) && (numbered c.threadId src (x :: vs)).length == 1 then
          tagEdge c.threadId src (numbered c.threadId src (x :: vs)) 0 else numbered c.threadId src (x :: vs)) =
            tagged c.threadId src (x :: vs) := by
        cases vs with
        | nil => rfl
        | cons y vs => simp [numbered, tagged]
      have hlength : (tagged c.threadId src (x :: vs)).length = vs.length + 1 := by simp [tagged]
      have hshort : (tagged c.threadId src (x :: vs)).length < 256 := by
        rw [hlength]
        simpa using hlen
      have hlast := tagEdge_concat c.threadId src hshort { dst := v }
      simp only [hfirst]
      rw [if_pos (by simp [hlength]), List.length_append, List.length_singleton, Nat.add_sub_cancel, hlast]
      simp [numbered, tagged, List.mapIdx_append]

/-- the edges of a nondeterministic choice have no tags -/
theorem plain_addEdges {src : ℕ} (hsrc : src < c.edges.length) (hnon : (c.getState src).nonDet = true)
    (hnil : c.getSuccessors src = []) (vs : List ℕ) :
    (c.addEdges (vs.map fun v => (src, v))).getSuccessors src = vs.map fun v => { dst := v } := by
  induction vs using List.reverseRecOn with
  | nil => exact hnil
  | append_singleton vs v ih =>
    set d := c.addEdges (vs.map fun v => (src, v)) with hd
    have hstate : d.getState src = c.getState src := by
      rw [getState, hd, states_addEdges, ← getState]
    have hadd : c.addEdges ((vs ++ [v]).map fun v => (src, v)) = d.addEdge src v := by
      rw [addEdges, List.map_append, List.foldl_append]
      rfl
    rw [hadd, addEdge, getSuccessors_setEdges, if_pos ⟨rfl, by rwa [hd, length_edges_addEdges]⟩, hstate, hnon, ih]
    simp

theorem hasEdge_addEdges {es : List (ℕ × ℕ)} (hes : ∀ e ∈ es, e.1 < c.edges.length) {u v : ℕ}
    (h : (u, v) ∈ es ∨ c.HasEdge u v) : (c.addEdges es).HasEdge u v := by
  induction es generalizing c with
  | nil => exact h.resolve_left (by simp)
  | cons e es ih =>
    have hsrc := hes e List.mem_cons_self
    have hkeep : (c.addEdge e.1 e.2).HasEdge u v ↔ (e = (u, v) ∨ c.HasEdge u v) := by
      rw [hasEdge_addEdge hsrc, Prod.ext_iff, or_comm]
    refine ih (fun e' he' => ?_) ?_
    · have hlen : (c.addEdge e.1 e.2).edges.length = c.edges.length := c.length_edges_setEdges _ _
      rw [hlen]
      exact hes e' (List.mem_cons_of_mem _ he')
    · rcases h with h | h
      · rcases List.mem_cons.1 h with rfl | h
        · exact Or.inr (hkeep.2 (Or.inl rfl))
        · exact Or.inl h
      · exact Or.inr (hkeep.2 (Or.inr h))

/-! ## The edges of state 1 -/

theorem insertTo_last {e : Edge} {l : List Edge} (h : ∀ f ∈ l, f.dst < e.dst) : e.insertTo l = l ++ [e] := by
  induction l with
  | nil => rfl
  | cons f l ih =>
    have hf := h f List.mem_cons_self
    rw [Edge.insertTo, if_neg (by omega), if_neg (by omega), ih fun f' hf' => h f' (List.mem_cons_of_mem _ hf')]
    rfl

/-- edges to kept states, in order of their targets, stay as they are -/
theorem expand_kept {remain : List ℕ} {fuel : ℕ} {st r : List ℕ × List Edge} {q : List Edge}
    (hkept : ∀ e ∈ q, c.removable remain e.dst = false) (hasc : ((st.2 ++ q).map Edge.dst).Pairwise (· < ·))
    (h : Worklist.run (c.expandStep remain) fuel st q = some r) : r.2 = st.2 ++ q := by
  induction fuel generalizing st q with
  | zero => simp at h
  | succ fuel ih =>
    cases q with
    | nil =>
      simp only [Worklist.run_nil, Option.some.injEq] at h
      rw [← h, List.append_nil]
    | cons e q =>
      obtain ⟨st', new, hs, hr⟩ := Worklist.run_cons h
      have hlast : e.insertTo st.2 = st.2 ++ [e] := by
        apply insertTo_last
        intro f hf
        rw [List.map_append, List.pairwise_append] at hasc
        exact hasc.2.2 f.dst (List.mem_map_of_mem hf) e.dst (List.mem_map_of_mem List.mem_cons_self)
      simp only [expandStep, hkept e List.mem_cons_self, Bool.false_eq_true, if_false, hlast, Option.some.injEq,
        Prod.mk.injEq] at hs
      obtain ⟨rfl, rfl⟩ := hs
      rw [List.append_nil] at hr
      have := ih (fun e' he' => hkept e' (List.mem_cons_of_mem _ he')) (by simpa using hasc) hr
      simpa using this

/-- nothing has been visited, or state 1 has, and its edges are those that it got then -/
def StartVisited (c : AbstractCfg) (remain : List ℕ) (fuel : ℕ) (st : AbstractCfg × List ℕ) (q : List ℕ) : Prop :=
  st = (c, []) ∧ q = [1] ∨
    1 ∈ st.2 ∧ ∃ successors, c.expand remain fuel 1 = some successors ∧
      st.1.getSuccessors 1 = retag c.threadId 1 successors

theorem StartVisited.step {remain : List ℕ} {fuel next : ℕ} {st st' : AbstractCfg × List ℕ} {q new : List ℕ}
    (h : c.StartVisited remain fuel st (next :: q)) (hstart : 1 < c.edges.length)
    (hs : minimiseStep remain fuel st next = some (st', new)) : c.StartVisited remain fuel st' (q ++ new) := by
  rw [minimiseStep] at hs
  split_ifs at hs with hseen
  · simp only [Option.some.injEq, Prod.mk.injEq] at hs
    rcases h with ⟨rfl, -⟩ | h
    · simp at hseen
    · exact Or.inr (hs.1 ▸ h)
  · obtain ⟨successors, hex, heq⟩ := Option.map_eq_some_iff.1 hs
    simp only [Prod.mk.injEq] at heq
    obtain ⟨rfl, -⟩ := heq
    right
    rcases h with ⟨rfl, hq⟩ | ⟨hone, successors1, hex1, heq1⟩
    · obtain ⟨rfl, -⟩ := List.cons.inj hq
      refine ⟨List.mem_cons_self, successors, hex, ?_⟩
      rw [getSuccessors_setEdges, if_pos ⟨rfl, hstart⟩]
    · refine ⟨List.mem_cons_of_mem _ hone, successors1, hex1, ?_⟩
      have hne : next ≠ 1 := by
        rintro rfl
        exact hseen (by simpa using hone)
      rw [getSuccessors_setEdges, if_neg fun hh => hne hh.1, heq1]

/-- state 1 is visited first, and once -/
theorem minimiseEdges_start {leaveLockables : Bool} {fuel : ℕ} {c1 : AbstractCfg}
    (h : c.minimiseEdges leaveLockables fuel = some c1) (hstart : 1 < c.edges.length) :
    ∃ successors, c.expand (c.remain leaveLockables) fuel 1 = some successors ∧
      c1.getSuccessors 1 = retag c.threadId 1 successors := by
  unfold minimiseEdges at h
  obtain ⟨r, hr, rfl⟩ := Option.map_eq_some_iff.1 h
  have hvisited : c.StartVisited (c.remain leaveLockables) fuel r [] :=
    Worklist.run_inv (c.StartVisited (c.remain leaveLockables) fuel)
      (fun _ _ _ _ _ hi hs => StartVisited.step hi hstart hs) (Or.inl ⟨rfl, rfl⟩) hr
  rcases hvisited with ⟨-, hnil⟩ | ⟨-, hsucc⟩
  · simp at hnil
  · exact hsucc

/-! ## A branch with 257 targets -/

/-- states 1 to 3 for the start, a nondeterministic choice and the end, and `n` states with actions -/
def storeStates (n : ℕ) : AbstractCfg where
  threadId := 0
  states := [State.ofId 0 0, State.ofId 0 1, State.ofId 0 2, State.ofId 0 3] ++
    (List.range n).map fun i => State.ofAction { storeX with loc := ⟨0, 4 + i⟩ }
  edges := List.replicate (4 + n) []

theorem length_storeStates (n : ℕ) : (storeStates n).states.length = 4 + n := by
  simp only [storeStates, List.length_append, List.length_map, List.length_range, List.length_cons, List.length_nil]

theorem storeStates_constructed {n : ℕ} (hn : 4 + n ≤ maxStates) : (storeStates n).Constructed := by
  induction n with
  | zero => exact .addDummyState (.addDummyState (.addDummyState (.empty 0) rfl) rfl) rfl
  | succ n ih =>
    refine .addState (ih (by omega)) storeX (by decide) ?_
    rw [addState, length_storeStates, if_neg (by omega)]
    simp [storeStates, List.range_succ, ← Nat.add_assoc, List.replicate_succ']

/-- what is set in states 2 and 3 -/
def choiceStates (n : ℕ) : AbstractCfg :=
  ((storeStates n).modifyState 2 fun s =>
    { s with final := false, nonDet := true, returnState := 0, lockBefore := none, lockAfter := none }).modifyState 3
    fun s => { s with final := true, nonDet := false, returnState := 0, lockBefore := none, lockAfter := none }

theorem length_choiceStates (n : ℕ) : (choiceStates n).states.length = 4 + n := by
  rw [choiceStates, length_states_modifyState, length_states_modifyState, length_storeStates]

theorem getState_choiceStates (n u : ℕ) : (choiceStates n).getState u =
    if u = 2 then { State.ofId 0 2 with nonDet := true } else if u = 3 then { State.ofId 0 3 with final := true }
    else (storeStates n).getState u := by
  have h2 : 2 < (storeStates n).states.length := by
    rw [length_storeStates]
    omega
  rw [choiceStates, getState_modifyState (by rw [length_states_modifyState, length_storeStates]; omega),
    getState_modifyState h2]
  by_cases hu2 : u = 2
  · subst hu2
    rfl
  · by_cases hu3 : u = 3
    · subst hu3
      rfl
    · rw [if_neg (Ne.symm hu3), if_neg (Ne.symm hu2), if_neg hu2, if_neg hu3]

theorem getState_storeStates {n i : ℕ} (hi : i < n) :
    (storeStates n).getState (4 + i) = State.ofAction { storeX with loc := ⟨0, 4 + i⟩ } := by
  rw [getState, List.getD_eq_getElem?_getD, storeStates, List.getElem?_append_right (by simp)]
  simp [hi]

theorem final_storeStates (n u : ℕ) : ((storeStates n).getState u).final = false := by
  have hall : ∀ s ∈ (storeStates n).states, s.final = false := by
    intro s hs
    simp only [storeStates, List.mem_append, List.mem_cons, List.not_mem_nil, or_false, List.mem_map] at hs
    rcases hs with (rfl | rfl | rfl | rfl) | ⟨i, -, rfl⟩ <;> rfl
  by_cases hu : u < (storeStates n).states.length
  · rw [getState, List.getD_eq_getElem _ _ hu]
    exact hall _ (List.getElem_mem hu)
  · rw [getState, List.getD_eq_default _ _ (by omega)]
    rfl

theorem getSuccessors_choiceStates (n u : ℕ) : (choiceStates n).getSuccessors u = [] := by
  have hedges : (choiceStates n).edges = List.replicate (4 + n) [] := rfl
  rw [getSuccessors, hedges, List.getD_eq_getElem?_getD, List.getElem?_replicate]
  split_ifs <;> rfl

/-- state 1 branches to state 2 and to `n` states with actions, state 2 to two more, and all of these lead to the end -/
def wideBranch (n : ℕ) : AbstractCfg :=
  (((choiceStates (n + 2)).addEdges ((2 :: List.range' 4 n).map fun v => (1, v))).addEdges
    [(2, 4 + n), (2, 5 + n)]).addEdges ((List.range' 4 (n + 2)).map fun v => (v, 3))

theorem getState_wideBranch (n u : ℕ) : (wideBranch n).getState u = (choiceStates (n + 2)).getState u := by
  simp only [getState, wideBranch, states_addEdges]

theorem wideBranch_constructed {n : ℕ} (hn : 6 + n ≤ maxStates) : (wideBranch n).Constructed := by
  have hstates : (choiceStates (n + 2)).Constructed :=
    .setFields (.setFields (storeStates_constructed (by omega)) 2 false true 0 none none) 3 true false 0 none none
  refine ((hstates.addEdges fun e he => ?_).addEdges fun e he => ?_).addEdges fun e he => ?_
  · rw [length_choiceStates]
    simp only [List.mem_map, List.mem_cons, List.mem_range'_1] at he
    obtain ⟨v, hv, rfl⟩ := he
    simp only [noState]
    omega
  · rw [states_addEdges, length_choiceStates]
    simp only [List.mem_cons, List.not_mem_nil, or_false] at he
    simp only [noState]
    rcases he with rfl | rfl
    · exact ⟨by omega, by omega⟩
    · exact ⟨by omega, by omega⟩
  · rw [states_addEdges, states_addEdges, length_choiceStates]
    obtain ⟨v, -, rfl⟩ := List.mem_map.1 he
    exact ⟨Nat.succ_ne_zero 2, by show 3 < _; omega⟩

/-- the edges of the states that branch -/
theorem getSuccessors_wideBranch {n : ℕ} (hn : n ≤ 255) :
    (wideBranch n).getSuccessors 1 = numbered 0 1 (2 :: List.range' 4 n) ∧
      (wideBranch n).getSuccessors 2 = [{ dst := 4 + n }, { dst := 5 + n }] ∧ (wideBranch n).getSuccessors 3 = [] := by
  have hlen : (choiceStates (n + 2)).edges.length = 4 + (n + 2) := List.length_replicate
  have hstores : ∀ u, u < 4 → ∀ e ∈ (List.range' 4 (n + 2)).map fun v => (v, 3), e.1 ≠ u := by
    intro u hu e he
    obtain ⟨v, hv, rfl⟩ := List.mem_map.1 he
    rw [List.mem_range'_1] at hv
    show v ≠ u
    omega
  have hchoice : ∀ u, u ≠ 2 → ∀ e ∈ [(2, 4 + n), (2, 5 + n)], e.1 ≠ u := by
    intro u hu e he
    simp only [List.mem_cons, List.not_mem_nil, or_false] at he
    rcases he with rfl | rfl
    · exact Ne.symm hu
    · exact Ne.symm hu
  have hfirst : ∀ u, u ≠ 1 → ∀ e ∈ (2 :: List.range' 4 n).map fun v => (1, v), e.1 ≠ u := by
    intro u hu e he
    obtain ⟨v, -, rfl⟩ := List.mem_map.1 he
    exact Ne.symm hu
  refine ⟨?_, ?_, ?_⟩
  · rw [wideBranch, getSuccessors_addEdges (hstores 1 (by decide)), getSuccessors_addEdges (hchoice 1 (by decide))]
    refine numbered_addEdges (by omega) ?_ (getSuccessors_choiceStates _ 1) (by simp; omega)
    rw [getState_choiceStates]
    rfl
  · rw [wideBranch, getSuccessors_addEdges (hstores 2 (by decide))]
    refine plain_addEdges ?_ ?_ ?_ [4 + n, 5 + n]
    · rw [length_edges_addEdges]
      omega
    · rw [getState, states_addEdges, ← getState, getState_choiceStates]
      rfl
    · rw [getSuccessors_addEdges (hfirst 2 (by decide)), getSuccessors_choiceStates]
  · rw [wideBranch, getSuccessors_addEdges (hstores 3 (by decide)), getSuccessors_addEdges (hchoice 3 (by decide)),
      getSuccessors_addEdges (hfirst 3 (by decide)), getSuccessors_choiceStates]

theorem hasEdge_wideBranch {n v : ℕ} (hv : 4 ≤ v) (hv' : v < 6 + n) : (wideBranch n).HasEdge v 3 := by
  have hlen : (choiceStates (n + 2)).edges.length = 4 + (n + 2) := List.length_replicate
  refine hasEdge_addEdges (fun e he => ?_) (Or.inl (List.mem_map.2 ⟨v, by rw [List.mem_range'_1]; omega, rfl⟩))
  obtain ⟨x, hx, rfl⟩ := List.mem_map.1 he
  rw [List.mem_range'_1] at hx
  rw [length_edges_addEdges, length_edges_addEdges, hlen]
  show x < 4 + (n + 2)
  omega

/-- what its edges look like -/
theorem everyEdge_wideBranch {n : ℕ} {Q : ℕ → Edge → Prop} (hnew : ∀ u v, 2 ≤ v → Q u { dst := v })
    (htag : ∀ u e k, Q u e → Q u { e with tag := some (Symbol.ofBranch 0 u k) }) : (wideBranch n).EveryEdge Q := by
  have hstart : (choiceStates (n + 2)).EveryEdge Q := by
    intro u e he
    simp [getSuccessors_choiceStates] at he
  have hthread : ∀ es, ((choiceStates (n + 2)).addEdges es).threadId = 0 := fun es => threadId_addEdges _ es
  refine ((hstart.addEdges (fun e he => hnew _ _ ?_) htag).addEdges (fun e he => hnew _ _ ?_) ?_).addEdges
    (fun e he => hnew _ _ ?_) ?_
  · simp only [List.mem_map, List.mem_cons, List.mem_range'_1] at he
    obtain ⟨v, hv, rfl⟩ := he
    show 2 ≤ v
    omega
  · simp only [List.mem_cons, List.not_mem_nil, or_false] at he
    rcases he with rfl | rfl
    · show 2 ≤ 4 + n
      omega
    · show 2 ≤ 5 + n
      omega
  · rw [hthread]
    exact htag
  · obtain ⟨v, -, rfl⟩ := List.mem_map.1 he
    show 2 ≤ 3
    decide
  · rw [threadId_addEdges, hthread]
    exact htag

theorem wideBranch_parsed {n : ℕ} (hn : n ≤ 255) : (wideBranch n).Parsed := by
  refine ⟨wideBranch_constructed (by simp only [maxStates]; omega), ?_, ?_, fun u hf => ?_, ?_⟩
  · simp only [wideBranch, states_addEdges, length_choiceStates]
    omega
  · rw [getState_wideBranch, getState_choiceStates]
    exact ⟨rfl, rfl⟩
  · rw [getState_wideBranch, getState_choiceStates] at hf ⊢
    by_cases hu2 : u = 2
    · simp [hu2, State.ofId] at hf
    · by_cases hu3 : u = 3
      · subst hu3
        exact ⟨rfl, (getSuccessors_wideBranch hn).2.2⟩
      · simp [hu2, hu3, final_storeStates] at hf
  · exact everyEdge_wideBranch (fun _ _ _ => rfl) fun _ _ _ he => he

theorem wideBranch_fresh (n : ℕ) : (wideBranch n).Fresh := by
  apply fresh_iff.2
  exact everyEdge_wideBranch (fun _ v hv => ⟨Nat.ne_of_gt hv, rfl⟩) fun _ _ _ he => he

theorem twoChoice_minimise : ((wideBranch 0).minimise false 40).isSome = true := by decide

theorem threeBranch_minimise : ((wideBranch 1).minimise false 40).isSome = true := by decide

/-- the choice alone -/
def twoChoice : AbstractCfg := ((wideBranch 0).minimise false 40).get twoChoice_minimise

/-- the branch into three states -/
def threeBranch : AbstractCfg := ((wideBranch 1).minimise false 40).get threeBranch_minimise

/-- the successors of state 1 when the choice is removed -/
theorem wideBranch_expand {n : ℕ} (hn : 1 ≤ n) (hn' : n ≤ 255) {fuel : ℕ} {successors : List Edge}
    (h : (wideBranch n).expand [] fuel 1 = some successors) :
    successors = (tagged 0 1 (2 :: List.range' 4 n)).tail ++ [4 + n, 5 + n].map fun v =>
      { dst := v, tag := some (Symbol.ofBranch 0 1 0), inBetweeners := [2] } := by
  obtain ⟨h1, h2, -⟩ := getSuccessors_wideBranch hn'
  unfold expand at h
  obtain ⟨r, hr, rfl⟩ := Option.map_eq_some_iff.1 h
  have hnumbered : numbered 0 1 (2 :: List.range' 4 n) =
      { dst := 2, tag := some (Symbol.ofBranch 0 1 0) } :: (tagged 0 1 (2 :: List.range' 4 n)).tail := by
    rw [numbered, if_neg (by simp; omega)]
    simp [tagged, List.mapIdx_cons]
  have hremoved : (wideBranch n).removable [] 2 = true := by
    simp [removable, getState_wideBranch, getState_choiceStates, State.ofId]
  have hkept : ∀ v, 4 ≤ v → v < 6 + n → (wideBranch n).removable [] v = false := by
    intro v hv hv'
    obtain ⟨i, rfl⟩ : ∃ i, v = 4 + i := ⟨v - 4, by omega⟩
    rw [removable, getState_wideBranch, getState_choiceStates, if_neg (by omega), if_neg (by omega),
      getState_storeStates (by omega)]
    rfl
  rw [h1, hnumbered] at hr
  cases fuel with
  | zero => simp at hr
  | succ fuel =>
    obtain ⟨st', new, hs, hr⟩ := Worklist.run_cons hr
    simp only [expandStep, hremoved, if_true, h2, Option.some.injEq, Prod.mk.injEq] at hs
    obtain ⟨rfl, rfl⟩ := hs
    have hnew : ([({ dst := 4 + n } : Edge), { dst := 5 + n }].filter fun e2 => !([2] : List ℕ).contains e2.dst).map
        (joinEdge { dst := 2, tag := some (Symbol.ofBranch 0 1 0) }) = [4 + n, 5 + n].map fun v =>
          { dst := v, tag := some (Symbol.ofBranch 0 1 0), inBetweeners := [2] } := by
      have h4 : ¬4 + n = 2 := by omega
      have h5 : ¬5 + n = 2 := by omega
      simp [joinEdge, h4, h5]
    rw [hnew] at hr
    have hdst : ((tagged 0 1 (2 :: List.range' 4 n)).tail ++ [4 + n, 5 + n].map fun v =>
        ({ dst := v, tag := some (Symbol.ofBranch 0 1 0), inBetweeners := [2] } : Edge)).map Edge.dst =
          List.range' 4 (n + 2) := by
      have hrange : List.range' 4 (n + 2) = List.range' 4 n ++ [4 + n, 5 + n] := by
        rw [List.range'_1_concat, List.range'_1_concat, List.append_assoc]
        simp
        omega
      rw [List.map_append, List.map_tail, dst_tagged, hrange]
      rfl
    have hasc : (List.map Edge.dst ([] ++ ((tagged 0 1 (2 :: List.range' 4 n)).tail ++ [4 + n, 5 + n].map fun v =>
        ({ dst := v, tag := some (Symbol.ofBranch 0 1 0), inBetweeners := [2] } : Edge)))).Pairwise (· < ·) := by
      rw [List.nil_append, hdst]
      exact List.pairwise_lt_range'
    have hres := expand_kept (fun e he => ?_) hasc hr
    · exact hres
    · have hmem : e.dst ∈ List.range' 4 (n + 2) := by
        rw [← hdst]
        exact List.mem_map_of_mem he
      rw [List.mem_range'_1] at hmem
      exact hkept e.dst hmem.1 (by omega)

/-- **One tag twice.** The first edge and the 257th, which keeps the tag that it has from the removed choice. -/
theorem wideBranch_tags {fuel : ℕ} (h : (wideBranch 255).minimise false fuel = some m) :
    ∃ f l e, m.getSuccessors 1 = f :: l ∧ e ∈ l ∧ f.dst = 4 ∧ e.dst = 260 ∧
      f.tag = some (Symbol.ofBranch 0 1 0) ∧ e.tag = some (Symbol.ofBranch 0 1 0) := by
  obtain ⟨c1, h1, hlabels, -⟩ := minimise_labels h
  have hthread : (wideBranch 255).threadId = 0 := by
    simp only [wideBranch, threadId_addEdges]
    rfl
  have hsize : 1 < (wideBranch 255).edges.length := by
    rw [(wideBranch_constructed (by decide)).proper.ranged.sized]
    exact (wideBranch_parsed (Nat.le_refl 255)).size
  obtain ⟨successors, hex, hretag⟩ := minimiseEdges_start h1 hsize
  have hs := wideBranch_expand (by decide) (Nat.le_refl 255) hex
  rw [hthread] at hretag
  have hfirst : successors[0]? = some { dst := 4, tag := some (Symbol.ofBranch 0 1 1) } := by
    rw [hs, List.getElem?_append_left (by simp [tagged])]
    simp [tagged]
  have hlast : successors[256]? = some { dst := 260, tag := some (Symbol.ofBranch 0 1 0), inBetweeners := [2] } := by
    rw [hs, List.getElem?_append_right (by simp [tagged])]
    simp [tagged]
  -- an edge of state 1 in the result, by its place
  have hplace : ∀ (k : ℕ) (e' : Edge), successors[k]? = some e' →
      ∃ e e1 : Edge, (m.getSuccessors 1)[k]? = some e ∧ (retag 0 1 successors)[k]? = some e1 ∧ e.dst = e'.dst ∧
        e.tag = e1.tag := by
    intro k e' he'
    have hdst : (retag 0 1 successors)[k]?.map Edge.dst = some e'.dst := by
      rw [← List.getElem?_map, dst_retag, List.getElem?_map, he']
      rfl
    obtain ⟨e1, he1, hd⟩ := Option.map_eq_some_iff.1 hdst
    have hlabel : ((m.getSuccessors 1).map fun e => (e.dst, e.tag))[k]? = some (e1.dst, e1.tag) := by
      rw [hlabels, hretag, List.getElem?_map, he1]
      rfl
    rw [List.getElem?_map] at hlabel
    obtain ⟨e, he, heq⟩ := Option.map_eq_some_iff.1 hlabel
    exact ⟨e, e1, he, he1, (Prod.mk.inj heq).1.trans hd, (Prod.mk.inj heq).2⟩
  obtain ⟨f, f1, hf, hf1, hfd, hft⟩ := hplace 0 _ hfirst
  obtain ⟨e, e1, he, he1, hed, het⟩ := hplace 256 _ hlast
  have hftag : f1.tag = some (Symbol.ofBranch 0 1 0) := by
    rcases retag_early hf1 (by decide) with htag | ⟨-, e', he', hnone⟩
    · exact htag
    · rw [hfirst] at he'
      rw [← Option.some.inj he'] at hnone
      simp at hnone
  have hetag : e1.tag = some (Symbol.ofBranch 0 1 0) := by
    have hlate := retag_late 0 1 successors (Nat.le_refl 256)
    rw [he1, hlast] at hlate
    exact Option.some.inj hlate
  cases hes : m.getSuccessors 1 with
  | nil => simp [hes] at hf
  | cons f' l =>
    rw [hes] at hf he
    obtain rfl : f' = f := by simpa using hf
    exact ⟨f', l, e, rfl, List.mem_of_getElem? (by simpa using he), hfd, hed, hft.trans hftag, het.trans hetag⟩

end AbstractCfg

end Liss
