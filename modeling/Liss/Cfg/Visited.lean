/-
The first loop of `minimise`, for any CFG: the edges of every state that it visits.

The loop rewrites the graph that it searches, state 1 first. A removed state that has been visited already (that can
only be state 1) then leads to kept states at once, so that the search of a later state finds the same ones.

- `VisitedInv.expand`: the search of a state in the graph as far as it has been rewritten;
- `retag_early`, `retag_late`: the first 256 edges get their numbers as tags, the later ones keep what they have;
- `minimiseEdges_visited`: afterwards every edge of a reachable state leads to a kept state, to each once, to all that
  are linked, and none is a back edge.
-/
import Liss.Cfg.Passes

namespace Liss

namespace AbstractCfg

variable {c : AbstractCfg} {leaveLockables : Bool}

/-- the edges of a state `u` after its visit -/
structure Visited (c : AbstractCfg) (leaveLockables : Bool) (u : ℕ) (es : List Edge) : Prop where
  kept : ∀ e ∈ es, c.kept leaveLockables e.dst = true
  once : (es.map Edge.dst).Nodup
  unmarked : ∀ e ∈ es, e.backEdge = false
  tag : ∀ k e, es[k]? = some e → k < 256 → ∀ t, e.tag = some t → t = Symbol.ofBranch c.threadId u k
  complete : ∀ ds v, Link c.HasEdge (c.kept leaveLockables) u ds v → c.kept leaveLockables v = true →
    ∃ e ∈ es, e.dst = v

theorem kept_congr {d : AbstractCfg} (h : d.states = c.states) (leaveLockables : Bool) :
    d.kept leaveLockables = c.kept leaveLockables := by
  funext id
  simp only [kept, getState, h]

theorem remain_congr {d : AbstractCfg} (h : d.states = c.states) (leaveLockables : Bool) :
    d.remain leaveLockables = c.remain leaveLockables := by
  simp only [remain, getState, h]

theorem unmarked_retag (threadId next : ℕ) (successors : List Edge) :
    ∀ e ∈ retag threadId next successors, e.backEdge = false :=
  retag_all (fun _ _ => rfl) fun _ _ he => he

theorem dst_retag (threadId next : ℕ) (successors : List Edge) :
    (retag threadId next successors).map Edge.dst = successors.map Edge.dst := by
  have h := congrArg (List.map Prod.fst) (shape_retag threadId next successors)
  simpa [List.map_map, Function.comp_def, Edge.shape] using h

theorem retag_concat (threadId next : ℕ) (l : List Edge) (e : Edge) : retag threadId next (l ++ [e]) =
    if e.tag.isSome then tagEdge threadId next (retag threadId next l ++ [{ e with backEdge := false }]) l.length
    else retag threadId next l ++ [{ e with backEdge := false }] := by
  have hlen : (retag threadId next l).length = l.length := by
    simpa using congrArg List.length (dst_retag threadId next l)
  rw [retag, List.foldl_append]
  simp only [List.foldl_cons, List.foldl_nil]
  rw [← retag, List.length_append, hlen, List.length_singleton, Nat.add_sub_cancel]

/-- **Numbers of edges.** One of the first 256 edges carries its number, unless it had no tag. -/
theorem retag_early {threadId next : ℕ} {successors : List Edge} {k : ℕ} {e : Edge}
    (he : (retag threadId next successors)[k]? = some e) (hk : k < 256) :
    e.tag = some (Symbol.ofBranch threadId next k) ∨
      e.tag = none ∧ ∃ e', successors[k]? = some e' ∧ e'.tag = none := by
  induction successors using List.reverseRecOn generalizing e with
  | nil => simp [retag] at he
  | append_singleton l e' ih =>
    have hlen : (retag threadId next l).length = l.length := by
      simpa using congrArg List.length (dst_retag threadId next l)
    -- an edge before the new one, and the new one if it has no tag
    have hold : ∀ e0, (retag threadId next l ++ [{ e' with backEdge := false }])[k]? = some e0 →
        (k = l.length → e'.tag = none) → e0.tag = some (Symbol.ofBranch threadId next k) ∨
          e0.tag = none ∧ ∃ e'', (l ++ [e'])[k]? = some e'' ∧ e''.tag = none := by
      intro e0 hget hlast
      rw [List.getElem?_append, hlen] at hget
      split_ifs at hget with hlt
      · rw [List.getElem?_append_left hlt]
        exact ih hget
      · obtain ⟨h0, rfl⟩ := List.getElem?_eq_some_iff.1 hget
        obtain rfl : k = l.length := by simp at h0; omega
        have hnone := hlast rfl
        exact Or.inr ⟨by simpa using hnone, e', by simp, hnone⟩
    rw [retag_concat] at he
    split_ifs at he with htag
    · simp only [tagEdge, List.getElem?_modify] at he
      obtain ⟨e0, he0, rfl⟩ := Option.map_eq_some_iff.1 he
      by_cases hmod : l.length % 256 = k
      · simp [hmod]
      · simp only [if_neg hmod]
        exact hold e0 he0 fun hkl => absurd (Nat.mod_eq_of_lt (hkl ▸ hk)) (hkl ▸ hmod)
    · exact hold e he fun _ => by simpa using htag

/-- from the 257th on an edge keeps the tag that it had -/
theorem retag_late (threadId next : ℕ) (successors : List Edge) {k : ℕ} (hk : 256 ≤ k) :
    (retag threadId next successors)[k]?.map Edge.tag = successors[k]?.map Edge.tag := by
  induction successors using List.reverseRecOn with
  | nil => simp [retag]
  | append_singleton l e ih =>
    have hlen : (retag threadId next l).length = l.length := by
      simpa using congrArg List.length (dst_retag threadId next l)
    have happ : (retag threadId next l ++ [{ e with backEdge := false }])[k]?.map Edge.tag =
        (l ++ [e])[k]?.map Edge.tag := by
      rw [List.getElem?_append, List.getElem?_append, hlen]
      split_ifs
      · exact ih
      · cases k - l.length <;> rfl
    have hmod : l.length % 256 ≠ k := by
      have := Nat.mod_lt l.length (show 256 > 0 by decide)
      omega
    rw [retag_concat]
    split_ifs
    · rw [tagEdge, List.getElem?_modify_ne _ _ hmod]
      exact happ
    · exact happ

/-- the loop: what has been seen, and what it leads to -/
structure VisitedInv (c : AbstractCfg) (leaveLockables : Bool) (st : AbstractCfg × List ℕ) (q : List ℕ) : Prop where
  threadId : st.1.threadId = c.threadId
  states : st.1.states = c.states
  untouched : ∀ id, id ∉ st.2 → st.1.getSuccessors id = c.getSuccessors id
  visited : ∀ id ∈ st.2, c.Visited leaveLockables id (st.1.getSuccessors id)
  closed : ∀ id ∈ st.2, ∀ e ∈ st.1.getSuccessors id, e.dst ∈ st.2 ∨ e.dst ∈ q
  start : 1 ∈ st.2 ∨ 1 ∈ q

/-- a state that is visited, in the graph as far as it has been rewritten -/
theorem VisitedInv.expand {st : AbstractCfg × List ℕ} {q : List ℕ} (h : c.VisitedInv leaveLockables st q) {fuel next : ℕ}
    {successors : List Edge} (hex : st.1.expand (c.remain leaveLockables) fuel next = some successors) :
    c.Visited leaveLockables next (retag st.1.threadId next successors) := by
  rw [← remain_congr h.states] at hex
  obtain ⟨hkept, honce, hcomplete⟩ := expand_search hex
  rw [kept_congr h.states] at hkept hcomplete
  have hdst : ∀ v, (∃ e ∈ retag st.1.threadId next successors, e.dst = v) ↔ ∃ e ∈ successors, e.dst = v := by
    intro v
    rw [← List.mem_map, ← List.mem_map, dst_retag]
  have hmixed : ∀ u, (∀ v, c.HasEdge u v → st.1.HasEdge u v) ∨
      ∀ ds v, Link c.HasEdge (c.kept leaveLockables) u ds v → c.kept leaveLockables v = true → st.1.HasEdge u v := by
    intro u
    by_cases hu : u ∈ st.2
    · exact Or.inr (h.visited u hu).complete
    · left
      intro v hv
      unfold HasEdge at hv ⊢
      rwa [h.untouched u hu]
  refine ⟨fun e he => ?_, by rw [dst_retag]; exact honce, unmarked_retag _ _ _, fun k e he hk t ht => ?_,
    fun ds v hl hk => ?_⟩
  · obtain ⟨e', he', hd⟩ := (hdst e.dst).1 ⟨e, he, rfl⟩
    exact hd ▸ hkept e' he'
  · rw [← h.threadId]
    rcases retag_early he hk with hsome | ⟨hnone, -⟩
    · exact Option.some.inj (ht.symm.trans hsome)
    · simp [hnone] at ht
  · obtain ⟨ds', hl'⟩ := hl.mixed hmixed hk
    exact (hdst v).2 (hcomplete ds' v hl' hk)

/-- a state that has been seen is left out -/
theorem VisitedInv.skip {st : AbstractCfg × List ℕ} {next : ℕ} {q : List ℕ}
    (h : c.VisitedInv leaveLockables st (next :: q)) (hseen : next ∈ st.2) : c.VisitedInv leaveLockables st q := by
  have hmove : ∀ id, id ∈ st.2 ∨ id ∈ next :: q → id ∈ st.2 ∨ id ∈ q := by
    intro id hid
    rcases hid with hid | hid
    · exact .inl hid
    · rcases List.mem_cons.1 hid with rfl | hid
      · exact .inl hseen
      · exact .inr hid
  exact ⟨h.threadId, h.states, h.untouched, h.visited, fun id hid e he => hmove _ (h.closed id hid e he),
    hmove 1 h.start⟩

/-- the new edges of a state; past the end of the vectors there are none, and nothing is linked -/
theorem VisitedInv.visited_next {st : AbstractCfg × List ℕ} {q : List ℕ} (h : c.VisitedInv leaveLockables st q)
    {next : ℕ} (hseen : next ∉ st.2) {es : List Edge} (hes : c.Visited leaveLockables next es) :
    c.Visited leaveLockables next ((st.1.setEdges next es).getSuccessors next) ∧
      ∀ e ∈ (st.1.setEdges next es).getSuccessors next, e ∈ es := by
  rw [getSuccessors_setEdges]
  split_ifs with hlt
  · exact ⟨hes, fun e he => he⟩
  · have hnil : st.1.getSuccessors next = [] := by
      rw [getSuccessors, List.getD_eq_default _ _ (by omega)]
    have hnone : c.getSuccessors next = [] := by rw [← h.untouched next hseen, hnil]
    rw [hnil]
    refine ⟨⟨by simp, by simp, by simp, by simp, fun ds v hl hk => ?_⟩, by simp⟩
    obtain ⟨x, e, he, -⟩ := hl.exists_first
    simp [hnone] at he

/-- a new state gets its edges, and their targets are queued -/
theorem VisitedInv.visit {st : AbstractCfg × List ℕ} {next : ℕ} {q new : List ℕ}
    (h : c.VisitedInv leaveLockables st (next :: q)) (hseen : next ∉ st.2) {es : List Edge}
    (hes : c.Visited leaveLockables next es) (hdst : es.map Edge.dst = new) :
    c.VisitedInv leaveLockables (st.1.setEdges next es, next :: st.2) (q ++ new) := by
  obtain ⟨hnew, hsub⟩ := h.visited_next hseen hes
  have hmove : ∀ id, id ∈ st.2 ∨ id ∈ next :: q → id ∈ next :: st.2 ∨ id ∈ q ++ new := by
    intro id hid
    rcases hid with hid | hid
    · exact .inl (List.mem_cons_of_mem _ hid)
    · rcases List.mem_cons.1 hid with rfl | hid
      · exact .inl List.mem_cons_self
      · exact .inr (List.mem_append_left _ hid)
  have hother : ∀ id, id ≠ next → (st.1.setEdges next es).getSuccessors id = st.1.getSuccessors id := by
    intro id hid
    rw [getSuccessors_setEdges, if_neg fun hh => hid hh.1.symm]
  refine ⟨h.threadId, h.states, fun id hid => ?_, fun id hid => ?_, fun id hid e he => ?_, hmove 1 h.start⟩
  · obtain ⟨h1, h2⟩ : id ≠ next ∧ id ∉ st.2 := by simpa using hid
    exact (hother id h1).trans (h.untouched id h2)
  · by_cases h1 : id = next
    · exact h1 ▸ hnew
    · rw [hother id h1]
      exact h.visited id ((List.mem_cons.1 hid).resolve_left h1)
  · by_cases h1 : id = next
    · subst h1
      rw [← hdst]
      exact .inr (List.mem_append_right _ (List.mem_map_of_mem (hsub e he)))
    · rw [hother id h1] at he
      exact hmove _ (h.closed id ((List.mem_cons.1 hid).resolve_left h1) e he)

theorem visitedInv_step {st st' : AbstractCfg × List ℕ} {next : ℕ} {q new : List ℕ} {fuel : ℕ}
    (h : c.VisitedInv leaveLockables st (next :: q))
    (hs : minimiseStep (c.remain leaveLockables) fuel st next = some (st', new)) :
    c.VisitedInv leaveLockables st' (q ++ new) := by
  rw [minimiseStep] at hs
  split_ifs at hs with hseen
  · simp only [Option.some.injEq, Prod.mk.injEq] at hs
    obtain ⟨rfl, rfl⟩ := hs
    rw [List.append_nil]
    exact h.skip (by simpa using hseen)
  · obtain ⟨successors, hex, heq⟩ := Option.map_eq_some_iff.1 hs
    simp only [Prod.mk.injEq] at heq
    obtain ⟨rfl, rfl⟩ := heq
    exact h.visit (by simpa using hseen) (h.expand hex) (dst_retag _ _ _)

/-- **The visited states.** -/
theorem minimiseEdges_visited {fuel : ℕ} {c' : AbstractCfg} (h : c.minimiseEdges leaveLockables fuel = some c')
    {u : ℕ} (hu : Relation.ReflTransGen c'.HasEdge 1 u) : c.Visited leaveLockables u (c'.getSuccessors u) := by
  unfold minimiseEdges at h
  obtain ⟨st, hrun, rfl⟩ := Option.map_eq_some_iff.1 h
  have hi : c.VisitedInv leaveLockables st [] :=
    Worklist.run_inv (c.VisitedInv leaveLockables) (fun _ _ _ _ _ hi hs => visitedInv_step hi hs)
      ⟨rfl, rfl, fun _ _ => rfl, by simp, by simp, by simp⟩ hrun
  have hseen : u ∈ st.2 := by
    induction hu with
    | refl => simpa using hi.start
    | tail _ huv ih =>
      obtain ⟨e, he, rfl⟩ := huv
      simpa using hi.closed _ ih e he
  exact hi.visited u hseen

end AbstractCfg

end Liss
