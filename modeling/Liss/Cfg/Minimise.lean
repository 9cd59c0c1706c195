/-
`minimise` keeps the behaviour of a thread.

The graph of a CFG is the relation `HasEdge`. A state is kept if it has an action, is final, or can be locked while the
lockable states are left alone. The inner loop of `minimise` computes for one state the kept states that it has a link
to, the outer loop does so for every state it reaches, and the other two loops change distances, costs and back edges
only. So the new graph is a contraction of the old one.

- `expand_exact`, `expand_total`: the inner loop ends, with exactly the linked kept states, each once, with a link;
- `minimiseEdges_exact`: so does the outer loop, for every reachable state that is kept and for state 1;
- `minimise_correct`: the same for `minimise`, with the sequences of kept states along the paths from state 1.

The CFGs meant are those without an edge into state 1 whose edges have no in-between states yet.
-/
import Liss.Lib.Contraction
import Liss.Cfg.AbstractCfg

namespace Liss

/-- where an edge leads and over which states -/
def Edge.shape (e : Edge) : ℕ × List ℕ := (e.dst, e.inBetweeners)

namespace AbstractCfg

/-- has an action, is final, or is lockable when `leave_lockables` -/
def kept (c : AbstractCfg) (leaveLockables : Bool) (id : ℕ) : Bool :=
  (c.getState id).action.isSome || (c.getState id).final || (leaveLockables && (c.getState id).lockable)

/-- the edges of `u` lead to exactly the kept states that `u` has a link to, to each once and with a link -/
structure Exact (c : AbstractCfg) (leaveLockables : Bool) (u : ℕ) (es : List Edge) : Prop where
  sound : ∀ e ∈ es, c.kept leaveLockables e.dst = true ∧ Link c.HasEdge (c.kept leaveLockables) u e.inBetweeners e.dst
  once : (es.map Edge.dst).Nodup
  complete : ∀ ds v, Link c.HasEdge (c.kept leaveLockables) u ds v → c.kept leaveLockables v = true →
    ∃ e ∈ es, e.dst = v

/-- no edge leads into state 1, and the edges have no in-between states yet -/
structure Fresh (c : AbstractCfg) : Prop where
  entry : ∀ u, ¬c.HasEdge u 1
  direct : ∀ u, ∀ e ∈ c.getSuccessors u, e.inBetweeners = []

variable {c : AbstractCfg} {leaveLockables : Bool}

theorem removable_remain (c : AbstractCfg) (leaveLockables : Bool) (id : ℕ) :
    c.removable (c.remain leaveLockables) id = !c.kept leaveLockables id := by
  have hrem : (c.remain leaveLockables).contains id = (leaveLockables && (c.getState id).lockable) := by
    cases leaveLockables with
    | false => simp [remain]
    | true =>
      apply Bool.eq_iff_iff.2
      simp only [remain, if_true, List.contains_iff_mem, List.mem_filter, List.mem_range, Bool.true_and,
        and_iff_right_iff_imp]
      intro hl
      by_contra hid
      rw [getState, List.getD_eq_default _ _ (by omega)] at hl
      simp [State.lockable, show (default : State) = {} from rfl] at hl
  rw [removable, kept, hrem]
  cases (c.getState id).action <;> cases (c.getState id).final <;> simp

theorem exact_of_shape {u : ℕ} {es es' : List Edge} (h : c.Exact leaveLockables u es)
    (hs : es'.map Edge.shape = es.map Edge.shape) : c.Exact leaveLockables u es' := by
  have hdst : es'.map Edge.dst = es.map Edge.dst := by
    have := congrArg (List.map Prod.fst) hs
    simpa [List.map_map, Function.comp_def, Edge.shape] using this
  have hmem : ∀ e' ∈ es', ∃ e ∈ es, e.dst = e'.dst ∧ e.inBetweeners = e'.inBetweeners := by
    intro e' he'
    have : Edge.shape e' ∈ es.map Edge.shape := hs ▸ List.mem_map_of_mem he'
    obtain ⟨e, he, heq⟩ := List.mem_map.1 this
    exact ⟨e, he, congrArg Prod.fst heq, congrArg Prod.snd heq⟩
  refine ⟨fun e' he' => ?_, hdst ▸ h.once, fun ds v hl hk => ?_⟩
  · obtain ⟨e, he, h1, h2⟩ := hmem e' he'
    rw [← h1, ← h2]
    exact h.sound e he
  · obtain ⟨e, he, rfl⟩ := h.complete ds v hl hk
    have : e.dst ∈ es'.map Edge.dst := hdst ▸ List.mem_map_of_mem he
    exact List.mem_map.1 this

/-! ## The inner loop -/

theorem dst_insertTo (e : Edge) (l : List Edge) (v : ℕ) :
    (∃ f ∈ e.insertTo l, f.dst = v) ↔ e.dst = v ∨ ∃ f ∈ l, f.dst = v := by
  induction l with
  | nil => simp [Edge.insertTo]
  | cons g l ih =>
    rw [Edge.insertTo]
    split_ifs with h1 h2
    · simp
    · simp only [List.mem_cons, exists_eq_or_imp, h2]
      tauto
    · simp only [List.mem_cons, exists_eq_or_imp, ih]
      tauto

theorem sorted_insertTo {e : Edge} {l : List Edge} (h : l.Pairwise fun f g => f.dst < g.dst) :
    (e.insertTo l).Pairwise fun f g => f.dst < g.dst := by
  induction l with
  | nil => simp [Edge.insertTo]
  | cons g l ih =>
    obtain ⟨hg, hl⟩ := List.pairwise_cons.1 h
    rw [Edge.insertTo]
    split_ifs with h1 h2
    · refine List.pairwise_cons.2 ⟨fun f hf => ?_, h⟩
      rcases List.mem_cons.1 hf with rfl | hf
      · exact h1
      · exact h1.trans (hg f hf)
    · exact h
    · refine List.pairwise_cons.2 ⟨fun f hf => ?_, ih hl⟩
      have hdst : e.dst = f.dst ∨ ∃ f' ∈ l, f'.dst = f.dst := (dst_insertTo e l f.dst).1 ⟨f, hf, rfl⟩
      rcases hdst with hd | ⟨f', hf', hd⟩
      · omega
      · rw [← hd]
        exact hg f' hf'

/-- all edge targets -/
def targets (c : AbstractCfg) : List ℕ := c.edges.flatten.map Edge.dst

theorem mem_targets {u : ℕ} {e : Edge} (he : e ∈ c.getSuccessors u) : e.dst ∈ c.targets := by
  obtain ⟨es, hes, hm⟩ := mem_edges_of_getSuccessors he
  exact List.mem_map_of_mem (List.mem_flatten.2 ⟨es, hes, hm⟩)

theorem length_getSuccessors_le (c : AbstractCfg) (u : ℕ) : (c.getSuccessors u).length ≤ c.targets.length := by
  unfold getSuccessors targets
  by_cases hu : u < c.edges.length
  · rw [List.getD_eq_getElem _ _ hu, List.length_map]
    exact List.Sublist.length_le (List.sublist_flatten_of_mem (List.getElem_mem hu))
  · rw [List.getD_eq_default _ _ (by omega)]
    exact Nat.zero_le _

/-- the state of the inner loop for `next`, `seenInner` and `successors`, and the edges still to be looked at: what the
search has found, and what it has still to find -/
structure SearchInv (c : AbstractCfg) (leaveLockables : Bool) (next : ℕ) (st : List ℕ × List Edge) (q : List Edge) :
    Prop where
  kept : ∀ e ∈ st.2, c.kept leaveLockables e.dst = true
  sorted : st.2.Pairwise fun f g => f.dst < g.dst
  first : ∀ v, c.HasEdge next v → v ∈ st.1 ∨ ∃ e ∈ q, e.dst = v
  closed : ∀ x ∈ st.1, c.kept leaveLockables x = false → ∀ v, c.HasEdge x v → v ∈ st.1 ∨ ∃ e ∈ q, e.dst = v
  found : ∀ x ∈ st.1, c.kept leaveLockables x = true → ∃ e ∈ st.2, e.dst = x

theorem searchInv_init (c : AbstractCfg) (leaveLockables : Bool) (next : ℕ) :
    c.SearchInv leaveLockables next ([], []) (c.getSuccessors next) :=
  ⟨by simp, .nil, fun _ hv => Or.inr hv, by simp, by simp⟩

/-- what was queued is seen now or still queued -/
theorem seen_or_queued {seen : List ℕ} {edgeTo : Edge} {q new : List Edge} {v : ℕ}
    (h : v ∈ seen ∨ ∃ e ∈ edgeTo :: q, e.dst = v) : v ∈ edgeTo.dst :: seen ∨ ∃ e ∈ q ++ new, e.dst = v := by
  rcases h with hv | ⟨e, he, rfl⟩
  · exact Or.inl (List.mem_cons_of_mem _ hv)
  · rcases List.mem_cons.1 he with rfl | he
    · exact Or.inl List.mem_cons_self
    · exact Or.inr ⟨e, List.mem_append_left _ he, rfl⟩

/-- the edges that are joined to one to a removed state -/
def joined (c : AbstractCfg) (seen : List ℕ) (edgeTo : Edge) : List Edge :=
  ((c.getSuccessors edgeTo.dst).filter fun edge2 => !(edgeTo.dst :: seen).contains edge2.dst).map (joinEdge edgeTo)

theorem mem_joined {seen : List ℕ} {edgeTo e : Edge} : e ∈ c.joined seen edgeTo ↔
    ∃ e2 ∈ c.getSuccessors edgeTo.dst, e2.dst ∉ edgeTo.dst :: seen ∧ joinEdge edgeTo e2 = e := by
  simp only [joined, List.mem_map, List.mem_filter, Bool.not_eq_true', List.contains_eq_mem, decide_eq_false_iff_not,
    and_assoc]

theorem expandStep_kept {st : List ℕ × List Edge} {edgeTo : Edge} (hk : c.kept leaveLockables edgeTo.dst = true) :
    c.expandStep (c.remain leaveLockables) st edgeTo = some ((edgeTo.dst :: st.1, edgeTo.insertTo st.2), []) := by
  simp [expandStep, removable_remain, hk]

theorem expandStep_removed {st : List ℕ × List Edge} {edgeTo : Edge} (hk : c.kept leaveLockables edgeTo.dst = false) :
    c.expandStep (c.remain leaveLockables) st edgeTo =
      some ((edgeTo.dst :: st.1, st.2), c.joined st.1 edgeTo) := by
  simp [expandStep, removable_remain, hk, joined]

/-- one edge of the inner loop -/
theorem searchInv_step {next : ℕ} {st st' : List ℕ × List Edge} {edgeTo : Edge} {q new : List Edge}
    (h : c.SearchInv leaveLockables next st (edgeTo :: q))
    (hs : c.expandStep (c.remain leaveLockables) st edgeTo = some (st', new)) :
    c.SearchInv leaveLockables next st' (q ++ new) := by
  cases hk : c.kept leaveLockables edgeTo.dst with
  | true =>
    rw [expandStep_kept hk, Option.some.injEq, Prod.mk.injEq] at hs
    obtain ⟨rfl, rfl⟩ := hs
    refine ⟨fun e he => ?_, sorted_insertTo h.sorted, fun v hv => seen_or_queued (h.first v hv), fun x hx hxk v hv => ?_,
      fun x hx hxk => ?_⟩
    · rcases mem_insertTo he with rfl | he
      · exact hk
      · exact h.kept e he
    · rcases List.mem_cons.1 hx with rfl | hx
      · simp [hk] at hxk
      · exact seen_or_queued (h.closed x hx hxk v hv)
    · rw [dst_insertTo]
      rcases List.mem_cons.1 hx with rfl | hx
      · exact Or.inl rfl
      · exact Or.inr (h.found x hx hxk)
  | false =>
    rw [expandStep_removed hk, Option.some.injEq, Prod.mk.injEq] at hs
    obtain ⟨rfl, rfl⟩ := hs
    refine ⟨h.kept, h.sorted, fun v hv => seen_or_queued (h.first v hv), fun x hx hxk v hv => ?_, fun x hx hxk => ?_⟩
    · rcases List.mem_cons.1 hx with rfl | hx
      · -- the successors of the removed state are queued now
        obtain ⟨e2, he2, rfl⟩ := hv
        by_cases hs : e2.dst ∈ edgeTo.dst :: st.1
        · exact Or.inl hs
        · exact Or.inr ⟨_, List.mem_append_right _ (mem_joined.2 ⟨e2, he2, hs, rfl⟩), rfl⟩
      · exact seen_or_queued (h.closed x hx hxk v hv)
    · rcases List.mem_cons.1 hx with rfl | hx
      · simp [hk] at hxk
      · exact h.found x hx hxk

/-- **The search is complete,** whatever the shape of the graph: the successors are kept, each once, and all linked
states that are kept are among them. -/
theorem expand_search {fuel next : ℕ} {successors : List Edge}
    (h : c.expand (c.remain leaveLockables) fuel next = some successors) :
    (∀ e ∈ successors, c.kept leaveLockables e.dst = true) ∧ (successors.map Edge.dst).Nodup ∧
      ∀ ds v, Link c.HasEdge (c.kept leaveLockables) next ds v → c.kept leaveLockables v = true →
        ∃ e ∈ successors, e.dst = v := by
  unfold expand at h
  obtain ⟨st, hrun, rfl⟩ := Option.map_eq_some_iff.1 h
  have hi : c.SearchInv leaveLockables next st [] :=
    Worklist.run_inv (c.SearchInv leaveLockables next) (fun _ _ _ _ _ hi hs => searchInv_step hi hs)
      (searchInv_init c leaveLockables next) hrun
  refine ⟨hi.kept, ?_, fun ds v hl hk => ?_⟩
  · have : (st.2.map Edge.dst).Pairwise (· < ·) := List.pairwise_map.2 hi.sorted
    exact this.imp fun hlt => Nat.ne_of_lt hlt
  · have hseen : ∀ ds v, Link c.HasEdge (c.kept leaveLockables) next ds v → v ∈ st.1 := by
      intro ds
      induction ds using List.reverseRecOn with
      | nil =>
        intro v hl
        simpa using hi.first v (link_nil.1 hl)
      | append_singleton ds d ih =>
        intro v hl
        obtain ⟨hd, hdk, hv⟩ := link_snoc.1 hl
        simpa using hi.closed d (ih d hd) hdk v hv
    exact hi.found v (hseen ds v hl) hk

/-- the edges still to be looked at, when the graph is fresh: each is a path without repetition -/
structure ExpandInv (c : AbstractCfg) (leaveLockables : Bool) (next : ℕ) (st : List ℕ × List Edge) (q : List Edge) :
    Prop where
  queued : ∀ e ∈ q, Link c.HasEdge (c.kept leaveLockables) next e.inBetweeners e.dst ∧
    (e.inBetweeners ++ [e.dst]).Nodup ∧ (∀ d ∈ e.inBetweeners, d ∈ st.1) ∧ ∀ d ∈ e.inBetweeners ++ [e.dst],
      d ∈ c.targets
  sound : ∀ e ∈ st.2, Link c.HasEdge (c.kept leaveLockables) next e.inBetweeners e.dst

theorem expandInv_init (hc : c.Fresh) (next : ℕ) : c.ExpandInv leaveLockables next ([], []) (c.getSuccessors next) := by
  refine ⟨fun e he => ?_, by simp⟩
  rw [hc.direct next e he]
  refine ⟨link_nil.2 ⟨e, he, rfl⟩, by simp, by simp, ?_⟩
  simpa using mem_targets he

theorem ExpandInv.queued_rest {next : ℕ} {st : List ℕ × List Edge} {edgeTo : Edge} {q : List Edge}
    (h : c.ExpandInv leaveLockables next st (edgeTo :: q)) :
    ∀ e ∈ q, Link c.HasEdge (c.kept leaveLockables) next e.inBetweeners e.dst ∧
      (e.inBetweeners ++ [e.dst]).Nodup ∧ (∀ d ∈ e.inBetweeners, d ∈ edgeTo.dst :: st.1) ∧
      ∀ d ∈ e.inBetweeners ++ [e.dst], d ∈ c.targets := by
  intro e he
  obtain ⟨h1, h2, h3, h4⟩ := h.queued e (List.mem_cons_of_mem _ he)
  exact ⟨h1, h2, fun d hd => List.mem_cons_of_mem _ (h3 d hd), h4⟩

/-- an edge that is joined to one to a removed state -/
theorem ExpandInv.queued_joinEdge (hc : c.Fresh) {next : ℕ} {st : List ℕ × List Edge} {edgeTo : Edge} {q : List Edge}
    (h : c.ExpandInv leaveLockables next st (edgeTo :: q)) (hk : c.kept leaveLockables edgeTo.dst = false) {e2 : Edge}
    (he2 : e2 ∈ c.getSuccessors edgeTo.dst) (hns : e2.dst ∉ edgeTo.dst :: st.1) :
    Link c.HasEdge (c.kept leaveLockables) next (joinEdge edgeTo e2).inBetweeners (joinEdge edgeTo e2).dst ∧
      ((joinEdge edgeTo e2).inBetweeners ++ [(joinEdge edgeTo e2).dst]).Nodup ∧
      (∀ d ∈ (joinEdge edgeTo e2).inBetweeners, d ∈ edgeTo.dst :: st.1) ∧
      ∀ d ∈ (joinEdge edgeTo e2).inBetweeners ++ [(joinEdge edgeTo e2).dst], d ∈ c.targets := by
  obtain ⟨hlink, hnodup, hseen, htarget⟩ := h.queued edgeTo List.mem_cons_self
  have hb : (joinEdge edgeTo e2).inBetweeners = edgeTo.inBetweeners ++ [edgeTo.dst] := by
    simp [joinEdge, hc.direct _ e2 he2]
  have hd : (joinEdge edgeTo e2).dst = e2.dst := rfl
  rw [hb, hd]
  refine ⟨link_snoc.2 ⟨hlink, hk, e2, he2, rfl⟩, ?_, ?_, ?_⟩
  · refine List.nodup_append.2 ⟨hnodup, by simp, fun x hx y hy => ?_⟩
    rw [List.mem_singleton.1 hy]
    rintro rfl
    rcases List.mem_append.1 hx with hx | hx
    · exact hns (List.mem_cons_of_mem _ (hseen _ hx))
    · exact hns (List.mem_cons.2 (Or.inl (List.mem_singleton.1 hx)))
  · intro d hd
    rcases List.mem_append.1 hd with hd | hd
    · exact List.mem_cons_of_mem _ (hseen d hd)
    · exact List.mem_cons.2 (Or.inl (List.mem_singleton.1 hd))
  · intro d hd
    rcases List.mem_append.1 hd with hd | hd
    · exact htarget d hd
    · rw [List.mem_singleton.1 hd]
      exact mem_targets he2

/-- one edge of the inner loop -/
theorem expandInv_step (hc : c.Fresh) {next : ℕ} {st : List ℕ × List Edge} {edgeTo : Edge} {q : List Edge}
    (h : c.ExpandInv leaveLockables next st (edgeTo :: q)) :
    ∃ st' new, c.expandStep (c.remain leaveLockables) st edgeTo = some (st', new) ∧
      c.ExpandInv leaveLockables next st' (q ++ new) ∧ new.length ≤ c.targets.length ∧
      ∀ e ∈ new, e.inBetweeners.length = edgeTo.inBetweeners.length + 1 := by
  cases hk : c.kept leaveLockables edgeTo.dst with
  | true =>
    refine ⟨(edgeTo.dst :: st.1, edgeTo.insertTo st.2), [], expandStep_kept hk, ⟨?_, fun e he => ?_⟩, by simp, by simp⟩
    · rw [List.append_nil]
      exact h.queued_rest
    · rcases mem_insertTo he with rfl | he
      · exact (h.queued e List.mem_cons_self).1
      · exact h.sound e he
  | false =>
    refine ⟨(edgeTo.dst :: st.1, st.2), c.joined st.1 edgeTo, expandStep_removed hk, ⟨fun e he => ?_, h.sound⟩, ?_,
      fun e he => ?_⟩
    · rcases List.mem_append.1 he with he | he
      · exact h.queued_rest e he
      · obtain ⟨e2, he2, hns, rfl⟩ := mem_joined.1 he
        exact h.queued_joinEdge hc hk he2 hns
    · rw [joined, List.length_map]
      exact (List.length_filter_le _ _).trans (length_getSuccessors_le c _)
    · obtain ⟨e2, he2, -, rfl⟩ := mem_joined.1 he
      simp [joinEdge, hc.direct _ e2 he2]

theorem expand_exact (hc : c.Fresh) {fuel next : ℕ} {successors : List Edge}
    (h : c.expand (c.remain leaveLockables) fuel next = some successors) : c.Exact leaveLockables next successors := by
  obtain ⟨hkept, honce, hcomplete⟩ := expand_search h
  unfold expand at h
  obtain ⟨st, hrun, rfl⟩ := Option.map_eq_some_iff.1 h
  have hi : c.ExpandInv leaveLockables next st [] := by
    refine Worklist.run_inv (c.ExpandInv leaveLockables next) ?_ (expandInv_init hc next) hrun
    intro st edgeTo q st' new hi hs
    obtain ⟨st1, new1, hs1, hi1, -⟩ := expandInv_step hc hi
    rw [hs, Option.some.injEq, Prod.mk.injEq] at hs1
    rw [hs1.1, hs1.2]
    exact hi1
  exact ⟨fun e he => ⟨hkept e he, hi.sound e he⟩, honce, hcomplete⟩

/-- how much fuel the inner loop needs: the paths that are looked at have no repetition -/
def expandFuel (c : AbstractCfg) : ℕ :=
  c.targets.length * Worklist.depthWeight c.targets.length c.targets.length 0 + 1

/-- the longer a path is the less it weighs -/
def edgeWeight (c : AbstractCfg) (e : Edge) : ℕ :=
  Worklist.depthWeight c.targets.length c.targets.length e.inBetweeners.length

/-- the frontier of the inner loop gets lighter -/
theorem expandStep_lighter (hc : c.Fresh) {next : ℕ} {st : List ℕ × List Edge} {edgeTo : Edge} {q : List Edge}
    (hi : c.ExpandInv leaveLockables next st (edgeTo :: q)) :
    ∃ st' new, c.expandStep (c.remain leaveLockables) st edgeTo = some (st', new) ∧
      c.ExpandInv leaveLockables next st' (q ++ new) ∧
        Worklist.weight c.edgeWeight (q ++ new) < Worklist.weight c.edgeWeight (edgeTo :: q) := by
  obtain ⟨st', new, hs, hi', hlen, hdepth⟩ := expandInv_step hc hi
  refine ⟨st', new, hs, hi', ?_⟩
  obtain ⟨-, hnodup, -, htarget⟩ := hi.queued edgeTo List.mem_cons_self
  have hlt : edgeTo.inBetweeners.length < c.targets.length := by
    have hle := List.Nodup.length_le_of_subset hnodup htarget
    simpa using hle
  have hw : ∀ e ∈ new, c.edgeWeight e ≤
      Worklist.depthWeight c.targets.length c.targets.length (edgeTo.inBetweeners.length + 1) := by
    intro e he
    rw [edgeWeight, ← hdepth e he]
  exact Worklist.weight_lt hlen hw (Worklist.mul_depthWeight_lt hlt)

theorem weight_getSuccessors (hc : c.Fresh) (next : ℕ) :
    Worklist.weight c.edgeWeight (c.getSuccessors next) < c.expandFuel := by
  have hw : ∀ e ∈ c.getSuccessors next, c.edgeWeight e ≤ Worklist.depthWeight c.targets.length c.targets.length 0 := by
    intro e he
    simp [edgeWeight, hc.direct next e he]
  exact Nat.lt_succ_of_le (Worklist.weight_le (length_getSuccessors_le c next) hw)

theorem expand_total (hc : c.Fresh) (leaveLockables : Bool) {fuel : ℕ} (hf : c.expandFuel ≤ fuel) (next : ℕ) :
    ∃ successors, c.expand (c.remain leaveLockables) fuel next = some successors := by
  obtain ⟨st, hrun⟩ := Worklist.run_total (fun st q => c.ExpandInv leaveLockables next st q)
    (fun _ q => Worklist.weight c.edgeWeight q) (fun _ _ _ hi => expandStep_lighter hc hi) (expandInv_init hc next)
    ((weight_getSuccessors hc next).trans_le hf)
  exact ⟨st.2, by rw [expand, hrun]; rfl⟩

/-! ## The outer loop -/

theorem getSuccessors_setEdges (c : AbstractCfg) (src : ℕ) (es : List Edge) (id : ℕ) :
    (c.setEdges src es).getSuccessors id = if src = id ∧ src < c.edges.length then es else c.getSuccessors id := by
  simp only [getSuccessors, setEdges, List.getD_eq_getElem?_getD, List.getElem?_set]
  by_cases h : src = id
  · by_cases h' : src < c.edges.length
    · simp [← h, h']
    · simp [← h, h']
  · simp [h]

theorem shape_tagEdge (threadId next : ℕ) (es : List Edge) (k : ℕ) :
    (tagEdge threadId next es k).map Edge.shape = es.map Edge.shape := by
  refine List.ext_getElem (by simp [tagEdge]) fun i h1 h2 => ?_
  simp only [tagEdge, List.getElem_map, List.getElem_modify]
  split_ifs <;> rfl

/-- the new edges lead where the successors lead -/
theorem shape_retag (threadId next : ℕ) (successors : List Edge) :
    (retag threadId next successors).map Edge.shape = successors.map Edge.shape := by
  induction successors using List.reverseRecOn with
  | nil => rfl
  | append_singleton l e ih =>
    unfold retag at ih ⊢
    rw [List.foldl_append]
    simp only [List.foldl_cons, List.foldl_nil]
    have happ : ∀ es : List Edge, es.map Edge.shape = l.map Edge.shape →
        (es ++ [{ e with backEdge := false }]).map Edge.shape = (l ++ [e]).map Edge.shape := by
      intro es hes
      rw [List.map_append, List.map_append, hes]
      rfl
    split_ifs
    · rw [shape_tagEdge]
      exact happ _ ih
    · exact happ _ ih

/-- the state of the outer loop: the CFG `d` so far, the states `seen`, and the queue `frontier2` -/
structure MinimiseInv (c : AbstractCfg) (leaveLockables : Bool) (st : AbstractCfg × List ℕ) (q : List ℕ) : Prop where
  states : st.1.states = c.states
  length : st.1.edges.length = c.edges.length
  untouched : ∀ id, id ∉ st.2 → st.1.getSuccessors id = c.getSuccessors id
  seenKept : ∀ id ∈ st.2, id = 1 ∨ c.kept leaveLockables id = true
  queued : ∀ id ∈ q, id = 1 ∨ id ∈ c.targets ∧ c.kept leaveLockables id = true
  exact : ∀ id ∈ st.2, c.Exact leaveLockables id (st.1.getSuccessors id)
  closed : ∀ id ∈ st.2, ∀ e ∈ st.1.getSuccessors id, e.dst ∈ st.2 ∨ e.dst ∈ q
  start : 1 ∈ st.2 ∨ 1 ∈ q

theorem minimiseInv_init (c : AbstractCfg) (leaveLockables : Bool) : c.MinimiseInv leaveLockables (c, []) [1] :=
  ⟨rfl, rfl, fun _ _ => rfl, by simp, by simp, by simp, by simp, by simp⟩

/-- for a state that has not been seen yet the inner loop sees the original graph -/
theorem MinimiseInv.expand_eq (hc : c.Fresh) {st : AbstractCfg × List ℕ} {q : List ℕ}
    (h : c.MinimiseInv leaveLockables st q) {next : ℕ} (hn : next ∉ st.2) (fuel : ℕ) :
    st.1.expand (c.remain leaveLockables) fuel next = c.expand (c.remain leaveLockables) fuel next := by
  have hrem : ∀ id, st.1.removable (c.remain leaveLockables) id = c.removable (c.remain leaveLockables) id := by
    intro id
    simp only [removable, getState, h.states]
  have hstep : ∀ (b : List ℕ × List Edge) e, e.dst ≠ 1 →
      st.1.expandStep (c.remain leaveLockables) b e = c.expandStep (c.remain leaveLockables) b e := by
    intro b e he
    simp only [expandStep, hrem]
    split_ifs with hk
    · -- a removed state other than 1 has not been seen
      have hns : e.dst ∉ st.2 := by
        intro hs
        rcases h.seenKept _ hs with h1 | h1
        · exact he h1
        · rw [removable_remain, h1] at hk
          simp at hk
      rw [h.untouched _ hns]
    · rfl
  unfold expand
  rw [h.untouched next hn]
  congr 1
  refine Worklist.run_congr (fun _ q => ∀ e ∈ q, e.dst ≠ 1) (fun b e q hq => hstep b e (hq e List.mem_cons_self)) ?_ ?_
  · intro b e q b' new hq hs f hf
    rcases List.mem_append.1 hf with hf | hf
    · exact hq f (List.mem_cons_of_mem _ hf)
    · simp only [expandStep] at hs
      split_ifs at hs
      · simp only [Option.some.injEq, Prod.mk.injEq] at hs
        rw [← hs.2] at hf
        obtain ⟨e2, he2, rfl⟩ := List.mem_map.1 hf
        exact fun h1 => hc.entry e.dst ⟨e2, List.mem_of_mem_filter he2, h1⟩
      · simp only [Option.some.injEq, Prod.mk.injEq] at hs
        rw [← hs.2] at hf
        simp at hf
  · exact fun e he h1 => hc.entry next ⟨e, he, h1⟩

theorem Exact.mem_targets {u : ℕ} {es : List Edge} (h : c.Exact leaveLockables u es) :
    ∀ e ∈ es, e.dst ∈ c.targets := by
  intro e he
  have hl := (h.sound e he).2
  rcases List.eq_nil_or_concat e.inBetweeners with hb | ⟨ds, d, hb⟩
  · rw [hb] at hl
    obtain ⟨f, hf, hd⟩ := link_nil.1 hl
    exact hd ▸ AbstractCfg.mem_targets hf
  · rw [hb, List.concat_eq_append] at hl
    obtain ⟨f, hf, hd⟩ := (link_snoc.1 hl).2.2
    exact hd ▸ AbstractCfg.mem_targets hf

/-- a state that has been seen before -/
theorem MinimiseInv.skip {st : AbstractCfg × List ℕ} {next : ℕ} {q : List ℕ}
    (h : c.MinimiseInv leaveLockables st (next :: q)) (hmem : next ∈ st.2) : c.MinimiseInv leaveLockables st q := by
  have hmove : ∀ id, id ∈ st.2 ∨ id ∈ next :: q → id ∈ st.2 ∨ id ∈ q := by
    intro id hid
    rcases hid with hid | hid
    · exact Or.inl hid
    · rcases List.mem_cons.1 hid with rfl | hid
      · exact Or.inl hmem
      · exact Or.inr hid
  exact ⟨h.states, h.length, h.untouched, h.seenKept, fun id hid => h.queued id (List.mem_cons_of_mem _ hid), h.exact,
    fun id hid e he => hmove _ (h.closed id hid e he), hmove 1 h.start⟩

/-- a state without edges has no successors -/
theorem Exact.eq_nil {next : ℕ} {successors : List Edge} (h : c.Exact leaveLockables next successors)
    (hnone : c.getSuccessors next = []) : successors = [] := by
  by_contra hne
  obtain ⟨e, he⟩ := List.exists_mem_of_ne_nil _ hne
  have hl := (h.sound e he).2
  cases hb : e.inBetweeners with
  | nil =>
    rw [hb] at hl
    obtain ⟨f, hf, -⟩ := link_nil.1 hl
    simp [hnone] at hf
  | cons d ds =>
    rw [hb] at hl
    obtain ⟨f, hf, -⟩ := (link_cons.1 hl).1
    simp [hnone] at hf

/-- the edges of a state after its visit -/
theorem MinimiseInv.exact_visited {st : AbstractCfg × List ℕ} {next : ℕ} {q : List ℕ} {successors : List Edge}
    (h : c.MinimiseInv leaveLockables st (next :: q)) (hns : next ∉ st.2)
    (hexact : c.Exact leaveLockables next successors) : c.Exact leaveLockables next
      ((st.1.setEdges next (retag st.1.threadId next successors)).getSuccessors next) := by
  rw [getSuccessors_setEdges]
  split_ifs with hlt
  · exact exact_of_shape hexact (shape_retag _ _ _)
  · -- past the end there are no edges, and no successors either
    have hnone : c.getSuccessors next = [] := by
      rw [getSuccessors, List.getD_eq_default _ _ (by rw [← h.length]; omega)]
    rw [h.untouched next hns, hnone, ← hexact.eq_nil hnone]
    exact hexact

/-- a state that is visited -/
theorem MinimiseInv.visit {st : AbstractCfg × List ℕ} {next : ℕ} {q : List ℕ} {successors : List Edge}
    (h : c.MinimiseInv leaveLockables st (next :: q)) (hns : next ∉ st.2)
    (hexact : c.Exact leaveLockables next successors) : c.MinimiseInv leaveLockables
      (st.1.setEdges next (retag st.1.threadId next successors), next :: st.2) (q ++ successors.map Edge.dst) := by
  have hnew := h.exact_visited hns hexact
  have hother : ∀ id, id ≠ next →
      (st.1.setEdges next (retag st.1.threadId next successors)).getSuccessors id = st.1.getSuccessors id := by
    intro id hid
    rw [getSuccessors_setEdges, if_neg fun hh => hid hh.1.symm]
  have hmove : ∀ id, id ∈ st.2 ∨ id ∈ next :: q → id ∈ next :: st.2 ∨ id ∈ q ++ successors.map Edge.dst := by
    intro id hid
    rcases hid with hid | hid
    · exact Or.inl (List.mem_cons_of_mem _ hid)
    · rcases List.mem_cons.1 hid with rfl | hid
      · exact Or.inl List.mem_cons_self
      · exact Or.inr (List.mem_append_left _ hid)
  refine ⟨h.states, by simp [setEdges, h.length], fun id hid => ?_, fun id hid => ?_, fun id hid => ?_,
    fun id hid => ?_, fun id hid e he => ?_, hmove 1 h.start⟩
  · obtain ⟨h1, h2⟩ : id ≠ next ∧ id ∉ st.2 := by simpa using hid
    rw [hother id h1, h.untouched id h2]
  · rcases List.mem_cons.1 hid with rfl | hid
    · exact (h.queued id List.mem_cons_self).imp_right And.right
    · exact h.seenKept id hid
  · rcases List.mem_append.1 hid with hid | hid
    · exact h.queued id (List.mem_cons_of_mem _ hid)
    · obtain ⟨e, he, rfl⟩ := List.mem_map.1 hid
      exact Or.inr ⟨hexact.mem_targets e he, (hexact.sound e he).1⟩
  · by_cases h1 : id = next
    · exact h1 ▸ hnew
    · rw [hother id h1]
      exact h.exact id ((List.mem_cons.1 hid).resolve_left h1)
  · by_cases h1 : id = next
    · subst h1
      obtain ⟨hk, hl⟩ := hnew.sound e he
      obtain ⟨f, hf, hd⟩ := hexact.complete _ _ hl hk
      exact Or.inr (List.mem_append_right _ (hd ▸ List.mem_map_of_mem hf))
    · rw [hother id h1] at he
      exact hmove _ (h.closed id ((List.mem_cons.1 hid).resolve_left h1) e he)

/-- one state of the outer loop -/
theorem minimiseInv_step (hc : c.Fresh) {st st' : AbstractCfg × List ℕ} {next : ℕ} {q new : List ℕ} {fuel : ℕ}
    (h : c.MinimiseInv leaveLockables st (next :: q))
    (hs : minimiseStep (c.remain leaveLockables) fuel st next = some (st', new)) :
    c.MinimiseInv leaveLockables st' (q ++ new) := by
  rw [minimiseStep] at hs
  split_ifs at hs with hseen
  · simp only [Option.some.injEq, Prod.mk.injEq] at hs
    obtain ⟨rfl, rfl⟩ := hs
    rw [List.append_nil]
    exact h.skip (by simpa using hseen)
  · have hns : next ∉ st.2 := by simpa using hseen
    rw [h.expand_eq hc hns] at hs
    obtain ⟨successors, hex, heq⟩ := Option.map_eq_some_iff.1 hs
    simp only [Prod.mk.injEq] at heq
    obtain ⟨rfl, rfl⟩ := heq
    exact h.visit hns (expand_exact hc hex)

/-- how much fuel the outer loop needs -/
def edgesFuel (c : AbstractCfg) : ℕ :=
  c.expandFuel + Worklist.unseen (1 :: c.targets) [] * (c.targets.length + 2) + 2

theorem Exact.length_le {u : ℕ} {es : List Edge} (h : c.Exact leaveLockables u es) : es.length ≤ c.targets.length := by
  have hsub : es.map Edge.dst ⊆ c.targets := by
    intro v hv
    obtain ⟨e, he, rfl⟩ := List.mem_map.1 hv
    exact h.mem_targets e he
  simpa using List.Nodup.length_le_of_subset h.once hsub

/-- the states that have not been visited count more than the queue -/
def visitWeight (c : AbstractCfg) (st : AbstractCfg × List ℕ) (q : List ℕ) : ℕ :=
  Worklist.unseen (1 :: c.targets) st.2 * (c.targets.length + 2) + q.length

/-- the queue of the outer loop gets lighter -/
theorem minimiseStep_lighter (hc : c.Fresh) {fuel : ℕ} (hexp : c.expandFuel ≤ fuel) {st : AbstractCfg × List ℕ}
    {next : ℕ} {q : List ℕ} (hi : c.MinimiseInv leaveLockables st (next :: q)) :
    ∃ st' new, minimiseStep (c.remain leaveLockables) fuel st next = some (st', new) ∧
      c.MinimiseInv leaveLockables st' (q ++ new) ∧ c.visitWeight st' (q ++ new) < c.visitWeight st (next :: q) := by
  by_cases hseen : next ∈ st.2
  · have hs : minimiseStep (c.remain leaveLockables) fuel st next = some (st, []) := by
      rw [minimiseStep, if_pos (by simpa using hseen)]
    exact ⟨st, [], hs, minimiseInv_step hc hi hs, by simp [visitWeight]⟩
  · obtain ⟨successors, hex⟩ := expand_total hc leaveLockables hexp next
    have hs : minimiseStep (c.remain leaveLockables) fuel st next = some
        ((st.1.setEdges next (retag st.1.threadId next successors), next :: st.2), successors.map Edge.dst) := by
      rw [minimiseStep, if_neg (by simpa using hseen), hi.expand_eq hc hseen, hex]
      rfl
    refine ⟨_, _, hs, minimiseInv_step hc hi hs, ?_⟩
    have hlen : successors.length ≤ c.targets.length := (expand_exact hc hex).length_le
    have huniv : next ∈ 1 :: c.targets := by
      rcases hi.queued next List.mem_cons_self with h1 | h1
      · exact h1 ▸ List.mem_cons_self
      · exact List.mem_cons_of_mem _ h1.1
    -- one more state has been visited, which pays for its successors
    have hless := Worklist.unseen_lt huniv hseen
    have hmul := Nat.mul_le_mul_right (c.targets.length + 2) hless
    simp only [visitWeight, List.length_append, List.length_map, List.length_cons]
    rw [Nat.succ_mul] at hmul
    omega

theorem minimiseEdges_total (hc : c.Fresh) (leaveLockables : Bool) {fuel : ℕ} (hf : c.edgesFuel ≤ fuel) :
    ∃ c', c.minimiseEdges leaveLockables fuel = some c' := by
  have hexp : c.expandFuel ≤ fuel := by
    unfold edgesFuel at hf
    omega
  have hinit : c.visitWeight (c, []) [1] < fuel := by
    simp only [visitWeight, List.length_singleton]
    unfold edgesFuel at hf
    omega
  obtain ⟨st, hrun⟩ := Worklist.run_total (c.MinimiseInv leaveLockables) c.visitWeight
    (fun _ _ _ hi => minimiseStep_lighter hc hexp hi) (minimiseInv_init c leaveLockables) hinit
  exact ⟨st.1, by rw [minimiseEdges, hrun]; rfl⟩

theorem expand_mono {remain : List ℕ} {fuel fuel' next : ℕ} {successors : List Edge}
    (h : c.expand remain fuel next = some successors) (hle : fuel ≤ fuel') :
    c.expand remain fuel' next = some successors := by
  unfold expand at h ⊢
  obtain ⟨st, hrun, rfl⟩ := Option.map_eq_some_iff.1 h
  rw [Worklist.run_mono hrun hle]
  rfl

theorem minimiseEdges_mono {fuel fuel' : ℕ} {c' : AbstractCfg} (h : c.minimiseEdges leaveLockables fuel = some c')
    (hle : fuel ≤ fuel') : c.minimiseEdges leaveLockables fuel' = some c' := by
  have hstep : ∀ st next p, minimiseStep (c.remain leaveLockables) fuel st next = some p →
      minimiseStep (c.remain leaveLockables) fuel' st next = some p := by
    intro st next p hs
    rw [minimiseStep] at hs ⊢
    split_ifs at hs ⊢
    · exact hs
    · obtain ⟨successors, hex, rfl⟩ := Option.map_eq_some_iff.1 hs
      rw [expand_mono hex hle]
      rfl
  unfold minimiseEdges at h ⊢
  obtain ⟨st, hrun, rfl⟩ := Option.map_eq_some_iff.1 h
  rw [Worklist.run_mono (Worklist.run_le hstep hrun) hle]
  rfl

/-- **The new edges.** Every reachable kept state, and state 1, has exactly the linked kept states as successors. -/
theorem minimiseEdges_exact (hc : c.Fresh) {fuel : ℕ} {c' : AbstractCfg}
    (h : c.minimiseEdges leaveLockables fuel = some c') :
    c'.states = c.states ∧
      (∀ u, u = 1 ∨ c.kept leaveLockables u = true → Relation.ReflTransGen c.HasEdge 1 u →
        c.Exact leaveLockables u (c'.getSuccessors u)) := by
  unfold minimiseEdges at h
  obtain ⟨st, hrun, rfl⟩ := Option.map_eq_some_iff.1 h
  have hi : c.MinimiseInv leaveLockables st [] :=
    Worklist.run_inv (c.MinimiseInv leaveLockables) (fun _ _ _ _ _ hi hs => minimiseInv_step hc hi hs)
      (minimiseInv_init c leaveLockables) hrun
  refine ⟨hi.states, fun u hu hreach => hi.exact u ?_⟩
  have hstart : 1 ∈ st.2 := by simpa using hi.start
  have hclosed : ∀ u ds v, u ∈ st.2 → Link c.HasEdge (c.kept leaveLockables) u ds v →
      c.kept leaveLockables v = true → v ∈ st.2 := by
    intro u ds v hu hl hk
    obtain ⟨e, he, rfl⟩ := (hi.exact u hu).complete ds v hl hk
    simpa using hi.closed u hu e he
  obtain ⟨x, hx, ht⟩ := through_closed (S := fun u => u ∈ st.2) hclosed hstart hreach
  rcases hu with rfl | hk
  · exact hstart
  · rcases ht with rfl | ⟨hn, -⟩
    · exact hx
    · simp [hk] at hn

/-! ## Distances and costs -/

/-- same edges up to tags, costs and back edges, same states up to distances -/
structure SameGraph (d c : AbstractCfg) : Prop where
  shape : ∀ id, (d.getSuccessors id).map Edge.shape = (c.getSuccessors id).map Edge.shape
  state : ∀ id, { d.getState id with distance := 0 } = { c.getState id with distance := 0 }

theorem SameGraph.refl (c : AbstractCfg) : SameGraph c c := ⟨fun _ => rfl, fun _ => rfl⟩

theorem SameGraph.trans {d e : AbstractCfg} (h : SameGraph d e) (h' : SameGraph e c) : SameGraph d c :=
  ⟨fun id => (h.shape id).trans (h'.shape id), fun id => (h.state id).trans (h'.state id)⟩

theorem SameGraph.kept {d : AbstractCfg} (h : SameGraph d c) (leaveLockables : Bool) (id : ℕ) :
    d.kept leaveLockables id = c.kept leaveLockables id := by
  have hs := h.state id
  simp only [State.mk.injEq] at hs
  obtain ⟨ha, -, hf, -, -, hb, hb', -⟩ := hs
  simp only [AbstractCfg.kept, State.lockable, ha, hf, hb, hb']

theorem sameGraph_modifyState (c : AbstractCfg) (id : ℕ) (f : State → State)
    (hf : ∀ s, { f s with distance := 0 } = { s with distance := 0 }) : SameGraph (c.modifyState id f) c := by
  refine ⟨fun _ => rfl, fun j => ?_⟩
  simp only [getState, modifyState, List.getD_eq_getElem?_getD, List.getElem?_modify]
  cases hj : c.states[j]? with
  | none => simp
  | some s =>
    by_cases hid : id = j
    · simpa [hid] using hf s
    · simp [hid]

theorem sameGraph_setEdges (c : AbstractCfg) (src : ℕ) {es : List Edge}
    (h : es.map Edge.shape = (c.getSuccessors src).map Edge.shape) : SameGraph (c.setEdges src es) c := by
  refine ⟨fun id => ?_, fun _ => rfl⟩
  rw [getSuccessors_setEdges]
  split_ifs with hid
  · rw [h, hid.1]
  · rfl

theorem sameGraph_distanceStep {d d' : AbstractCfg} {item : ℕ × List ℕ} {new : List (ℕ × List ℕ)}
    (h : d.distanceStep item = some (d', new)) : SameGraph d' d := by
  simp only [distanceStep, Option.some.injEq, Prod.mk.injEq] at h
  obtain ⟨rfl, -⟩ := h
  have hfold : ∀ (l : List Edge) (dist : ℤ) (d : AbstractCfg),
      SameGraph (l.foldl (fun c e => c.modifyState e.dst fun s => { s with distance := max s.distance dist }) d) d := by
    intro l dist
    induction l with
    | nil => exact SameGraph.refl
    | cons e l ih => exact fun d => (ih _).trans (sameGraph_modifyState d _ _ fun _ => rfl)
  refine (sameGraph_setEdges _ _ ?_).trans (hfold _ _ d)
  rw [(hfold _ _ d).shape, List.map_map]
  apply List.map_congr_left
  intro e _
  simp only [Function.comp_apply]
  split_ifs <;> rfl

theorem sameGraph_minimiseDistances {fuel : ℕ} {c' : AbstractCfg} (h : c.minimiseDistances fuel = some c') :
    SameGraph c' c := by
  have hinit : SameGraph { c with states := c.states.map fun s => { s with distance := 0 } } c := by
    refine ⟨fun _ => rfl, fun id => ?_⟩
    simp only [getState, List.getD_eq_getElem?_getD, List.getElem?_map]
    cases c.states[id]? <;> rfl
  refine Worklist.run_inv (fun d _ => SameGraph d c) ?_ hinit h
  intro d item q d' new hd hs
  exact (sameGraph_distanceStep hs).trans hd

theorem sameGraph_backEdgeCosts (c : AbstractCfg) : SameGraph c.backEdgeCosts c := by
  refine ⟨fun id => ?_, fun _ => rfl⟩
  simp only [getSuccessors, backEdgeCosts, List.getD_eq_getElem?_getD, List.getElem?_mapIdx]
  cases c.edges[id]? with
  | none => rfl
  | some es =>
    simp only [Option.map_some, Option.getD_some]
    split_ifs
    · rfl
    · rw [List.map_map]
      apply List.map_congr_left
      intro e _
      simp only [Function.comp_apply]
      split_ifs <;> rfl

/-- how much fuel the distances need: simple paths again -/
def distancesFuel (c : AbstractCfg) : ℕ :=
  Worklist.depthWeight c.targets.length (c.targets.length + 1) 0 + 1

/-- the queue holds simple paths of the graph -/
structure PathQueue (c d : AbstractCfg) (q : List (ℕ × List ℕ)) : Prop where
  shape : ∀ id, (d.getSuccessors id).map Edge.shape = (c.getSuccessors id).map Edge.shape
  simple : ∀ item ∈ q, (item.1 :: item.2).Nodup
  targets : ∀ item ∈ q, ∀ x ∈ item.1 :: item.2, x ∈ 1 :: c.targets

/-- the longer a path is the less it weighs -/
def pathWeight (c : AbstractCfg) (item : ℕ × List ℕ) : ℕ :=
  Worklist.depthWeight c.targets.length (c.targets.length + 1) item.2.length

section
variable {d d' : AbstractCfg} {item : ℕ × List ℕ} {q new : List (ℕ × List ℕ)}

theorem new_distanceStep (hs : d.distanceStep item = some (d', new)) :
    new = ((d.getSuccessors item.1).filter fun e => !(item.1 :: item.2).contains e.dst).map fun e =>
      (e.dst, item.1 :: item.2) := by
  simp only [distanceStep, Option.some.injEq, Prod.mk.injEq] at hs
  exact hs.2.symm

theorem PathQueue.step (h : c.PathQueue d (item :: q)) (hs : d.distanceStep item = some (d', new)) :
    c.PathQueue d' (q ++ new) := by
  have hsimple := h.simple item List.mem_cons_self
  have htargets := h.targets item List.mem_cons_self
  -- a new path goes on to a target that it has not met
  have hnew : ∀ item' ∈ new, item'.2 = item.1 :: item.2 ∧ item'.1 ∉ item.1 :: item.2 ∧ item'.1 ∈ c.targets := by
    intro item' hi
    rw [new_distanceStep hs] at hi
    obtain ⟨e, he, rfl⟩ := List.mem_map.1 hi
    obtain ⟨he, hns⟩ := List.mem_filter.1 he
    have hshape : e.shape ∈ (c.getSuccessors item.1).map Edge.shape := h.shape item.1 ▸ List.mem_map_of_mem he
    obtain ⟨e', he', heq⟩ := List.mem_map.1 hshape
    have hd : e'.dst = e.dst := congrArg Prod.fst heq
    exact ⟨rfl, by simpa using hns, hd ▸ mem_targets he'⟩
  refine ⟨fun id => ?_, fun item' hi => ?_, fun item' hi x hx => ?_⟩
  · rw [(sameGraph_distanceStep hs).shape, h.shape]
  · rcases List.mem_append.1 hi with hi | hi
    · exact h.simple item' (List.mem_cons_of_mem _ hi)
    · obtain ⟨hp, hns, -⟩ := hnew item' hi
      rw [hp]
      exact List.nodup_cons.2 ⟨hns, hsimple⟩
  · rcases List.mem_append.1 hi with hi | hi
    · exact h.targets item' (List.mem_cons_of_mem _ hi) x hx
    · obtain ⟨hp, -, hmem⟩ := hnew item' hi
      rw [hp] at hx
      rcases List.mem_cons.1 hx with rfl | hx
      · exact List.mem_cons_of_mem _ hmem
      · exact htargets x hx

/-- the queue gets lighter -/
theorem PathQueue.lighter (h : c.PathQueue d (item :: q)) (hs : d.distanceStep item = some (d', new)) :
    Worklist.weight c.pathWeight (q ++ new) < Worklist.weight c.pathWeight (item :: q) := by
  have hlt : item.2.length < c.targets.length + 1 := by
    have hle := List.Nodup.length_le_of_subset (h.simple item List.mem_cons_self) (h.targets item List.mem_cons_self)
    simpa using hle
  have hlen : new.length ≤ c.targets.length := by
    rw [new_distanceStep hs, List.length_map]
    refine (List.length_filter_le _ _).trans ?_
    have heq : (d.getSuccessors item.1).length = (c.getSuccessors item.1).length := by
      simpa using congrArg List.length (h.shape item.1)
    rw [heq]
    exact length_getSuccessors_le c _
  have hw : ∀ x ∈ new, c.pathWeight x ≤
      Worklist.depthWeight c.targets.length (c.targets.length + 1) (item.2.length + 1) := by
    intro x hx
    rw [new_distanceStep hs] at hx
    obtain ⟨e, -, rfl⟩ := List.mem_map.1 hx
    exact Nat.le_refl _
  exact Worklist.weight_lt hlen hw (Worklist.mul_depthWeight_lt hlt)

end

theorem minimiseDistances_total (c : AbstractCfg) {fuel : ℕ} (hf : c.distancesFuel ≤ fuel) :
    ∃ c', c.minimiseDistances fuel = some c' := by
  have hstart : c.PathQueue { c with states := c.states.map fun s => { s with distance := 0 } } [(1, [])] :=
    ⟨fun _ => rfl, by simp, by simp⟩
  have hinit : Worklist.weight c.pathWeight [(1, [])] < fuel := by
    simp only [Worklist.weight_cons, Worklist.weight_nil, pathWeight, List.length_nil]
    exact hf
  refine Worklist.run_total c.PathQueue (fun _ q => Worklist.weight c.pathWeight q) (fun d item q hi => ?_) hstart hinit
  obtain ⟨⟨d', new⟩, hs⟩ : ∃ p, d.distanceStep item = some p := ⟨_, rfl⟩
  exact ⟨d', new, hs, hi.step hs, hi.lighter hs⟩

/-! ## `minimise` -/

theorem states_minimiseEdges {fuel : ℕ} {c' : AbstractCfg} (h : c.minimiseEdges leaveLockables fuel = some c') :
    c'.states = c.states := by
  unfold minimiseEdges at h
  obtain ⟨r, hr, rfl⟩ := Option.map_eq_some_iff.1 h
  refine Worklist.run_inv (fun st _ => st.1.states = c.states) ?_ rfl hr
  rintro ⟨d, seen⟩ next q ⟨d', seen'⟩ new hd hs
  simp only [minimiseStep] at hs
  split_ifs at hs
  · simp only [Option.some.injEq, Prod.mk.injEq] at hs
    exact hs.1.1 ▸ hd
  · obtain ⟨successors, -, heq⟩ := Option.map_eq_some_iff.1 hs
    simp only [Prod.mk.injEq] at heq
    exact heq.1.1 ▸ hd

/-- `minimise` changes only the distance of a state -/
theorem minimise_state {fuel : ℕ} {c' : AbstractCfg} (h : c.minimise leaveLockables fuel = some c') (id : ℕ) :
    { c'.getState id with distance := 0 } = { c.getState id with distance := 0 } := by
  unfold minimise at h
  simp only [Option.bind_eq_bind, Option.bind_eq_some_iff, Option.pure_def, Option.some.injEq] at h
  obtain ⟨c1, h1, c2, h2, rfl⟩ := h
  rw [((sameGraph_backEdgeCosts c2).trans (sameGraph_minimiseDistances h2)).state]
  simp only [getState, states_minimiseEdges h1]

theorem minimise_total (hc : c.Fresh) (leaveLockables : Bool) :
    ∃ N, ∀ fuel, N ≤ fuel → ∃ c', c.minimise leaveLockables fuel = some c' := by
  obtain ⟨c1, h1⟩ := minimiseEdges_total hc leaveLockables (Nat.le_refl c.edgesFuel)
  refine ⟨c.edgesFuel + c1.distancesFuel, fun fuel hf => ?_⟩
  have hdist : c1.distancesFuel ≤ fuel := by omega
  obtain ⟨c2, h2⟩ := minimiseDistances_total c1 hdist
  have h1' := minimiseEdges_mono h1 (show c.edgesFuel ≤ fuel by omega)
  exact ⟨c2.backEdgeCosts, by simp [minimise, h1', h2]⟩

/-- **Minimisation preserves behaviour.** -/
theorem minimise_correct (hc : c.Fresh) (leaveLockables : Bool) :
    (∃ N, ∀ fuel, N ≤ fuel → ∃ c', c.minimise leaveLockables fuel = some c') ∧
      ∀ fuel c', c.minimise leaveLockables fuel = some c' →
        (∀ id, c'.kept leaveLockables id = c.kept leaveLockables id) ∧
        (∀ u, u = 1 ∨ c.kept leaveLockables u = true → Relation.ReflTransGen c.HasEdge 1 u →
          (∀ v, c'.HasEdge u v ↔
            c.kept leaveLockables v = true ∧ ∃ ds, Link c.HasEdge (c.kept leaveLockables) u ds v) ∧
          ((c'.getSuccessors u).map Edge.dst).Nodup ∧
          ∀ e ∈ c'.getSuccessors u, Link c.HasEdge (c.kept leaveLockables) u e.inBetweeners e.dst) ∧
        ∀ ks, (∃ p, List.IsChain c.HasEdge (1 :: p) ∧ p.filter (c.kept leaveLockables) = ks) ↔
          ∃ p, List.IsChain c'.HasEdge (1 :: p) ∧ p.filter (c.kept leaveLockables) = ks := by
  refine ⟨minimise_total hc leaveLockables, fun fuel c' h => ?_⟩
  unfold minimise at h
  simp only [Option.bind_eq_bind, Option.bind_eq_some_iff, Option.pure_def, Option.some.injEq] at h
  obtain ⟨c1, h1, c2, h2, rfl⟩ := h
  obtain ⟨hstates, hexact⟩ := minimiseEdges_exact hc h1
  have hsame : SameGraph c2.backEdgeCosts c1 := (sameGraph_backEdgeCosts c2).trans (sameGraph_minimiseDistances h2)
  have hex : ∀ u, u = 1 ∨ c.kept leaveLockables u = true → Relation.ReflTransGen c.HasEdge 1 u →
      c.Exact leaveLockables u (c2.backEdgeCosts.getSuccessors u) :=
    fun u hu hreach => exact_of_shape (hexact u hu hreach) (hsame.shape u)
  have hedge : ∀ u, u = 1 ∨ c.kept leaveLockables u = true → Relation.ReflTransGen c.HasEdge 1 u →
      ∀ v, c2.backEdgeCosts.HasEdge u v ↔
        c.kept leaveLockables v = true ∧ ∃ ds, Link c.HasEdge (c.kept leaveLockables) u ds v := by
    intro u hu hreach v
    have he := hex u hu hreach
    constructor
    · rintro ⟨e, hmem, rfl⟩
      exact ⟨(he.sound e hmem).1, _, (he.sound e hmem).2⟩
    · rintro ⟨hk, ds, hl⟩
      exact he.complete ds v hl hk
  refine ⟨fun id => ?_, fun u hu hreach => ⟨hedge u hu hreach, (hex u hu hreach).once,
    fun e he => ((hex u hu hreach).sound e he).2⟩, fun ks => ?_⟩
  · rw [hsame.kept]
    simp only [kept, getState, hstates]
  · let S : ℕ → Prop := fun u => (u = 1 ∨ c.kept leaveLockables u = true) ∧ Relation.ReflTransGen c.HasEdge 1 u
    have hreach : ∀ {u v ds}, Relation.ReflTransGen c.HasEdge 1 u →
        Link c.HasEdge (c.kept leaveLockables) u ds v → Relation.ReflTransGen c.HasEdge 1 v := by
      intro u v ds hu hl
      induction ds generalizing u with
      | nil => exact hu.tail (link_nil.1 hl)
      | cons d ds ih => exact ih (hu.tail (link_cons.1 hl).1) (link_cons.1 hl).2.2
    refine contraction_paths (S := S) (fun u v hu => hedge u hu.1 hu.2 v) (fun u v hu huv => ?_) ⟨Or.inl rfl, .refl⟩ ks
    obtain ⟨hk, ds, hl⟩ := (hedge u hu.1 hu.2 v).1 huv
    exact ⟨Or.inr hk, hreach hu.2 hl⟩

/-! ## The CFGs that are minimised -/

theorem fresh_of_edges (h : ∀ es ∈ c.edges, ∀ e ∈ es, e.dst ≠ 1 ∧ e.inBetweeners = []) : c.Fresh := by
  have hall : ∀ u, ∀ e ∈ c.getSuccessors u, e.dst ≠ 1 ∧ e.inBetweeners = [] := by
    intro u e he
    obtain ⟨es, hes, hm⟩ := mem_edges_of_getSuccessors he
    exact h es hes e hm
  exact ⟨fun u ⟨e, he, hd⟩ => (hall u e he).1 hd, fun u e he => (hall u e he).2⟩

/-- `compact` clears the in-between states -/
theorem compact_direct {fuel : ℕ} {c' : AbstractCfg} (h : c.compact fuel = some c') {u : ℕ} (hu : u ≠ 0) :
    ∀ e ∈ c'.getSuccessors u, e.inBetweeners = [] := by
  intro e he
  unfold compact at h
  simp only [Option.bind_eq_bind, Option.bind_eq_some_iff, Option.pure_def, Option.some.injEq] at h
  obtain ⟨active, -, rfl⟩ := h
  simp only [getSuccessors, List.getD_eq_getElem?_getD, List.getElem?_mapIdx, hu, if_false] at he
  rcases hes : (List.take ((compactShift (List.range' 1 c.noStates)
    { cfg := c, active := active, mapping := List.replicate c.states.length noState, lastActive := 0 }).lastActive + 1)
    (compactShift (List.range' 1 c.noStates)
      { cfg := c, active := active, mapping := List.replicate c.states.length noState,
        lastActive := 0 }).cfg.edges)[u]? with
    _ | es
  · simp [hes] at he
  · simp only [hes, Option.map_some, Option.getD_some] at he
    obtain ⟨e', -, rfl⟩ := List.mem_map.1 he
    rfl

/-- a branch between two dummy states, one of which leads back -/
def dummyDiamond : AbstractCfg where
  threadId := 0
  states :=
    [State.ofId 0 0, State.ofId 0 1, State.ofId 0 2, State.ofId 0 3, State.ofId 0 4,
      State.ofAction { operation := .write, var := 0, loc := ⟨0, 5⟩ }, { State.ofId 0 6 with final := true }]
  edges := [[], [{ dst := 2 }], [{ dst := 3 }, { dst := 4 }], [{ dst := 5 }], [{ dst := 2 }, { dst := 5 }],
    [{ dst := 6 }], []]

theorem minimise_dummyDiamond : ∃ N, ∀ fuel, N ≤ fuel → ∃ c', dummyDiamond.minimise true fuel = some c' :=
  (minimise_correct (fresh_of_edges (by decide)) true).1

end AbstractCfg

end Liss
