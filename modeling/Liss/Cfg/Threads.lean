/-
`clang_interf/thread_visitor.cpp`, `cfg/program.cpp`: the CFGs that `minimise(false)` is given.

`parse_thread` makes a state without action for the entry and for the exit block of the thread function, and marks the
latter as final; nothing leaves it. `add_thread` runs `minimise(true)` and `compact` on the CFG, and `minimise(false)`
on a copy of the result.

- `Prepared.framed`: what all of these CFGs have in common;
- `Framed.minimise`: `minimise` keeps it;
- `minimise_targets`: the edges of a reachable state lead to each target once, and to no state but those with an action
  and the final ones.
-/
import Liss.Cfg.Automaton
import Liss.Cfg.Renumbering

namespace Liss

namespace AbstractCfg

variable {c m k : AbstractCfg}

/-- the CFG of a thread as `parse_thread` leaves it; no caller of `add_edge` gives a cost -/
structure Parsed (c : AbstractCfg) : Prop where
  constructed : c.Constructed
  size : 1 < c.states.length
  start : (c.getState 1).action = none ∧ (c.getState 1).final = false
  exit : ∀ u, (c.getState u).final = true → (c.getState u).action = none ∧ c.getSuccessors u = []
  costless : c.EveryEdge fun _ e => e.cost = 0

theorem parsed_of_lt (hc : c.Constructed) (hsize : 1 < c.states.length)
    (hstart : (c.getState 1).action = none ∧ (c.getState 1).final = false)
    (hexit : ∀ u < c.states.length, (c.getState u).final = true →
      (c.getState u).action = none ∧ c.getSuccessors u = [])
    (hcost : ∀ u < c.edges.length, ∀ e ∈ c.getSuccessors u, e.cost = 0) : c.Parsed := by
  refine ⟨hc, hsize, hstart, fun u hf => ?_, everyEdge_of_lt hcost⟩
  by_cases hu : u < c.states.length
  · exact hexit u hu hf
  · have hd : c.getState u = {} := List.getD_eq_default _ _ (by omega)
    simp [hd] at hf

/-- a parsed CFG, or what `add_thread` makes of it before it calls `minimise(false)` -/
inductive Prepared : AbstractCfg → Prop
  | parsed {c : AbstractCfg} (hc : c.Parsed) : Prepared c
  | added {c m k : AbstractCfg} {fuel fuel' : ℕ} (hc : c.Parsed) (h1 : c.minimise true fuel = some m)
      (h2 : m.compact fuel' = some k) : Prepared k

/-- start and end of the thread, and the numbers in the symbols -/
structure Framed (c : AbstractCfg) : Prop where
  start : (c.getState 1).action = none ∧ (c.getState 1).final = false
  exit : ∀ u, u ≠ noState → (c.getState u).final = true → (c.getState u).action = none ∧ c.getSuccessors u = []
  own : ∀ u, u ≠ noState → ∀ a, (c.getState u).action = some a → a.loc = ⟨c.threadId, u⟩ ∧ a.operation ≠ .tag
  target : ∀ u, u ≠ noState → ∀ e ∈ c.getSuccessors u, e.dst ≠ noState
  tag : ∀ u, u ≠ noState → ∀ e ∈ c.getSuccessors u, ∀ t, e.tag = some t → ∃ s n, t = Symbol.ofBranch c.threadId s n

/-! ## Construction -/

theorem Parsed.framed (hc : c.Parsed) : c.Framed := by
  have hproper := hc.constructed.proper
  refine ⟨hc.start, fun u _ => hc.exit u, fun u _ a ha => ?_, fun u _ e he => (hproper.ranged.target u e he).1,
    fun u _ => hc.constructed.tags u⟩
  by_cases hu : u < c.states.length
  · exact (hproper.getState hu).1 a ha
  · have hd : c.getState u = {} := List.getD_eq_default _ _ (by omega)
    simp [hd] at ha

/-! ## The passes -/

/-- the state as it was before `minimise` -/
theorem minimise_fields {leaveLockables : Bool} {fuel : ℕ} (h : c.minimise leaveLockables fuel = some m) (u : ℕ) :
    (m.getState u).action = (c.getState u).action ∧ (m.getState u).final = (c.getState u).final := by
  have hs := minimise_state h u
  simp only [State.mk.injEq] at hs
  exact ⟨hs.1, hs.2.2.1⟩

/-- a state without edges gets none -/
theorem minimise_leaf {leaveLockables : Bool} {fuel : ℕ} (h : c.minimise leaveLockables fuel = some m) {u : ℕ}
    (hu : c.getSuccessors u = []) : m.getSuccessors u = [] := by
  have hedge : m.EveryEdge fun u _ => c.getSuccessors u ≠ [] :=
    minimise_edges ⟨fun _ _ _ h _ _ => h, fun _ _ _ h => h, fun _ _ _ h => h, fun _ _ _ h => h⟩
      (fun _ _ he => List.ne_nil_of_mem he) h
  apply List.eq_nil_iff_forall_not_mem.2
  intro e he
  exact hedge u e he hu

theorem Framed.minimise (hc : c.Framed) {leaveLockables : Bool} {fuel : ℕ}
    (h : c.minimise leaveLockables fuel = some m) : m.Framed := by
  have hthread := (sameSize_minimise h).threadId
  have hfields := minimise_fields h
  have hedge : m.EveryEdge fun u e => u ≠ noState →
      e.dst ≠ noState ∧ ∀ t, e.tag = some t → ∃ s n, t = Symbol.ofBranch c.threadId s n := by
    have hold : c.EveryEdge fun u e => u ≠ noState →
        e.dst ≠ noState ∧ ∀ t, e.tag = some t → ∃ s n, t = Symbol.ofBranch c.threadId s n :=
      fun u e he hu => ⟨hc.target u hu e he, hc.tag u hu e he⟩
    refine minimise_edges ⟨fun u e e2 he _ he2 hu => ?_, fun _ _ _ h => h, fun _ _ _ h => h,
      fun u e n he hu => ⟨(he hu).1, fun t ht => ⟨u, n, (Option.some.inj ht).symm⟩⟩⟩ hold h
    obtain ⟨hd2, ht2⟩ := he2 (he hu).1
    refine ⟨hd2, fun t ht => ?_⟩
    cases htag : e2.tag with
    | some t2 => exact ht2 t (by simpa [joinEdge, htag] using ht)
    | none => exact (he hu).2 t (by simpa [joinEdge, htag] using ht)
  refine ⟨?_, fun u hu hf => ?_, fun u hu a ha => ?_, fun u hu e he => (hedge u e he hu).1, fun u hu e he t ht => ?_⟩
  · rw [(hfields 1).1, (hfields 1).2]
    exact hc.start
  · rw [(hfields u).2] at hf
    obtain ⟨hact, hsucc⟩ := hc.exit u hu hf
    exact ⟨(hfields u).1.trans hact, minimise_leaf h hsucc⟩
  · rw [hthread]
    exact hc.own u hu a ((hfields u).1.symm.trans ha)
  · rw [hthread]
    exact (hedge u e he hu).2 t ht

/-- where a state of the compacted CFG comes from -/
theorem Compacted.origin {actives : List ℕ} (hk : Compacted c actives k) (hsize : k.edges.length = k.states.length)
    {u : ℕ} (hu : u ≠ noState) :
    (k.getState u = {} ∧ k.getSuccessors u = []) ∨ ∃ id, c.Active id ∧ u = place 1 actives id ∧
      (k.getState u).action = (c.movedState id u).action ∧ (k.getState u).final = (c.getState id).final ∧
        k.getSuccessors u = (c.getSuccessors id).map (renumberEdge actives u) := by
  by_cases hlt : u < k.states.length
  · right
    obtain ⟨n, rfl⟩ : ∃ n, u = 1 + n := ⟨u - 1, by simp only [noState] at hu; omega⟩
    rw [hk.length] at hlt
    have hget : actives[n]? = some actives[n] := List.getElem?_eq_getElem (by omega)
    refine ⟨actives[n], (hk.mem _).1 (List.getElem_mem _), (place_of_getElem? hk.ascending hget).symm, ?_, ?_,
      hk.edges n _ hget⟩
    · rw [hk.state n _ hget]
      split_ifs <;> rfl
    · rw [hk.state n _ hget]
      unfold movedState
      split_ifs <;> rfl
  · left
    exact ⟨List.getD_eq_default _ _ (by omega), List.getD_eq_default _ _ (by omega)⟩

theorem threadId_compact {fuel : ℕ} (h : c.compact fuel = some k) : k.threadId = c.threadId := by
  unfold compact at h
  simp only [Option.bind_eq_bind, Option.bind_eq_some_iff, Option.pure_def, Option.some.injEq] at h
  obtain ⟨active, -, rfl⟩ := h
  exact (sameSize_compactShift _ _).threadId

theorem Framed.compact (hc : c.Framed) (hproper : c.Proper) (hstart : 1 < c.states.length) {fuel : ℕ}
    (h : c.compact fuel = some k) : k.Framed := by
  obtain ⟨actives, hk⟩ := compact_spec hproper.ranged hstart h
  have hsize := compact_sized hproper.ranged.sized h
  have hthread := threadId_compact h
  have hactive : ∀ id, c.Active id → id ≠ noState := fun id hid => (hproper.ranged.active hstart hid).1
  have hone : place 1 actives 1 = 1 := (compacted_renumbered hproper hstart hk).start
  refine ⟨?_, fun u hu hf => ?_, fun u hu a ha => ?_, fun u hu e he => ?_, fun u hu e he t ht => ?_⟩
  · obtain ⟨n, hn, hp⟩ := exists_place hk.ascending ((hk.mem 1).2 .refl)
    have hn1 : 1 + n = 1 := hp.symm.trans hone
    have hs := hk.state n 1 hn
    rw [hn1, movedState, if_pos rfl] at hs
    rw [hs]
    split_ifs
    · exact hc.start
    · exact hc.start
  · rcases hk.origin hsize hu with ⟨hd, -⟩ | ⟨id, hid, -, hact, hfin, hsucc⟩
    · simp [hd] at hf
    · obtain ⟨h1, h2⟩ := hc.exit id (hactive id hid) (hfin ▸ hf)
      refine ⟨?_, by rw [hsucc, h2, List.map_nil]⟩
      rw [hact, movedState]
      split_ifs
      · exact h1
      · simp [State.setId, h1]
  · rcases hk.origin hsize hu with ⟨hd, -⟩ | ⟨id, hid, -, hact, -, -⟩
    · simp [hd] at ha
    · rw [hthread]
      rw [hact, movedState] at ha
      split_ifs at ha with heq
      · exact heq ▸ hc.own id (hactive id hid) a ha
      · obtain ⟨b, hb, rfl⟩ := Option.map_eq_some_iff.1 ha
        obtain ⟨hloc, hop⟩ := hc.own id (hactive id hid) b hb
        exact ⟨by rw [Symbol.withState, hloc], hop⟩
  · rcases hk.origin hsize hu with ⟨-, hnil⟩ | ⟨id, hid, -, -, -, hsucc⟩
    · simp [hnil] at he
    · rw [hsucc] at he
      obtain ⟨e', he', rfl⟩ := List.mem_map.1 he
      simp only [renumberEdge, renumber]
      split_ifs
      · exact Nat.succ_ne_zero _
      · exact hc.target id (hactive id hid) e' he'
  · rcases hk.origin hsize hu with ⟨-, hnil⟩ | ⟨id, hid, -, -, -, hsucc⟩
    · simp [hnil] at he
    · rw [hsucc] at he
      obtain ⟨e', he', rfl⟩ := List.mem_map.1 he
      obtain ⟨t', ht', rfl⟩ := Option.map_eq_some_iff.1 ht
      obtain ⟨s, n, rfl⟩ := hc.tag id (hactive id hid) e' he' t' ht'
      exact ⟨u, n, by rw [hthread]; rfl⟩

/-- **The CFGs that `minimise(false)` is given.** -/
theorem Prepared.framed (hc : c.Prepared) : c.Framed := by
  cases hc with
  | parsed hc => exact hc.framed
  | added hc h1 h2 =>
    refine (hc.framed.minimise h1).compact (hc.constructed.proper.minimise h1) ?_ h2
    rw [(sameSize_minimise h1).states]
    exact hc.size

/-! ## After `minimise(false)` -/

/-- **Targets.** -/
theorem minimise_targets {fuel : ℕ} (h : c.minimise false fuel = some m) {u : ℕ} (hu : u ∈ m.Reached) :
    ((m.getSuccessors u).map Edge.dst).Nodup ∧
      ∀ e ∈ m.getSuccessors u, (m.getState e.dst).action = none → (m.getState e.dst).final = true := by
  obtain ⟨c1, c2, -, rfl, -, hinv, hvisited⟩ := minimise_loops h
  have hv := hvisited u hu
  have hdst : (c2.backEdgeCosts.getSuccessors u).map Edge.dst = (c1.getSuccessors u).map Edge.dst := by
    rw [getSuccessors_backEdgeCosts, List.map_map, ← hinv.dst u]
    apply List.map_congr_left
    exact fun e _ => dst_withCost c2 u e
  refine ⟨hdst ▸ hv.once, fun e he hnone => ?_⟩
  have hmem : e.dst ∈ (c1.getSuccessors u).map Edge.dst := hdst ▸ List.mem_map_of_mem he
  obtain ⟨e1, he1, hd⟩ := List.mem_map.1 hmem
  have hk := minimise_kept h false e.dst
  rw [← hd, hv.kept e1 he1, hd] at hk
  simpa [kept, hnone] using hk

/-- no edge leads to the start -/
theorem Framed.target_ne_one (hm : m.Framed) {fuel : ℕ} (h : c.minimise false fuel = some m) {u : ℕ} (hu : u ∈ m.Reached)
    {e : Edge} (he : e ∈ m.getSuccessors u) : e.dst ≠ 1 := by
  intro h1
  have := (minimise_targets h hu).2 e he
  rw [h1, hm.start.1, hm.start.2] at this
  simp at this

/-- no reachable state is the unused one -/
theorem Framed.reached (hm : m.Framed) {u : ℕ} (hu : u ∈ m.Reached) : u ≠ noState := by
  induction hu with
  | refl => decide
  | tail _ he ih =>
    obtain ⟨e, he, rfl⟩ := he
    exact hm.target _ ih e he

end AbstractCfg

end Liss
