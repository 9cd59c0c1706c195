/-
What `compact` keeps of a CFG on which `minimise` has run.

Only the active states are kept. A state that is reached from state 1 but only over back edges is lost, and the edges
to it are not renumbered; this takes a loop with several entries, since in a reducible graph every reachable state is
active.

- `hasEdge_minimise`: the edges that `minimise` leaves are the links of the constructed CFG;
- `compact_total`: `compact` ends, since the distances grow along the edges that are no back edges;
- `compacted_renumbered`: the active states are renumbered one to one, with the symbols that carry their numbers;
- `compact_isomorphic_iff`: the whole reachable part is kept exactly if every reachable state is active.
-/
import Liss.Cfg.Compact

namespace Liss

namespace AbstractCfg

variable {c m k : AbstractCfg}

/-- the states that are reached from state 1 over any edges -/
def Reached (c : AbstractCfg) : Set ℕ := {u | Relation.ReflTransGen c.HasEdge 1 u}

/-- the states `S` of `c` become the states 1 to `no_states` of `k`: with their fields, and with the new number in their
symbols -/
structure Renumbered (c k : AbstractCfg) (S : Set ℕ) (f : ℕ → ℕ) : Prop where
  bij : Set.BijOn f S (Set.Icc 1 k.noStates)
  start : f 1 = 1
  state : ∀ u ∈ S, { k.getState (f u) with returnState := noState } =
    { (c.getState u).setId (f u) with returnState := noState }

/-- the edges of the states `S`, renumbered on both ends and in their tags; marks and costs are kept -/
def EdgesRenumbered (c k : AbstractCfg) (S : Set ℕ) (f : ℕ → ℕ) : Prop :=
  ∀ u ∈ S, k.getSuccessors (f u) =
    (c.getSuccessors u).map fun e => { e.setId (f u) with dst := f e.dst, inBetweeners := [] }

/-- `compact` ends, with an isomorphic copy of the reachable part -/
def CompactsReached (m : AbstractCfg) : Prop :=
  (∃ N, ∀ fuel, N ≤ fuel → ∃ k, m.compact fuel = some k) ∧
    ∀ fuel k, m.compact fuel = some k → ∃ f, Renumbered m k m.Reached f ∧ EdgesRenumbered m k m.Reached f

/-! ## The contraction -/

/-- `v` is kept, and `u` has a link to it -/
def Contracted (c : AbstractCfg) (leaveLockables : Bool) (u v : ℕ) : Prop :=
  c.kept leaveLockables v = true ∧ ∃ ds, Link c.HasEdge (c.kept leaveLockables) u ds v

/-- **The edges of `minimise` are the links.** -/
theorem hasEdge_minimise (hc : c.Constructed) {leaveLockables : Bool} {fuel : ℕ}
    (h : c.minimise leaveLockables fuel = some m) {u : ℕ} (hu : u ∈ m.Reached) (v : ℕ) :
    m.HasEdge u v ↔ c.Contracted leaveLockables u v := by
  obtain ⟨c1, c2, -, -, hedge, -, hvisited⟩ := minimise_loops h
  have hv := hvisited u hu
  have hne : u ≠ noState := by
    have htarget := (hc.proper.minimise h).ranged.target
    cases hu with
    | refl => decide
    | tail _ he =>
      obtain ⟨e, he, rfl⟩ := he
      exact (htarget _ e he).1
  constructor
  · intro huv
    obtain ⟨e, he, rfl⟩ := huv
    obtain ⟨e1, he1, hd⟩ := (hedge u e.dst).1 ⟨e, he, rfl⟩
    refine ⟨hd ▸ hv.kept e1 he1, e.inBetweeners, ?_⟩
    exact minimise_links (fun u _ e he => (hc.proper.ranged.target u e he).1) (fun u _ => hc.direct u) h hne he
  · intro ⟨hk, ds, hl⟩
    exact (hedge u v).2 (hv.complete ds v hl hk)

/-! ## Termination -/

theorem distance_backEdgeCosts (c : AbstractCfg) (u : ℕ) : c.backEdgeCosts.distance u = c.distance u := rfl

theorem nonneg_distance {leaveLockables : Bool} {fuel : ℕ} (h : c.minimise leaveLockables fuel = some m) (u : ℕ) :
    0 ≤ m.distance u := by
  obtain ⟨c1, c2, -, rfl, -, hinv, -⟩ := minimise_loops h
  rw [distance_backEdgeCosts]
  exact hinv.nonneg u

theorem compact_total {leaveLockables : Bool} {fuel : ℕ} (h : c.minimise leaveLockables fuel = some m) :
    ∃ N, ∀ fuel, N ≤ fuel → ∃ k, m.compact fuel = some k := by
  have hrank : ∀ u v, m.Active u → m.UnmarkedEdge u v → (m.distance u).toNat < (m.distance v).toNat := by
    intro u v hu huv
    obtain ⟨e, he, hb, rfl⟩ := huv
    have hlt := (minimise_distances h hu.reachable he).2 hb
    have hpos := nonneg_distance h u
    omega
  have hbound : ∀ u, (m.distance u).toNat ≤ (m.states.map fun s => s.distance.toNat).sum := by
    intro u
    by_cases hu : u < m.states.length
    · have hmem : (m.distance u).toNat ∈ m.states.map fun s => s.distance.toNat := by
        refine List.mem_map.2 ⟨m.states[u], List.getElem_mem hu, ?_⟩
        rw [distance, getState, List.getD_eq_getElem _ _ hu]
      exact List.le_sum_of_mem hmem
    · have hd : m.getState u = {} := List.getD_eq_default _ _ (by omega)
      simp [distance, hd]
  obtain ⟨N, hN⟩ := active_total hrank fun u _ => hbound u
  refine ⟨N, fun fuel hf => ?_⟩
  obtain ⟨active, hrun⟩ := hN fuel hf
  unfold compact
  rw [hrun]
  exact ⟨_, rfl⟩

/-! ## The active states -/

theorem withState_self {a : Symbol} {threadId id : ℕ} (h : a.loc = ⟨threadId, id⟩) : a.withState id = a := by
  have : (⟨a.loc.thread, id⟩ : Location) = a.loc := by rw [h]
  simp only [Symbol.withState, this]

theorem map_withState_self {a : Option Symbol} {threadId id : ℕ} (h : ∀ b, a = some b → b.loc = ⟨threadId, id⟩) :
    a.map (·.withState id) = a := by
  cases a with
  | none => rfl
  | some b => simp [withState_self (h b rfl)]

theorem Proper.getState (h : c.Proper) {id : ℕ} (hid : id < c.states.length) :
    State.Own c.threadId id (c.getState id) := by
  refine h.own id _ ?_
  rw [AbstractCfg.getState, List.getD_eq_getElem _ _ hid, List.getElem?_eq_getElem hid]

/-- a state that is not moved has its number already -/
theorem Proper.movedState (h : c.Proper) {id : ℕ} (hid : id < c.states.length) (i : ℕ) :
    c.movedState id i = (c.getState id).setId i := by
  unfold AbstractCfg.movedState
  split_ifs with heq
  · subst heq
    obtain ⟨hact, hnon⟩ := h.getState hid
    simp only [State.setId, map_withState_self fun a ha => (hact a ha).1, map_withState_self hnon]
  · rfl

theorem place_of_getElem? {actives : List ℕ} (h : actives.Pairwise (· < ·)) {n id : ℕ} (hn : actives[n]? = some id) :
    place 1 actives id = 1 + n := by
  obtain ⟨hlt, rfl⟩ := List.getElem?_eq_some_iff.1 hn
  have hnodup : actives.Nodup := h.imp fun hab => Nat.ne_of_lt hab
  rw [place, hnodup.idxOf_getElem, Nat.add_comm]

theorem exists_place {actives : List ℕ} (h : actives.Pairwise (· < ·)) {id : ℕ} (hid : id ∈ actives) :
    ∃ n, actives[n]? = some id ∧ place 1 actives id = 1 + n := by
  obtain ⟨n, hn⟩ := List.mem_iff_getElem?.1 hid
  exact ⟨n, hn, place_of_getElem? h hn⟩

theorem Compacted.noStates {actives : List ℕ} (hk : Compacted c actives k) : k.noStates = actives.length := by
  rw [AbstractCfg.noStates, hk.length, Nat.add_sub_cancel]

/-- **The active states are renumbered one to one.** -/
theorem compacted_renumbered (h : c.Proper) (hstart : 1 < c.states.length) {actives : List ℕ}
    (hk : Compacted c actives k) : Renumbered c k {u | c.Active u} (place 1 actives) := by
  have hplace : ∀ u, c.Active u → ∃ n, actives[n]? = some u ∧ place 1 actives u = 1 + n :=
    fun u hu => exists_place hk.ascending ((hk.mem u).2 hu)
  refine ⟨⟨fun u hu => ?_, fun u hu v hv huv => ?_, fun n hn => ?_⟩, ?_, fun u hu => ?_⟩
  · obtain ⟨n, hn, hp⟩ := hplace u hu
    have := (List.getElem?_eq_some_iff.1 hn).1
    rw [hp, hk.noStates]
    exact ⟨by omega, by omega⟩
  · obtain ⟨n, hn, hp⟩ := hplace u hu
    obtain ⟨n', hn', hp'⟩ := hplace v hv
    have heq : n = n' := by omega
    subst heq
    rw [hn] at hn'
    exact Option.some.inj hn'
  · rw [hk.noStates] at hn
    obtain ⟨h1, h2⟩ := hn
    have hlt : n - 1 < actives.length := by omega
    refine ⟨actives[n - 1], (hk.mem _).1 (List.getElem_mem hlt), ?_⟩
    rw [place_of_getElem? hk.ascending (List.getElem?_eq_getElem hlt)]
    omega
  · -- no active state is below 1
    obtain ⟨rest, hrest⟩ := eq_cons_of_least hk.ascending ((hk.mem 1).2 .refl) fun x hx =>
      Nat.one_le_iff_ne_zero.2 (h.ranged.active hstart ((hk.mem x).1 hx)).1
    rw [hrest, place, List.idxOf_cons_self]
  · obtain ⟨n, hn, hp⟩ := hplace u hu
    rw [hp, hk.state n u hn, h.movedState (h.ranged.active hstart hu).2]
    split_ifs <;> rfl

theorem compacted_edges {actives : List ℕ} (hk : Compacted c actives k) {u : ℕ} (hu : c.Active u)
    (hall : ∀ e ∈ c.getSuccessors u, c.Active e.dst) : k.getSuccessors (place 1 actives u) =
      (c.getSuccessors u).map fun e =>
        { e.setId (place 1 actives u) with dst := place 1 actives e.dst, inBetweeners := [] } := by
  obtain ⟨n, hn, hp⟩ := exists_place hk.ascending ((hk.mem u).2 hu)
  rw [hp, hk.edges n u hn]
  apply List.map_congr_left
  intro e he
  rw [renumberEdge, renumber, if_pos ((hk.mem _).2 (hall e he))]

/-! ## The reachable states -/

/-- a one to one copy of the reachable part leaves no reachable state out -/
theorem active_of_renumbered (h : c.Ranged) (hstart : 1 < c.states.length) {fuel : ℕ} (hk : c.compact fuel = some k)
    {f : ℕ → ℕ} (hf : Set.BijOn f c.Reached (Set.Icc 1 k.noStates)) {u : ℕ} (hu : u ∈ c.Reached) : c.Active u := by
  obtain ⟨actives, hc⟩ := compact_spec h hstart hk
  have hfin : c.Reached.Finite := by
    refine (Set.finite_lt_nat c.states.length).subset fun v hv => ?_
    cases hv with
    | refl => exact hstart
    | tail _ he =>
      obtain ⟨e, he, rfl⟩ := he
      exact (h.target _ e he).2
  have hsub : {v | v ∈ actives} ⊆ c.Reached := fun v hv => ((hc.mem v).1 hv).reachable
  have hcard : c.Reached.ncard ≤ {v | v ∈ actives}.ncard := by
    have hnodup : actives.Nodup := hc.ascending.imp fun hab => Nat.ne_of_lt hab
    have hleft : c.Reached.ncard = actives.length := by
      rw [← hf.injOn.ncard_image, hf.image_eq, hc.noStates, Set.ncard_eq_toFinset_card']
      simp
    have hright : {v | v ∈ actives}.ncard = actives.length := by
      have hset : {v | v ∈ actives} = (actives.toFinset : Set ℕ) := by ext; simp
      rw [hset, Set.ncard_coe_finset, List.toFinset_card_of_nodup hnodup]
    omega
  have heq : {v | v ∈ actives} = c.Reached := Set.eq_of_subset_of_ncard_le hsub hcard hfin
  rw [← heq] at hu
  exact (hc.mem u).1 hu

/-- a run of `compact` after `minimise`, when every reachable state is active -/
theorem compactsReached_of_active (hc : c.Constructed) (hstart : 1 < c.states.length) {leaveLockables : Bool} {fuel : ℕ}
    (h : c.minimise leaveLockables fuel = some m) (hall : ∀ u ∈ m.Reached, m.Active u) : m.CompactsReached := by
  have hproper := hc.proper.minimise h
  have hstart' : 1 < m.states.length := by rwa [(sameSize_minimise h).states]
  have hset : m.Reached = {u | m.Active u} := Set.Subset.antisymm hall fun u hu => Active.reachable hu
  refine ⟨compact_total h, fun fuel' k hk => ?_⟩
  obtain ⟨actives, hcomp⟩ := compact_spec hproper.ranged hstart' hk
  refine ⟨place 1 actives, hset ▸ compacted_renumbered hproper hstart' hcomp, fun u hu => ?_⟩
  refine compacted_edges hcomp (hall u hu) fun e he => hall e.dst ?_
  exact Relation.ReflTransGen.tail hu ⟨e, he, rfl⟩

/-- **What `compact` keeps.** -/
theorem compact_isomorphic_iff (hc : c.Constructed) (hstart : 1 < c.states.length) {leaveLockables : Bool} {fuel : ℕ}
    (h : c.minimise leaveLockables fuel = some m) : m.CompactsReached ↔ ∀ u ∈ m.Reached, m.Active u := by
  have hproper := hc.proper.minimise h
  have hstart' : 1 < m.states.length := by rwa [(sameSize_minimise h).states]
  constructor
  · intro hiso u hu
    obtain ⟨N, hN⟩ := hiso.1
    obtain ⟨k, hk⟩ := hN N (Nat.le_refl N)
    obtain ⟨f, hf, -⟩ := hiso.2 N k hk
    exact active_of_renumbered hproper.ranged hstart' hk hf.bij hu
  · exact compactsReached_of_active hc hstart h

/-- the edges that are no back edges lead forward -/
theorem unmarkedEdge_iff {leaveLockables : Bool} {fuel : ℕ} (h : c.minimise leaveLockables fuel = some m) {u : ℕ}
    (hu : u ∈ m.Reached) (v : ℕ) : m.UnmarkedEdge u v ↔ Forward m.HasEdge 1 u v := by
  constructor
  · intro ⟨e, he, hb, hd⟩
    subst hd
    refine ⟨⟨e, he, rfl⟩, fun hon => ?_⟩
    rw [((minimise_distances h hu he).1).2 hon] at hb
    simp at hb
  · intro ⟨⟨e, he, hd⟩, hnot⟩
    subst hd
    refine ⟨e, he, ?_, rfl⟩
    rw [← Bool.not_eq_true, (minimise_distances h hu he).1]
    exact hnot

theorem active_iff_forward {leaveLockables : Bool} {fuel : ℕ} (h : c.minimise leaveLockables fuel = some m) {u : ℕ} :
    m.Active u ↔ Relation.ReflTransGen (Forward m.HasEdge 1) 1 u := by
  constructor
  · intro hu
    induction hu with
    | refl => exact .refl
    | tail hu huv ih => exact ih.tail ((unmarkedEdge_iff h (Active.reachable hu) _).1 huv)
  · intro hu
    induction hu with
    | refl => exact .refl
    | tail _ huv ih => exact ih.tail ((unmarkedEdge_iff h (Active.reachable ih) _).2 huv)

/-- in a reducible graph nothing is lost -/
theorem compact_of_reducible (hc : c.Constructed) (hstart : 1 < c.states.length) {leaveLockables : Bool} {fuel : ℕ}
    (h : c.minimise leaveLockables fuel = some m) (hred : Reducible m.HasEdge 1) : m.CompactsReached := by
  exact compactsReached_of_active hc hstart h fun u hu => (active_iff_forward h).2 (forward_of_reducible hred hu)

/-! ## A moved state and a lost one -/

/-- what is closed under the edges holds every reachable state -/
theorem reached_subset {l : List ℕ} (h1 : 1 ∈ l) (hl : ∀ u ∈ l, ∀ e ∈ c.getSuccessors u, e.dst ∈ l) :
    ∀ u ∈ c.Reached, u ∈ l := by
  intro u hu
  induction hu with
  | refl => exact h1
  | tail _ he ih =>
    obtain ⟨e, he, rfl⟩ := he
    exact hl _ ih e he

theorem active_subset {l : List ℕ} (h1 : 1 ∈ l)
    (hl : ∀ u ∈ l, ∀ e ∈ c.getSuccessors u, e.backEdge = false → e.dst ∈ l) {u : ℕ} (hu : c.Active u) : u ∈ l := by
  induction hu with
  | refl => exact h1
  | tail _ he ih =>
    obtain ⟨e, he, hb, rfl⟩ := he
    exact hl _ ih e he hb

def storeX : Symbol := { operation := .write, var := 0, loc := ⟨0, 0⟩ }

/-- an initial state, a dummy state, and a state with an action, in a row -/
def dummyRow : AbstractCfg :=
  ((⟨0, [State.ofId 0 0, State.ofId 0 1, State.ofId 0 2, State.ofAction { storeX with loc := ⟨0, 3⟩ }],
    [[], [], [], []]⟩ : AbstractCfg).addEdge 1 2).addEdge 2 3

theorem dummyRow_constructed : dummyRow.Constructed :=
  .addEdge (.addEdge (.addState (.addDummyState (.addDummyState (.empty 0) rfl) rfl) storeX (by decide) rfl)
    (by decide) 1 false true 0) (by decide) 2 false true 0

theorem dummyRow_minimise : (dummyRow.minimise true 20).isSome = true := by decide

/-- the state with the action is moved to place 2 -/
theorem dummyRow_compacts : ((dummyRow.minimise true 20).get dummyRow_minimise).CompactsReached := by
  refine (compact_isomorphic_iff dummyRow_constructed (by decide) (Option.some_get dummyRow_minimise).symm).2 ?_
  intro u hu
  have hedge : UnmarkedEdge ((dummyRow.minimise true 20).get dummyRow_minimise) 1 3 :=
    ⟨{ dst := 3, inBetweeners := [2] }, by decide, rfl, rfl⟩
  have hmem := reached_subset (l := [1, 3]) (by decide) (by decide) u hu
  simp only [List.mem_cons, List.not_mem_nil, or_false] at hmem
  rcases hmem with rfl | rfl
  · exact .refl
  · exact .single hedge

/-- a loop with two entries: from state 1 to states 2 and 3, from both to state 4, and back from there -/
def twoEntries : AbstractCfg :=
  ((((((⟨0, [State.ofId 0 0, State.ofId 0 1, State.ofAction { storeX with loc := ⟨0, 2⟩ },
    State.ofAction { storeX with loc := ⟨0, 3⟩ }, State.ofAction { storeX with loc := ⟨0, 4⟩ }],
    [[], [], [], [], []]⟩ : AbstractCfg).addEdge 1 2).addEdge 1 3).addEdge 2 4).addEdge 3 4).addEdge 4 2).addEdge 4 3

theorem twoEntries_constructed : twoEntries.Constructed :=
  .addEdge (.addEdge (.addEdge (.addEdge (.addEdge (.addEdge (.addState (.addState (.addState (.addDummyState (.empty 0) rfl)
    storeX (by decide) rfl) storeX (by decide) rfl) storeX (by decide) rfl)
    (by decide) 1 false true 0) (by decide) 1 false true 0) (by decide) 2 false true 0) (by decide) 3 false true 0)
    (by decide) 4 false true 0) (by decide) 4 false true 0

theorem twoEntries_minimise : (twoEntries.minimise true 20).isSome = true := by decide

/-- both edges to state 4 lead back onto a simple path, so the state is lost -/
theorem twoEntries_lost : ¬ ∀ (c m : AbstractCfg) (leaveLockables : Bool) (fuel : ℕ), c.Constructed →
    1 < c.states.length → c.minimise leaveLockables fuel = some m → m.CompactsReached := by
  intro hall
  have hmin := (Option.some_get twoEntries_minimise).symm
  have hiso := hall twoEntries _ true 20 twoEntries_constructed (by decide) hmin
  obtain ⟨N, hN⟩ := hiso.1
  obtain ⟨k, hk⟩ := hN N (Nat.le_refl N)
  obtain ⟨f, hf, -⟩ := hiso.2 N k hk
  have hedge : ∀ u v, (∃ e ∈ ((twoEntries.minimise true 20).get twoEntries_minimise).getSuccessors u, e.dst = v) →
      ((twoEntries.minimise true 20).get twoEntries_minimise).HasEdge u v := fun _ _ h => h
  have hreach : 4 ∈ ((twoEntries.minimise true 20).get twoEntries_minimise).Reached :=
    (Relation.ReflTransGen.single (hedge 1 2 (by decide))).tail (hedge 2 4 (by decide))
  have hactive := active_of_renumbered (twoEntries_constructed.proper.minimise hmin).ranged (by decide) hk hf.bij hreach
  have := active_subset (l := [1, 2, 3]) (by decide) (by decide) hactive
  revert this
  decide

end AbstractCfg

end Liss
