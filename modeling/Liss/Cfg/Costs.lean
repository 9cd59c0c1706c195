/-
The costs of the edges after `minimise(false)`.

Only a back edge is given a cost, by the distances of its ends. Any other edge has the cost of the edge that it was made
from, and that may be a cost of the `minimise(true)` before.

- `marked_cost`, `unmarked_cost`: where the cost of an edge comes from;
- `Parsed.minimise_costless`: no edge of a parsed CFG has a cost before, so that afterwards only the back edges have
  one;
- `costless_added`: the same after `minimise(true)` and `compact`, if that graph was reducible. There the target of a
  back edge dominates its source, and an edge that is made from one is a back edge again.
-/
import Liss.Cfg.Threads

namespace Liss

namespace AbstractCfg

variable {c m k : AbstractCfg} {leaveLockables : Bool} {fuel : ℕ}

/-- only back edges have a cost -/
def Costless (c : AbstractCfg) : Prop :=
  ∀ u ∈ c.Reached, ∀ e ∈ c.getSuccessors u, e.backEdge = false → e.cost = 0

theorem marked_cost (h : c.minimise leaveLockables fuel = some m) {u : ℕ} (hu : u ≠ noState) {e : Edge}
    (he : e ∈ m.getSuccessors u) (hb : e.backEdge = true) : e.cost = m.distance u - m.distance e.dst + 1 := by
  obtain ⟨c1, c2, -, rfl, -, -, -⟩ := minimise_loops h
  rw [getSuccessors_backEdgeCosts] at he
  obtain ⟨e', -, rfl⟩ := List.mem_map.1 he
  rw [backEdge_withCost] at hb
  rw [dst_withCost, withCost, if_pos ⟨hu, hb⟩]
  rfl

/-- the edge that leads to the target of an edge without a mark has its cost -/
theorem unmarked_cost (h : c.minimise leaveLockables fuel = some m) {u : ℕ} {e : Edge} (he : e ∈ m.getSuccessors u)
    (hb : e.backEdge = false) :
    ∃ d ∈ u :: e.inBetweeners, ∃ e' ∈ c.getSuccessors d, e'.dst = e.dst ∧ e'.cost = e.cost := by
  obtain ⟨c1, c2, h1, rfl, -, hinv, -⟩ := minimise_loops h
  have hfirst : c1.EveryEdge fun u e =>
      ∃ d ∈ u :: e.inBetweeners, ∃ e' ∈ c.getSuccessors d, e'.dst = e.dst ∧ e'.cost = e.cost := by
    refine LoopRule.minimiseEdges ⟨fun u e e2 _ _ ⟨d, hd, e', he'⟩ => ⟨d, ?_, e', he'⟩, fun _ _ _ h => h,
      fun _ _ _ h => h⟩ (fun u e he => ⟨u, List.mem_cons_self, e, he, rfl, rfl⟩) h1
    exact List.mem_cons_of_mem _ (List.mem_append_right _ hd)
  rw [getSuccessors_backEdgeCosts] at he
  obtain ⟨e2, he2, rfl⟩ := List.mem_map.1 he
  rw [backEdge_withCost] at hb
  rw [withCost, if_neg fun hh => by simp [hb] at hh]
  -- the second loop marks edges, and does nothing else to them
  have hmem : unmark e2 ∈ (c1.getSuccessors u).map unmark := hinv.edges u ▸ List.mem_map_of_mem he2
  obtain ⟨e1, he1, heq⟩ := List.mem_map.1 hmem
  obtain ⟨d, hd, e', he', hdst, hcost⟩ := hfirst u e1 he1
  simp only [unmark, Edge.mk.injEq, true_and] at heq
  obtain ⟨hd1, -, hcost1, hin⟩ := heq
  exact ⟨d, hin ▸ hd, e', he', hdst.trans hd1, hcost.trans hcost1⟩

/-- **A parsed CFG.** -/
theorem Parsed.minimise_costless (hc : c.Parsed) (h : c.minimise leaveLockables fuel = some m) : m.Costless := by
  intro u _ e he hb
  obtain ⟨d, -, e', he', -, hcost⟩ := unmarked_cost h he hb
  exact hcost.symm.trans (hc.costless d e' he')

/-! ## After `minimise(true)` and `compact` -/

/-- an edge with a cost leads to a dominator -/
def Charged (c : AbstractCfg) : Prop :=
  ∀ u ∈ c.Reached, ∀ e ∈ c.getSuccessors u, e.cost ≠ 0 → Dominates c.HasEdge 1 e.dst u

theorem Parsed.charged (hc : c.Parsed) (h : c.minimise leaveLockables fuel = some m) (hred : Reducible m.HasEdge 1) :
    m.Charged := by
  intro u hu e he hcost
  apply dominates_of_onPath hred ⟨e, he, rfl⟩
  rw [← (minimise_distances h hu he).1]
  by_contra hb
  exact hcost (hc.minimise_costless h u hu e he (by simpa using hb))

/-- a copy of the reachable part leads to no other states -/
theorem hasEdge_copy {f : ℕ → ℕ} (hedges : EdgesRenumbered m k m.Reached f) {u : ℕ} (hu : u ∈ m.Reached) (y : ℕ) :
    k.HasEdge (f u) y ↔ ∃ v, m.HasEdge u v ∧ y = f v := by
  unfold HasEdge
  rw [hedges u hu]
  constructor
  · intro ⟨e, he, hd⟩
    obtain ⟨e', he', rfl⟩ := List.mem_map.1 he
    exact ⟨e'.dst, ⟨e', he', rfl⟩, hd.symm⟩
  · intro ⟨v, ⟨e, he, hd⟩, hy⟩
    exact ⟨_, List.mem_map_of_mem he, by rw [hy, ← hd]⟩

theorem reached_copy {f : ℕ → ℕ} (hstart : f 1 = 1) (hedges : EdgesRenumbered m k m.Reached f) {x : ℕ}
    (hx : x ∈ k.Reached) : ∃ u ∈ m.Reached, x = f u := by
  induction hx with
  | refl => exact ⟨1, .refl, hstart.symm⟩
  | tail _ he ih =>
    obtain ⟨u, hu, rfl⟩ := ih
    obtain ⟨v, hv, rfl⟩ := (hasEdge_copy hedges hu _).1 he
    exact ⟨v, hu.tail hv, rfl⟩

theorem Charged.copy {f : ℕ → ℕ} (hm : m.Charged) (hf : Renumbered m k m.Reached f)
    (hedges : EdgesRenumbered m k m.Reached f) : k.Charged := by
  intro x hx e he hcost
  obtain ⟨u, hu, rfl⟩ := reached_copy hf.start hedges hx
  rw [hedges u hu] at he
  obtain ⟨e', he', rfl⟩ := List.mem_map.1 he
  have := (hm u hu e' he' hcost).copy hf.bij.injOn (fun _ hu y => hasEdge_copy hedges hu y) hu
  rwa [hf.start] at this

/-- the contraction keeps dominators -/
theorem Charged.costless (hk : k.Charged) (hframed : k.Framed)
    (hdirect : ∀ u, u ≠ noState → ∀ e ∈ k.getSuccessors u, e.inBetweeners = [])
    (h : k.minimise leaveLockables fuel = some m) : m.Costless := by
  obtain ⟨c1, c2, -, -, hedge, -, hvisited⟩ := minimise_loops h
  have hlink : ∀ u ∈ m.Reached, ∀ e ∈ m.getSuccessors u,
      k.kept leaveLockables e.dst = true ∧ Link k.HasEdge (k.kept leaveLockables) u e.inBetweeners e.dst := by
    intro u hu e he
    obtain ⟨e1, he1, hd⟩ := (hedge u e.dst).1 ⟨e, he, rfl⟩
    have hne := (hframed.minimise h).reached hu
    exact ⟨hd ▸ (hvisited u hu).kept e1 he1, minimise_links hframed.target hdirect h hne he⟩
  intro u hu e he hb
  by_contra hcost
  obtain ⟨d, hd, e', he', hdst, heq⟩ := unmarked_cost h he hb
  obtain ⟨hkept, hl⟩ := hlink u hu e he
  -- a simple path that leaves out the target gives a way to `d` that leaves it out
  obtain ⟨p, hp⟩ := exists_rootPath hu
  have hnot : e.dst ∉ u :: p := by
    intro hmem
    rw [((minimise_distances h hu he).1).2 ⟨p, hp, hmem⟩] at hb
    simp at hb
  have hone : e.dst ≠ 1 := fun h1 => hnot (h1 ▸ hp.root_mem)
  have hpath : Relation.ReflTransGen (fun a b => k.HasEdge a b ∧ b ≠ e.dst) 1 u := by
    apply way_of_rootPath hp hnot
    intro a b ha hab hne
    obtain ⟨f, hf, rfl⟩ := hab
    exact ((hlink a ha f hf).2.way hkept).2 hne
  have hway := hpath.trans ((hl.way hkept).1 d hd)
  have hreach : d ∈ k.Reached := Relation.ReflTransGen.mono (fun _ _ hab => hab.1) _ _ hway
  have hdom := hk d hreach e' he' (heq ▸ hcost)
  exact (hdst ▸ hdom).on_way hone hway

/-- **A CFG as `add_thread` makes it.** -/
theorem costless_added (hc : c.Parsed) {fuel' fuel'' : ℕ} {m1 : AbstractCfg} (h1 : c.minimise true fuel = some m1)
    (hred : Reducible m1.HasEdge 1) (h2 : m1.compact fuel' = some k) (h : k.minimise false fuel'' = some m) :
    m.Costless := by
  obtain ⟨f, hf, hedges⟩ := (compact_of_reducible hc.constructed hc.size h1 hred).2 fuel' k h2
  refine ((hc.charged h1 hred).copy hf hedges).costless (Prepared.added hc h1 h2).framed ?_ h
  intro u hu e he
  have hproper := hc.constructed.proper.minimise h1
  have hsize : 1 < m1.states.length := by
    rw [(sameSize_minimise h1).states]
    exact hc.size
  obtain ⟨actives, hcomp⟩ := compact_spec hproper.ranged hsize h2
  rcases hcomp.origin (compact_sized hproper.ranged.sized h2) hu with ⟨-, hnil⟩ | ⟨id, -, -, -, -, hsucc⟩
  · simp [hnil] at he
  · rw [hsucc] at he
    obtain ⟨e', -, rfl⟩ := List.mem_map.1 he
    rfl

end AbstractCfg

end Liss
