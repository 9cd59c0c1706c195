/-
`cfg/abstract_cfg.h`: the CFGs that can be built with `add_state`, `add_dummy_state`, `add_edge` and the fields that the
visitors set in a state.

- `Constructed.everyEdge`: a rule for what holds of every edge;
- `Constructed.proper`: the two vectors grow together, edges lead to states, every symbol carries the number of its
  state, actions are no tags, tags are;
- `Proper.minimise`: all of this is left by `minimise`.
-/
import Liss.Cfg.Passes

namespace Liss

namespace AbstractCfg

variable {c : AbstractCfg}

/-- the visitors' steps: actions are no tags, edges lead to states that are there -/
inductive Constructed : AbstractCfg → Prop
  | empty (threadId : ℕ) : Constructed (empty threadId)
  | addState {c c' : AbstractCfg} (hc : Constructed c) (symbol : Symbol) (hop : symbol.operation ≠ .tag)
      (hadd : c.addState symbol = some c') : Constructed c'
  | addDummyState {c c' : AbstractCfg} (hc : Constructed c) (hadd : c.addDummyState = some c') : Constructed c'
  | addEdge {c : AbstractCfg} {dst : ℕ} (hc : Constructed c) (hd : dst ≠ noState ∧ dst < c.states.length) (src : ℕ)
      (backEdge autoTag : Bool) (cost : ℤ) : Constructed (c.addEdge src dst backEdge autoTag cost)
  | setFields {c : AbstractCfg} (hc : Constructed c) (id : ℕ) (final nonDet : Bool) (returnState : ℕ)
      (lockBefore lockAfter : Option ℕ) : Constructed (c.modifyState id fun s =>
        { s with final := final, nonDet := nonDet, returnState := returnState, lockBefore := lockBefore,
                 lockAfter := lockAfter })

/-- the action or the representing symbol of a state carries its number, and an action is no tag -/
def State.Own (threadId id : ℕ) (s : State) : Prop :=
  (∀ a, s.action = some a → a.loc = ⟨threadId, id⟩ ∧ a.operation ≠ .tag) ∧
    ∀ a, s.nonActionSymbol = some a → a.loc = ⟨threadId, id⟩

theorem State.own_congr {threadId id : ℕ} {s s' : State} (h1 : s.action = s'.action)
    (h2 : s.nonActionSymbol = s'.nonActionSymbol) (h : State.Own threadId id s') : State.Own threadId id s := by
  rw [State.Own, h1, h2]
  exact h

/-- what every constructed CFG has, before and after `minimise` -/
structure Proper (c : AbstractCfg) : Prop where
  ranged : c.Ranged
  own : ∀ id s, c.states[id]? = some s → State.Own c.threadId id s
  tag : c.EveryEdge fun _ e => ∀ t, e.tag = some t → t.operation = .tag

/-! ## Construction -/

/-- a new state has no edges -/
theorem getSuccessors_append (c : AbstractCfg) (s : State) (u : ℕ) :
    ({ c with states := c.states ++ [s], edges := c.edges ++ [[]] } : AbstractCfg).getSuccessors u =
      c.getSuccessors u := by
  simp only [getSuccessors, List.getD_eq_getElem?_getD, List.getElem?_append]
  split_ifs with hu
  · rfl
  · have hnone : c.edges[u]? = none := List.getElem?_eq_none (by omega)
    rw [hnone]
    cases u - c.edges.length <;> rfl

theorem everyEdge_append {Q : ℕ → Edge → Prop} (h : c.EveryEdge Q) (s : State) :
    ({ c with states := c.states ++ [s], edges := c.edges ++ [[]] } : AbstractCfg).EveryEdge Q := by
  intro u e he
  rw [getSuccessors_append] at he
  exact h u e he

theorem Proper.append (h : c.Proper) {s : State} (hs : State.Own c.threadId c.states.length s) :
    ({ c with states := c.states ++ [s], edges := c.edges ++ [[]] } : AbstractCfg).Proper := by
  refine ⟨⟨by simp [h.ranged.sized], fun u e he => ?_⟩, fun id s' hs' => ?_, everyEdge_append h.tag s⟩
  · obtain ⟨h1, h2⟩ := everyEdge_append h.ranged.target s u e he
    exact ⟨h1, by rw [List.length_append]; exact Nat.lt_add_right _ h2⟩
  · simp only [List.getElem?_append] at hs'
    split_ifs at hs' with hid
    · exact h.own id s' hs'
    · obtain ⟨hlt, hget⟩ := List.getElem?_eq_some_iff.1 hs'
      have heq : id = c.states.length := by simp at hlt; omega
      subst heq
      simp only [Nat.sub_self, List.getElem_singleton] at hget
      exact hget ▸ hs

theorem everyEdge_empty (threadId : ℕ) (Q : ℕ → Edge → Prop) : (empty threadId).EveryEdge Q := by
  intro u e he
  obtain ⟨es, hes, hm⟩ := mem_edges_of_getSuccessors he
  rw [List.mem_singleton.1 hes] at hm
  simp at hm

/-- **Rule for the edges of a constructed CFG.** -/
theorem Constructed.everyEdge (hc : c.Constructed) {Q : ℕ → Edge → Prop}
    (hnew : ∀ src dst backEdge cost, Q src { dst := dst, backEdge := backEdge, cost := cost })
    (htag : ∀ u e n, Q u e → Q u { e with tag := some (Symbol.ofBranch c.threadId u n) }) : c.EveryEdge Q := by
  induction hc with
  | empty threadId => exact everyEdge_empty threadId Q
  | addState _ _ _ hadd ih =>
    unfold AbstractCfg.addState at hadd
    split_ifs at hadd
    obtain rfl := Option.some.inj hadd
    exact everyEdge_append (ih htag) _
  | addDummyState _ hadd ih =>
    unfold AbstractCfg.addDummyState at hadd
    split_ifs at hadd
    obtain rfl := Option.some.inj hadd
    exact everyEdge_append (ih htag) _
  | addEdge _ _ src backEdge _ cost ih => exact (ih htag).addEdge (hnew src _ backEdge cost) (htag src)
  | setFields _ _ _ _ _ _ _ ih => exact ih htag

/-- no states have been removed yet -/
theorem Constructed.direct (hc : c.Constructed) : c.EveryEdge fun _ e => e.inBetweeners = [] :=
  hc.everyEdge (fun _ _ _ _ => rfl) fun _ _ _ he => he

/-- tags are those of branches -/
theorem Constructed.tags (hc : c.Constructed) :
    c.EveryEdge fun _ e => ∀ t, e.tag = some t → ∃ s n, t = Symbol.ofBranch c.threadId s n :=
  hc.everyEdge (fun _ _ _ _ t ht => by simp at ht) fun u _ n _ _ ht => ⟨u, n, (Option.some.inj ht).symm⟩

theorem proper_empty (threadId : ℕ) : (empty threadId).Proper := by
  refine ⟨⟨rfl, everyEdge_empty threadId _⟩, fun id s hs => ?_, everyEdge_empty threadId _⟩
  cases id with
  | zero =>
    obtain rfl := Option.some.inj hs
    exact ⟨fun _ ha => by simp [State.ofId] at ha, fun a ha => Option.some.inj ha ▸ rfl⟩
  | succ id => simp [empty] at hs

/-- fields of states other than the symbols -/
theorem Proper.modifyState (h : c.Proper) (id : ℕ) {f : State → State} (hact : ∀ s, (f s).action = s.action)
    (hnon : ∀ s, (f s).nonActionSymbol = s.nonActionSymbol) : (c.modifyState id f).Proper := by
  refine ⟨⟨h.ranged.sized.trans (c.length_states_modifyState id f).symm, fun u e he => ?_⟩, fun j s hs => ?_, h.tag⟩
  · rw [length_states_modifyState]
    exact h.ranged.target u e he
  · simp only [AbstractCfg.modifyState, List.getElem?_modify] at hs
    obtain ⟨s', hs', rfl⟩ := Option.map_eq_some_iff.1 hs
    have hown := h.own j s' hs'
    split_ifs
    · exact State.own_congr (hact s') (hnon s') hown
    · exact hown

/-- **Construction.** -/
theorem Constructed.proper (hc : c.Constructed) : c.Proper := by
  induction hc with
  | empty threadId => exact proper_empty threadId
  | @addState c c' _ symbol hop hadd ih =>
    unfold AbstractCfg.addState at hadd
    split_ifs at hadd
    obtain rfl := Option.some.inj hadd
    refine ih.append ⟨fun a ha => ?_, fun a ha => by simp [State.ofAction] at ha⟩
    obtain rfl := Option.some.inj ha
    exact ⟨rfl, hop⟩
  | @addDummyState c c' _ hadd ih =>
    unfold AbstractCfg.addDummyState at hadd
    split_ifs at hadd
    obtain rfl := Option.some.inj hadd
    exact ih.append ⟨fun a ha => by simp [State.ofId] at ha, fun a ha => Option.some.inj ha ▸ rfl⟩
  | @addEdge c dst _ hd src backEdge autoTag cost ih =>
    refine ⟨⟨(c.length_edges_setEdges _ _).trans ih.ranged.sized, ?_⟩, ih.own, ?_⟩
    · exact ih.ranged.target.addEdge hd fun _ _ he => he
    · exact ih.tag.addEdge (fun t ht => by simp at ht) fun _ _ _ t ht => Option.some.inj ht ▸ rfl
  | setFields _ id _ _ _ _ _ ih => exact ih.modifyState id (fun _ => rfl) fun _ => rfl

/-! ## `minimise` -/

theorem Proper.minimise (h : c.Proper) {leaveLockables : Bool} {fuel : ℕ} {c' : AbstractCfg}
    (hc : c.minimise leaveLockables fuel = some c') : c'.Proper := by
  have hsize := sameSize_minimise hc
  refine ⟨h.ranged.minimise hc, fun id s hs => ?_, ?_⟩
  · obtain ⟨s', hs', hact, hnon⟩ := states_minimise hc hs
    rw [hsize.threadId]
    exact State.own_congr hact hnon (h.own id s' hs')
  · refine minimise_edges ⟨fun _ e e2 he _ he2 t ht => ?_, fun _ _ _ h => h, fun _ _ _ h => h,
      fun _ _ _ _ t ht => Option.some.inj ht ▸ rfl⟩ h.tag hc
    simp only [joinEdge] at ht
    cases ht2 : e2.tag with
    | some t2 => exact he2 t (by simpa [ht2] using ht)
    | none => exact he t (by simpa [ht2] using ht)

end AbstractCfg

end Liss
