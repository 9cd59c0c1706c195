/-
`cfg/program.cpp`: the passes of `add_thread`, which is given the CFG of a thread and keeps two copies of it.

- `prepare_total`: the passes come to an end;
- `executions_prepare`: both copies read what the thread reads, if `compact` loses no state;
- `accepted_prepare`: so does the automaton of the second copy, if its branches can be told apart;
- `Parsed.wellFormed`: a program can take the thread.
-/
import Liss.Cfg.Readings
import Liss.Cfg.Program
import Liss.Cfg.Returns
import Liss.Cfg.Walks

namespace Liss

namespace AbstractCfg

variable {c m k t : AbstractCfg} {s : IdentifierStore} {fuel fuel' : ℕ} {leaveLockables : Bool}

/-- the copies of a thread in `threads` and in `minimised_threads` -/
def prepare (c : AbstractCfg) (fuel : ℕ) : Option (AbstractCfg × AbstractCfg) :=
  ((c.minimise true fuel).bind fun t => t.compact fuel).bind fun t => (t.minimise false fuel).map fun m => (t, m)

theorem prepare_eq_some (h : c.prepare fuel = some (t, m)) :
    ∃ t1, c.minimise true fuel = some t1 ∧ t1.compact fuel = some t ∧ t.minimise false fuel = some m := by
  unfold prepare at h
  simp only [Option.bind_eq_some_iff, Option.map_eq_some_iff, Prod.mk.injEq] at h
  obtain ⟨t', ⟨t1, h1, h2⟩, m', h3, rfl, rfl⟩ := h
  exact ⟨t1, h1, h2, h3⟩

/-! ## Fuel -/

/-- state 0 is not moved -/
theorem getSuccessors_compactShift (is : List ℕ) (st : CompactState) (his : ∀ i ∈ is, i ≠ 0) :
    (compactShift is st).cfg.getSuccessors 0 = st.cfg.getSuccessors 0 := by
  induction is generalizing st with
  | nil => rfl
  | cons i is ih =>
    have hi := his i (List.mem_cons_self ..)
    have hrest := fun j (hj : j ∈ is) => his j (List.mem_cons_of_mem _ hj)
    rw [compactShift]
    split_ifs
    · exact ih _ hrest
    · split
      · rfl
      · rename_i j hj
        have hj0 : j ≠ 0 := by
          have hmem := List.mem_of_find?_eq_some hj
          rw [List.mem_range'_1] at hmem
          omega
        refine (ih _ hrest).trans ?_
        show ((st.cfg.setEdges i (st.cfg.getSuccessors j)).setEdges j []).getSuccessors 0 = _
        rw [getSuccessors_setEdges, if_neg fun h => hj0 h.1, getSuccessors_setEdges, if_neg fun h => hi h.1]

theorem getSuccessors_compact (h : c.compact fuel = some k) (h0 : c.getSuccessors 0 = []) : k.getSuccessors 0 = [] := by
  unfold compact at h
  simp only [Option.bind_eq_bind, Option.bind_eq_some_iff, Option.pure_def, Option.some.injEq] at h
  obtain ⟨active, -, rfl⟩ := h
  set st := compactShift (List.range' 1 c.noStates)
    { cfg := c, active := active, mapping := List.replicate c.states.length noState, lastActive := 0 }
  have hst : st.cfg.getSuccessors 0 = [] := by
    rw [getSuccessors_compactShift _ _ fun i hi => by rw [List.mem_range'_1] at hi; omega]
    exact h0
  rw [getSuccessors, List.getD_eq_getElem?_getD] at hst
  simp only [getSuccessors, List.getD_eq_getElem?_getD, List.getElem?_mapIdx, List.getElem?_take, if_true]
  by_cases hlast : 0 < st.lastActive + 1
  · rw [if_pos hlast, Option.map_id']
    exact hst
  · rw [if_neg hlast]
    rfl

/-- after `minimise(true)` and `compact` the thread can be minimised again -/
theorem Parsed.fresh_compact (hc : c.Parsed) (hfresh : c.Fresh) (h0 : c.getSuccessors 0 = [])
    (h1 : c.minimise true fuel = some t) (h2 : t.compact fuel' = some k) : k.Fresh := by
  have hproper := hc.constructed.proper.minimise h1
  have hstart : 1 < t.states.length := by
    rw [(sameSize_minimise h1).states]
    exact hc.size
  obtain ⟨actives, hk⟩ := compact_spec hproper.ranged hstart h2
  have hsize := compact_sized hproper.ranged.sized h2
  have hzero : k.getSuccessors 0 = [] := getSuccessors_compact h2 (minimise_leaf h1 h0)
  have hone := (compacted_renumbered hproper hstart hk).start
  have hbij := (compacted_renumbered hproper hstart hk).bij
  have hentry : t.EveryEdge fun _ e => e.dst ≠ 1 := by
    refine minimise_edges ⟨fun _ _ _ _ _ h2 => h2, fun _ _ _ h => h, fun _ _ _ h => h, fun _ _ _ h => h⟩ ?_ h1
    exact fun u e he hd => hfresh.entry u ⟨e, he, hd⟩
  have hnodes : ∀ u, ∀ e ∈ k.getSuccessors u, e.dst ≠ 1 ∧ e.inBetweeners = [] := by
    intro u e he
    by_cases hu : u = noState
    · rw [hu, show (noState : ℕ) = 0 from rfl, hzero] at he
      simp at he
    · rcases hk.origin hsize hu with ⟨-, hnil⟩ | ⟨id, hid, -, -, -, hsucc⟩
      · simp [hnil] at he
      · rw [hsucc] at he
        obtain ⟨e', he', rfl⟩ := List.mem_map.1 he
        have hne : e'.dst ≠ 1 := hentry id e' he'
        refine ⟨?_, rfl⟩
        simp only [renumberEdge, renumber]
        split_ifs with hmem
        · intro heq
          exact hne (hbij.injOn ((hk.mem _).1 hmem) (show t.Active 1 from .refl) (heq.trans hone.symm))
        · exact hne
  refine ⟨fun u hu => ?_, fun u e he => (hnodes u e he).2⟩
  obtain ⟨e, he, hd⟩ := hu
  exact (hnodes u e he).1 hd

/-- the passes lose no state that they should keep -/
def Lossless (c : AbstractCfg) : Prop := ∀ y ∈ c.Reached, c.kept true y = true → c.Survives y

theorem reached_of_link {x y : ℕ} {ds : List ℕ} (hx : x ∈ c.Reached)
    (hl : Link c.HasEdge (c.kept leaveLockables) x ds y) : y ∈ c.Reached := by
  induction ds generalizing x with
  | nil => exact Relation.ReflTransGen.tail hx (link_nil.1 hl)
  | cons d ds ih =>
    obtain ⟨he, -, hl⟩ := link_cons.1 hl
    exact ih (Relation.ReflTransGen.tail hx he) hl

/-- the kept states that are reached are reached over the links -/
theorem contracted_of_reached {y : ℕ} (hy : y ∈ c.Reached) (hk : c.kept leaveLockables y = true) :
    Relation.ReflTransGen (c.Contracted leaveLockables) 1 y := by
  have hstep : ∀ (u : ℕ) (ds : List ℕ) (v : ℕ), Relation.ReflTransGen (c.Contracted leaveLockables) 1 u →
      Link c.HasEdge (c.kept leaveLockables) u ds v → c.kept leaveLockables v = true →
        Relation.ReflTransGen (c.Contracted leaveLockables) 1 v := fun u ds v hu hl hv => hu.tail ⟨hv, ds, hl⟩
  obtain ⟨u, hu, rfl | ⟨hnot, -⟩⟩ := through_closed hstep .refl hy
  · exact hu
  · rw [hk] at hnot
    simp at hnot

/-- in a reducible graph nothing is lost -/
theorem lossless_of_reducible (hred : Reducible (c.Contracted true) 1) : c.Lossless := fun _ hy hk =>
  forward_of_reducible hred (contracted_of_reached hy hk)

theorem Lossless.active (hall : c.Lossless) (hc : c.Constructed) (h : c.minimise true fuel = some m) :
    ∀ y ∈ m.Reached, m.Active y := by
  have hreached : ∀ y ∈ m.Reached, y ∈ c.Reached ∧ (y = 1 ∨ c.kept true y = true) := by
    intro y hy
    induction hy with
    | refl => exact ⟨.refl, .inl rfl⟩
    | @tail x y hx hxy ih =>
      obtain ⟨hk, ds, hl⟩ := (hasEdge_minimise hc h hx y).1 hxy
      exact ⟨reached_of_link ih.1 hl, .inr hk⟩
  intro y hy
  rw [active_iff_survives hc h]
  obtain ⟨hc', rfl | hk⟩ := hreached y hy
  · exact .refl
  · exact hall y hc' hk

/-- the end of a thread can be reached and is noted in state 1, and both have no place for a lock -/
structure Ended (c : AbstractCfg) : Prop where
  final : ∀ y, (c.getState y).final = true ↔ y = (c.getState 1).returnState
  reached : (c.getState 1).returnState ∈ c.Reached
  start : (c.getState 1).lockable = false
  exit : (c.getState (c.getState 1).returnState).lockable = false

/-- **The passes.** -/
theorem executions_prepare (hc : c.Parsed) (h : c.prepare fuel = some (t, m)) (hall : c.Lossless) :
    t.executions s = c.executions s ∧ m.executions s = c.executions s := by
  obtain ⟨t1, h1, h2, h3⟩ := prepare_eq_some h
  have hfirst : t1.executions s = c.executions s :=
    executions_minimise hc.framed (fun u _ => hc.constructed.direct u) h1
  have hsecond : t.executions s = t1.executions s := executions_compact hc.constructed hc.size h1
    (hall.active hc.constructed h1) h2
  have hthird : m.executions s = t.executions s :=
    executions_minimise (Prepared.added hc h1 h2).framed (fun _ hu => compact_direct h2 hu) h3
  have hcopy : t.executions s = c.executions s := hsecond.trans hfirst
  exact ⟨hcopy, hthird.trans hcopy⟩

/-! ## What is accepted -/

/-- the events of a word, whose tags say only which way was taken -/
def eventsOf (s : IdentifierStore) (w : List Symbol) : List Event := (untagged w).map s.event

theorem eventsOf_append (w w' : List Symbol) : eventsOf s (w ++ w') = eventsOf s w ++ eventsOf s w' := by
  rw [eventsOf, untagged_append, List.map_append]
  rfl

/-- on an edge the events of the target are read -/
theorem eventsOf_edgeLabel (hm : m.Framed) {u : ℕ} (hu : u ≠ noState) {e : Edge} (he : e ∈ m.getSuccessors u) :
    eventsOf s (m.edgeLabel u e) = m.reads s e.dst := by
  have htag : ∀ t, e.tag = some t → t.operation = .tag := fun t ht => by
    obtain ⟨x, n, rfl⟩ := hm.tag u hu e he t ht
    rfl
  have haction : ∀ a, (m.getState e.dst).action = some a → a.operation ≠ .tag :=
    fun a ha => (hm.own e.dst (hm.target u hu e he) a ha).2
  have hfirst : ∀ b : Prop, [Decidable b] → eventsOf s (if b then e.tag.toList else []) = [] := by
    intro b _
    split_ifs
    · cases ht : e.tag with
      | none => rfl
      | some t => simp [eventsOf, untagged, htag t ht]
    · rfl
  rw [edgeLabel, eventsOf_append, hfirst, List.nil_append, reads]
  cases ha : (m.getState e.dst).action with
  | none => rfl
  | some a => simp [eventsOf, untagged, haction a ha]

/-- **Words and readings.** -/
theorem endWord_iff_arrives (hm : m.Framed) {u : ℕ} (hu : u ≠ noState) (ev : List Event) :
    (∃ w, m.EndWord u w ∧ m.reads s u ++ eventsOf s w = ev) ↔
      ∃ y, (m.getState y).final = true ∧ (m.graph s).Arrives y u ev := by
  constructor
  · rintro ⟨w, ⟨y, hp, hf⟩, rfl⟩
    refine ⟨y, hf, ?_⟩
    induction hp with
    | nil u =>
      rw [show eventsOf s [] = [] from rfl, List.append_nil]
      exact .here rfl
    | @cons u v e w he _ ih =>
      have hne : u ≠ v := by
        rintro rfl
        rw [(hm.exit u hu hf).2] at he
        simp at he
      have hrest := ih (hm.target u hu e he) hf
      rw [eventsOf_append, eventsOf_edgeLabel hm hu he]
      exact .step hne rfl ⟨e, he, rfl⟩ hrest
  · rintro ⟨y, hf, harr⟩
    induction harr with
    | @here w hw =>
      refine ⟨[], endWord_nil hf, ?_⟩
      rw [show eventsOf s [] = [] from rfl, List.append_nil]
      exact (Set.mem_singleton_iff.1 hw).symm
    | @step u v x w hne hx he _ ih =>
      obtain ⟨e, he, rfl⟩ := he
      obtain ⟨w', hw', rfl⟩ := ih (hm.target u hu e he)
      refine ⟨m.edgeLabel u e ++ w', hw'.cons he, ?_⟩
      rw [eventsOf_append, eventsOf_edgeLabel hm hu he, ← Set.mem_singleton_iff.1 hx]

/-- what the automaton of a thread accepts, without the tags -/
def accepted (m : AbstractCfg) (s : IdentifierStore) : Language Event :=
  {ev | ∃ w, m.threadAutomaton.Accepts w ∧ eventsOf s w = ev}

theorem accepted_eq_executions (hm : m.Framed) (h : c.minimise false fuel = some m) (hb : m.BranchesDecide) :
    m.accepted s = m.executions s := by
  have hstart : m.reads s 1 = [] := by
    rw [reads, hm.start.1]
    rfl
  have hwords : ∀ w, m.threadAutomaton.Accepts w ↔ m.EndWord 1 w := by
    intro w
    rw [accepts_iff_acceptsFrom]
    refine ⟨fun hw => (acceptsFrom_sound hm h w 1 .refl).2 (.inl rfl) hw, fun hw => ?_⟩
    obtain ⟨v, hp, hf⟩ := hw
    exact (acceptsFrom_complete hm h hb hp hf .refl).2 hm.start.2
  ext ev
  refine Iff.trans ?_ (endWord_iff_arrives hm (by decide) ev)
  refine exists_congr fun w => ?_
  rw [hwords w, hstart, List.nil_append]

/-- the automaton of the second copy -/
theorem accepted_copy (hc : c.Parsed) (h : c.prepare fuel = some (t, m)) (hb : m.BranchesDecide) :
    m.accepted s = m.executions s := by
  obtain ⟨t1, h1, h2, h3⟩ := prepare_eq_some h
  have hframed : m.Framed := (Prepared.added hc h1 h2).framed.minimise h3
  exact accepted_eq_executions hframed h3 hb

/-- a read in a loop around a write that has a place for a lock, and the end of the thread -/
def writeRound : AbstractCfg :=
  (((((((⟨0, [State.ofId 0 0, State.ofId 0 1, State.ofAction { operation := .read, var := 0, loc := ⟨0, 2⟩ },
    State.ofAction { storeX with loc := ⟨0, 3⟩ }, State.ofId 0 4], [[], [], [], [], []]⟩ :
    AbstractCfg).addEdge 1 2).addEdge 2 3).addEdge 3 2 true).addEdge 2 4).modifyState 1 fun s =>
      { s with final := false, nonDet := false, returnState := 4, lockBefore := none, lockAfter := none }).modifyState
    3 fun s =>
      { s with final := false, nonDet := false, returnState := 0, lockBefore := some 0, lockAfter := some 1 }).modifyState
    4 fun s => { s with final := true, nonDet := false, returnState := 0, lockBefore := none, lockAfter := none }

theorem writeRound_prepare : (writeRound.prepare 20).isSome = true := by decide

theorem writeRound_parsed : writeRound.Parsed := by
  refine parsed_of_lt ?_ (by decide) (by decide) (by decide) (by decide)
  exact .setFields (.setFields (.setFields (.addEdge (.addEdge (.addEdge (.addEdge (.addDummyState (.addState (.addState
    (.addDummyState (.empty 0) rfl) { operation := .read, var := 0, loc := ⟨0, 0⟩ } (by decide) rfl) storeX (by decide)
    rfl) rfl) (by decide) 1 false true 0) (by decide) 2 false true 0) (by decide) 3 true true 0) (by decide) 2 false
    true 0) 1 false false 4 none none) 3 false false 0 (some 0) (some 1)) 4 true false 0 none none

theorem writeRound_minimise : (writeRound.minimise true 20).isSome = true := by decide

theorem writeRound_lossless : writeRound.Lossless := by
  have hmin := (Option.some_get writeRound_minimise).symm
  have hedge : ∀ u v, (∃ e ∈ ((writeRound.minimise true 20).get writeRound_minimise).getSuccessors u,
      e.backEdge = false ∧ e.dst = v) → UnmarkedEdge ((writeRound.minimise true 20).get writeRound_minimise) u v :=
    fun _ _ h => h
  have h2 : Active ((writeRound.minimise true 20).get writeRound_minimise) 2 := .single (hedge 1 2 (by decide))
  intro y hy _
  rw [← active_iff_survives writeRound_parsed.constructed hmin]
  have hmem := reached_subset (l := [1, 2, 3, 4]) (by decide) (by decide) y hy
  simp only [List.mem_cons, List.not_mem_nil, or_false] at hmem
  rcases hmem with rfl | rfl | rfl | rfl
  · exact .refl
  · exact h2
  · exact h2.tail (hedge 2 3 (by decide))
  · exact h2.tail (hedge 2 4 (by decide))

/-- **From the thread to its automaton.** -/
theorem accepted_prepare (hc : c.Parsed) (h : c.prepare fuel = some (t, m)) (hall : c.Lossless)
    (hb : m.BranchesDecide) : m.accepted s = c.executions s :=
  calc m.accepted s = m.executions s := accepted_copy hc h hb
    _ = c.executions s := (executions_prepare hc h hall).2

/-- the automaton of the loop reads what the loop reads -/
theorem writeRound_accepted : writeRound.Parsed ∧ writeRound.Lossless ∧
    ((writeRound.prepare 20).get writeRound_prepare).2.BranchesDecide ∧
    ((writeRound.prepare 20).get writeRound_prepare).2.accepted {} = writeRound.executions {} := by
  have h := (Option.some_get writeRound_prepare).symm
  obtain ⟨t, h1, h2, h3⟩ := prepare_eq_some h
  have hdecide : ((writeRound.prepare 20).get writeRound_prepare).2.BranchesDecide := by
    apply branchesDecide_of_le ((Prepared.added writeRound_parsed h1 h2).framed.minimise h3) h3
    intro u hu
    have hmem := reached_subset (l := [1, 2, 3, 4]) (by decide) (by decide) u hu
    have hall : ∀ u ∈ [1, 2, 3, 4],
        (((writeRound.prepare 20).get writeRound_prepare).2.getSuccessors u).length ≤ 256 := by decide
    exact hall u hmem
  exact ⟨writeRound_parsed, writeRound_lossless, hdecide,
    accepted_prepare writeRound_parsed h writeRound_lossless hdecide⟩

end AbstractCfg

/-! ## Well-formed threads -/

namespace IdentifierStore

variable {s t : IdentifierStore} {ids : Identifiers}

/-- the sizes of the store are at most those of `ids` -/
def Within (s : IdentifierStore) (ids : Identifiers) : Prop :=
  s.variableNames.names.length ≤ ids.noVariables ∧ s.lockNames.names.length ≤ ids.noLocks ∧
    s.conditionalNames.names.length ≤ ids.noConditionals

theorem known_of_named (hids : Within s ids) {a : Symbol} (h : s.nameOf a ≠ none) :
    a.known ids = true := by
  have hlt : ∀ category, a.operation.category = some category → a.var < (s.table category).names.length := by
    intro category hcategory
    unfold IdentifierStore.nameOf at h
    simp only [hcategory] at h
    exact (List.getElem?_eq_some_iff.1 (Option.ne_none_iff_exists'.1 h).choose_spec).1
  obtain ⟨hvar, hlock, hcond⟩ := hids
  unfold Symbol.known
  cases hop : a.operation with
  | read => simpa using Nat.lt_of_lt_of_le (hlt .var (by rw [hop]; rfl)) hvar
  | write => simpa using Nat.lt_of_lt_of_le (hlt .var (by rw [hop]; rfl)) hvar
  | lock => simpa using Nat.lt_of_lt_of_le (hlt .lock (by rw [hop]; rfl)) hlock
  | unlock => simpa using Nat.lt_of_lt_of_le (hlt .lock (by rw [hop]; rfl)) hlock
  | wait => simpa using Nat.lt_of_lt_of_le (hlt .conditional (by rw [hop]; rfl)) hcond
  | waitNot => simpa using Nat.lt_of_lt_of_le (hlt .conditional (by rw [hop]; rfl)) hcond
  | notify => simpa using Nat.lt_of_lt_of_le (hlt .conditional (by rw [hop]; rfl)) hcond
  | reset => simpa using Nat.lt_of_lt_of_le (hlt .conditional (by rw [hop]; rfl)) hcond
  | waitReset => simpa using Nat.lt_of_lt_of_le (hlt .conditional (by rw [hop]; rfl)) hcond
  | yield => rfl
  | epsilon => rfl
  | tag => rfl

/-- no category loses names -/
theorem Within.of_names (hnames : ∀ a, s.nameOf a ≠ none → t.nameOf a = s.nameOf a)
    (hids : Within t ids) : Within s ids := by
  have hle : ∀ (op : OpClass) (hop : op ≠ .tag) (category : IdentifierStore.Category), op.category = some category →
      (s.table category).names.length ≤ (t.table category).names.length := by
    intro op hop category hcategory
    by_contra hlt
    set a : Symbol := { operation := op, var := (t.table category).names.length, loc := ⟨0, 0⟩, flags := by simp }
    have hs : s.nameOf a = (s.table category).names[(t.table category).names.length]? := by
      unfold IdentifierStore.nameOf
      simp only [a, hcategory]
    have ht : t.nameOf a = none := by
      unfold IdentifierStore.nameOf
      simp only [a, hcategory]
      exact List.getElem?_eq_none (le_refl _)
    rw [List.getElem?_eq_getElem (not_le.1 hlt)] at hs
    have heq := hnames a (by rw [hs]; exact Option.some_ne_none _)
    rw [ht, hs] at heq
    simp at heq
  exact ⟨(hle .read (by decide) .var rfl).trans hids.1, (hle .lock (by decide) .lock rfl).trans hids.2.1,
    (hle .wait (by decide) .conditional rfl).trans hids.2.2⟩

end IdentifierStore

theorem State.Numbered.congr {threadId id : ℕ} {x y : State} (h1 : x.action = y.action)
    (h2 : x.nonActionSymbol = y.nonActionSymbol) (h : y.Numbered threadId id) : x.Numbered threadId id := by
  rw [State.Numbered, h1, h2]
  exact h

namespace AbstractCfg

variable {c : AbstractCfg} {t : IdentifierStore}

theorem numbered_append {x : State} (h : ∀ (id : ℕ) (y : State), c.states[id]? = some y → y.Numbered c.threadId id)
    (hx : x.Numbered c.threadId c.states.length) :
    ∀ (id : ℕ) (y : State), (c.states ++ [x])[id]? = some y → y.Numbered c.threadId id := by
  intro id y hy
  rw [List.getElem?_append] at hy
  split_ifs at hy with hid
  · exact h id y hy
  · obtain ⟨hlt, hget⟩ := List.getElem?_eq_some_iff.1 hy
    have heq : id = c.states.length := by simp at hlt; omega
    subst heq
    simp only [Nat.sub_self, List.getElem_singleton] at hget
    exact hget ▸ hx

theorem numbered_constructed (hc : c.Constructed) :
    ∀ (id : ℕ) (y : State), c.states[id]? = some y → y.Numbered c.threadId id := by
  induction hc with
  | empty threadId =>
    intro id y hy
    cases id with
    | zero => exact Option.some.inj hy ▸ rfl
    | succ id => simp [empty] at hy
  | addState _ symbol _ hadd ih =>
    unfold AbstractCfg.addState at hadd
    split_ifs at hadd
    obtain rfl := Option.some.inj hadd
    exact numbered_append ih rfl
  | addDummyState _ hadd ih =>
    unfold AbstractCfg.addDummyState at hadd
    split_ifs at hadd
    obtain rfl := Option.some.inj hadd
    exact numbered_append ih rfl
  | addEdge _ _ _ _ _ _ ih => exact ih
  | setFields _ id _ _ _ _ _ ih =>
    intro j y hy
    simp only [AbstractCfg.modifyState, List.getElem?_modify] at hy
    obtain ⟨x, hx, rfl⟩ := Option.map_eq_some_iff.1 hy
    refine State.Numbered.congr ?_ ?_ (ih j x hx)
    · split_ifs <;> rfl
    · split_ifs <;> rfl

/-- **The thread is one that a program can take.** -/
theorem Parsed.wellFormed {ids : Identifiers} (hc : c.Parsed) (hids : t.Within ids)
    (hnamed : c.Named t) : c.WellFormed ids := by
  have hproper := hc.constructed.proper
  refine ⟨fun x hx a ha => ?_, fun es hes e he => ?_, numbered_constructed hc.constructed⟩
  · obtain ⟨id, hid, rfl⟩ := List.getElem_of_mem hx
    have hstate : c.getState id = c.states[id] := List.getD_eq_getElem _ _ hid
    refine ⟨?_, IdentifierStore.known_of_named hids (hnamed id a (hstate ▸ ha))⟩
    rw [Symbol.threadId, ((hproper.getState hid).1 a (hstate ▸ ha)).1]
  · obtain ⟨i, hi, rfl⟩ := List.getElem_of_mem hes
    have hsucc : e ∈ c.getSuccessors i := by
      rw [getSuccessors, List.getD_eq_getElem _ _ hi]
      exact he
    refine ⟨(hproper.ranged.target i e hsucc).1, fun a ha => ?_⟩
    obtain ⟨x, n, rfl⟩ := hc.constructed.tags i e hsucc a ha
    exact ⟨rfl, rfl⟩

end AbstractCfg

/-- `add_thread` of a program -/
theorem Program.addThread_of_prepare {p : Program} {c t m : AbstractCfg} {fuel : ℕ}
    (hw : c.WellFormed p.identifiers ∧ c.threadId = p.noThreads) (hroom : p.threads.length ≠ maxThreads)
    (h : c.prepare fuel = some (t, m)) : ∃ q, p.addThread c fuel hw = some q ∧ q.threads = p.threads ++ [t] ∧
      q.minimisedThreads = p.minimisedThreads ++ [m] ∧ q.identifiers = p.identifiers := by
  obtain ⟨t1, h1, h2, h3⟩ := AbstractCfg.prepare_eq_some h
  unfold addThread
  rw [if_neg hroom]
  split
  · rename_i heq
    rw [h1] at heq
    simp at heq
  · rename_i t1' heq
    rw [h1] at heq
    obtain rfl := Option.some.inj heq
    split
    · rename_i heq
      rw [h2] at heq
      simp at heq
    · rename_i t' heq
      rw [h2] at heq
      obtain rfl := Option.some.inj heq
      split
      · rename_i heq
        rw [h3] at heq
        simp at heq
      · rename_i m' heq
        rw [h3] at heq
        obtain rfl := Option.some.inj heq
        exact ⟨_, rfl, rfl, rfl, rfl⟩

end Liss
