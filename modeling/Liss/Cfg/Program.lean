/-
`cfg/program.h`, `cfg/program.cpp`: a program is a list of threads, each kept twice: `threads` after `minimise(true)`
and `compact`, `minimisedThreads` after a further `minimise(false)` on a copy.

A `Program` carries what `add_thread` establishes: thread i has thread number i, every action and tag in it carries
that number, every variable, lock or conditional number is one the identifier store has handed out, and no edge leads to
the unused state 0 (the visitors add edges to states that they have added before).
-/
import Liss.Cfg.Automaton
import Liss.Cfg.Passes

namespace Liss

/-- the sizes of `identifier_store` -/
structure Identifiers where
  noVariables : ℕ
  noLocks : ℕ
  noConditionals : ℕ
deriving DecidableEq, Repr

/-- the symbol's variable number is known to the identifier store -/
def Symbol.known (ids : Identifiers) (s : Symbol) : Bool :=
  match s.operation with
  | .read | .write => s.var < ids.noVariables
  | .lock | .unlock => s.var < ids.noLocks
  | .wait | .waitNot | .notify | .reset | .waitReset => s.var < ids.noConditionals
  | .yield | .epsilon | .tag => true

/-- the symbol of the state, its action or else the symbol that represents it, has the thread and state number -/
def State.Numbered (threadId id : ℕ) (s : State) : Prop :=
  (s.action <|> s.nonActionSymbol).map Symbol.loc = some ⟨threadId, id⟩

theorem State.Numbered.setId {threadId id : ℕ} {s : State} (h : s.Numbered threadId id) (newId : ℕ) :
    (s.setId newId).Numbered threadId newId := by
  unfold State.Numbered State.setId at *
  have hloc : ∀ a : Symbol, a.loc = ⟨threadId, id⟩ → (a.withState newId).loc = ⟨threadId, newId⟩ := by
    intro a ha
    rw [Symbol.withState, ha]
  cases ha : s.action with
  | some a =>
    have h' : a.loc = ⟨threadId, id⟩ := by simpa [ha] using h
    simp [hloc a h']
  | none =>
    cases hn : s.nonActionSymbol with
    | none => simp [ha, hn] at h
    | some n =>
      have h' : n.loc = ⟨threadId, id⟩ := by simpa [ha, hn] using h
      simp [hloc n h']

namespace AbstractCfg

/-- an edge to a state, whose tag carries the thread number -/
def EdgeOk (threadId : ℕ) (e : Edge) : Prop :=
  e.dst ≠ noState ∧ ∀ a, e.tag = some a → a.threadId = threadId ∧ a.operation = .tag

instance (threadId : ℕ) (e : Edge) : Decidable (EdgeOk threadId e) :=
  inferInstanceAs (Decidable (e.dst ≠ noState ∧ ∀ a ∈ e.tag, a.threadId = threadId ∧ a.operation = .tag))

/-- actions and tags carry the thread number of the CFG and known numbers, states carry their own number -/
structure WellFormed (ids : Identifiers) (c : AbstractCfg) : Prop where
  action : ∀ s ∈ c.states, ∀ a, s.action = some a → a.threadId = c.threadId ∧ a.known ids = true
  edge : ∀ es ∈ c.edges, ∀ e ∈ es, EdgeOk c.threadId e
  numbered : ∀ (id : ℕ) (s : State), c.states[id]? = some s → s.Numbered c.threadId id

variable {ids : Identifiers} {c : AbstractCfg}

theorem WellFormed.getState (h : c.WellFormed ids) {id : ℕ} {a : Symbol} (ha : (c.getState id).action = some a) :
    a.threadId = c.threadId ∧ a.known ids = true := by
  obtain ⟨s, hm, hsa⟩ := mem_states_of_action ha
  exact h.action s hm a hsa

theorem WellFormed.getSuccessors (h : c.WellFormed ids) {id : ℕ} {e : Edge} (he : e ∈ c.getSuccessors id) :
    EdgeOk c.threadId e := by
  obtain ⟨es, hm, hees⟩ := mem_edges_of_getSuccessors he
  exact h.edge es hm e hees

/-- a thread automaton offers symbols of its own thread, with known numbers -/
theorem WellFormed.nextSymbols (h : c.WellFormed ids) {p : ℤ} {sigma : Symbol} (hs : sigma ∈ c.intNextSymbols p) :
    sigma.threadId = c.threadId ∧ sigma.known ids = true := by
  unfold intNextSymbols at hs
  split_ifs at hs
  · obtain ⟨e, he, hes⟩ := List.mem_filterMap.1 hs
    unfold edgeSymbol at hes
    cases ht : e.tag with
    | some t =>
      rw [ht] at hes
      have heq : t = sigma := by simpa using hes
      obtain ⟨h1, h2⟩ := (h.getSuccessors he).2 t ht
      rw [← heq]
      exact ⟨h1, by simp [Symbol.known, h2]⟩
    | none =>
      rw [ht] at hes
      have ha : (c.getState e.dst).action = some sigma := by simpa using hes
      exact h.getState ha
  · have ha : (c.getState p.toNat).action = some sigma := by simpa using hs
    exact h.getState ha

/-- what is offered is the action of a state or a tag -/
theorem WellFormed.action_or_tag (h : c.WellFormed ids) {p : ℤ} {sigma : Symbol} (hs : sigma ∈ c.intNextSymbols p) :
    (∃ s ∈ c.states, s.action = some sigma) ∨ sigma.operation = .tag := by
  unfold intNextSymbols at hs
  split_ifs at hs
  · obtain ⟨e, he, hes⟩ := List.mem_filterMap.1 hs
    unfold edgeSymbol at hes
    cases ht : e.tag with
    | some t =>
      rw [ht] at hes
      have heq : t = sigma := by simpa using hes
      exact .inr (heq ▸ ((h.getSuccessors he).2 t ht).2)
    | none =>
      rw [ht] at hes
      exact .inl (mem_states_of_action (show (c.getState e.dst).action = some sigma by simpa using hes))
  · exact .inl (mem_states_of_action (show (c.getState p.toNat).action = some sigma by simpa using hs))

/-- a thread automaton never moves to "no state" -/
theorem WellFormed.successors_ne (h : c.WellFormed ids) {p : ℤ} {sigma : Symbol} {q : RewardState}
    (hq : q ∈ c.intSuccessors p sigma) (hp : p ≠ noState) : q.state ≠ noState := by
  have hafter : ∀ id, id ≠ noState → c.afterAction id ≠ noState := by
    intro id hid
    unfold afterAction
    split
    · rename_i e he
      have hm : e ∈ c.getSuccessors id := by rw [he]; exact List.mem_singleton_self e
      exact_mod_cast (h.getSuccessors hm).1
    · simpa [noState] using hid
  have hedge : ∀ es, (∀ e ∈ es, EdgeOk c.threadId e) → q ∈ c.edgeSuccessors sigma es → q.state ≠ noState := by
    intro es
    induction es with
    | nil => simp [edgeSuccessors]
    | cons e es ih =>
      intro hok hmem
      have he := (hok e List.mem_cons_self).1
      rw [edgeSuccessors] at hmem
      by_cases htag : sameSymbol e.tag sigma = true
      · rw [if_pos htag] at hmem
        rw [List.mem_singleton.1 hmem]
        exact Int.ofNat_inj.not.2 he
      rw [if_neg htag] at hmem
      by_cases hact : sameSymbol (c.getState e.dst).action sigma = true
      · rw [if_pos hact] at hmem
        rw [List.mem_singleton.1 hmem]
        exact hafter _ he
      · rw [if_neg hact] at hmem
        exact ih (fun e' he' => hok e' (List.mem_cons_of_mem _ he')) hmem
  unfold intSuccessors at hq
  split_ifs at hq with hneg hact
  · exact hedge _ (fun e he => h.getSuccessors he) hq
  · rw [List.mem_singleton.1 hq]
    refine hafter _ ?_
    simp only [noState, Nat.cast_zero] at hp ⊢
    omega
  · simp at hq

/-! ## The passes keep well-formedness -/

theorem WellFormed.setEdges (h : c.WellFormed ids) (src : ℕ) {es : List Edge} (hes : ∀ e ∈ es, EdgeOk c.threadId e) :
    (c.setEdges src es).WellFormed ids := by
  refine ⟨h.action, fun es' hm => ?_, h.numbered⟩
  rcases List.mem_or_eq_of_mem_set hm with hm | rfl
  · exact h.edge es' hm
  · exact hes

theorem WellFormed.modifyState (h : c.WellFormed ids) (id : ℕ) {f : State → State}
    (hf : ∀ s ∈ c.states, ∀ a, (f s).action = some a → a.threadId = c.threadId ∧ a.known ids = true)
    (hn : ∀ s, c.states[id]? = some s → (f s).Numbered c.threadId id) :
    (c.modifyState id f).WellFormed ids := by
  refine ⟨fun s hm => ?_, h.edge, fun j s hj => ?_⟩
  swap
  · simp only [AbstractCfg.modifyState, List.getElem?_modify] at hj
    cases hs : c.states[j]? with
    | none => simp [hs] at hj
    | some s' =>
      by_cases hid : id = j
      · subst hid
        simp only [hs, if_true, Option.map_eq_map, Option.map_some, Option.some.injEq] at hj
        exact hj ▸ hn s' hs
      · simp only [hs, hid, if_false, Option.map_eq_map, Option.map_some, Option.some.injEq] at hj
        exact hj ▸ h.numbered j s' hs
  obtain ⟨j, hj, rfl⟩ := List.getElem_of_mem hm
  have hj' : j < c.states.length := by simpa [AbstractCfg.modifyState] using hj
  simp only [AbstractCfg.modifyState, List.getElem_modify]
  split_ifs
  · exact hf _ (List.getElem_mem hj')
  · exact h.action _ (List.getElem_mem hj')

theorem edgeRule_edgeOk (c : AbstractCfg) (remain : List ℕ) : c.EdgeRule remain fun _ e => EdgeOk c.threadId e where
  join := by
    intro u e e2 he _ he2
    refine ⟨he2.1, fun a ha => ?_⟩
    simp only [joinEdge] at ha
    cases ht : e2.tag with
    | some t =>
      have : t = a := by simpa [ht] using ha
      exact this ▸ he2.2 t ht
    | none => exact he.2 a (by simpa [ht] using ha)
  mark := fun _ _ _ h => h
  cost := fun _ _ _ h => h
  tag := fun _ _ _ h => ⟨h.1, fun _ ha => Option.some.inj ha ▸ ⟨rfl, rfl⟩⟩

theorem WellFormed.minimise (h : c.WellFormed ids) {leaveLockables : Bool} {fuel : ℕ} {c' : AbstractCfg}
    (hc : c.minimise leaveLockables fuel = some c') : c'.WellFormed ids ∧ c'.threadId = c.threadId := by
  have hsize := sameSize_minimise hc
  refine ⟨⟨fun s hm a ha => ?_, fun es hes e he => ?_, fun id s hs => ?_⟩, hsize.threadId⟩
  · obtain ⟨id, hid⟩ := List.mem_iff_getElem?.1 hm
    obtain ⟨s', hs', hact, -⟩ := states_minimise hc hid
    rw [hsize.threadId]
    exact h.action s' (List.mem_of_getElem? hs') a (hact ▸ ha)
  · obtain ⟨u, hu⟩ := List.mem_iff_getElem?.1 hes
    rw [hsize.threadId]
    refine minimise_edges (c.edgeRule_edgeOk _) (fun _ e he => h.getSuccessors he) hc u e ?_
    simp [AbstractCfg.getSuccessors, hu, he]
  · obtain ⟨s', hs', hact, hnon⟩ := states_minimise hc hs
    rw [hsize.threadId, State.Numbered, hact, hnon]
    exact h.numbered id s' hs'

theorem length_active (c : AbstractCfg) {fuel : ℕ} {start active : List Bool} {q : List ℕ}
    (h : Worklist.run c.activeStep fuel start q = some active) : active.length = start.length := by
  refine Worklist.run_inv (fun a _ => a.length = start.length) ?_ rfl h
  intro a next q a' new ha hs
  simp only [activeStep, Option.some.injEq, Prod.mk.injEq] at hs
  rw [← hs.1, List.length_set, ha]

theorem WellFormed.compactShift (is : List ℕ) (st : CompactState) (h : st.cfg.WellFormed ids)
    (hl : st.active.length = st.cfg.states.length) :
    (compactShift is st).cfg.WellFormed ids ∧ (AbstractCfg.compactShift is st).cfg.threadId = st.cfg.threadId := by
  induction is generalizing st with
  | nil => exact ⟨h, rfl⟩
  | cons i is ih =>
    rw [AbstractCfg.compactShift]
    split_ifs
    · exact ih _ h hl
    · split
      · exact ⟨h, rfl⟩
      · rename_i j hj
        have hmoved : ((st.cfg.setEdges i (st.cfg.getSuccessors j)).setEdges j []).WellFormed ids :=
          (h.setEdges i fun e he => h.getSuccessors he).setEdges j (by simp)
        have hjl : j < st.cfg.states.length := by
          have := List.mem_of_find?_eq_some hj
          rw [List.mem_range'_1] at this
          omega
        refine ih _ (hmoved.modifyState i (fun s _ a ha => ?_) fun s hs => ?_) ?_
        · simp only [State.setId] at ha
          obtain ⟨b, hb, rfl⟩ := Option.map_eq_some_iff.1 ha
          have hb' : (st.cfg.getState j).action = some b := hb
          obtain ⟨h1, h2⟩ := h.getState hb'
          exact ⟨h1, h2⟩
        · refine (h.numbered j _ ?_).setId i
          rw [AbstractCfg.getState, List.getD_eq_getElem _ _ hjl, List.getElem?_eq_getElem hjl]
        · simpa [AbstractCfg.modifyState, AbstractCfg.setEdges] using hl

theorem WellFormed.compact (h : c.WellFormed ids) {fuel : ℕ} {c' : AbstractCfg} (hc : c.compact fuel = some c') :
    c'.WellFormed ids ∧ c'.threadId = c.threadId := by
  unfold AbstractCfg.compact at hc
  simp only [Option.bind_eq_bind, Option.bind_eq_some_iff, Option.pure_def, Option.some.injEq] at hc
  obtain ⟨active, hactive, rfl⟩ := hc
  have hlen : active.length = c.states.length := by simpa using c.length_active hactive
  set st := AbstractCfg.compactShift (List.range' 1 c.noStates)
    { cfg := c, active := active, mapping := List.replicate c.states.length noState, lastActive := 0 }
  obtain ⟨hw, ht⟩ : st.cfg.WellFormed ids ∧ st.cfg.threadId = c.threadId := WellFormed.compactShift _ _ h hlen
  refine ⟨⟨fun s hm a ha => ?_, fun es hm e he => ?_, fun id s hs => ?_⟩, ht⟩
  · obtain ⟨i, hi, rfl⟩ := List.mem_mapIdx.1 hm
    refine hw.action _ (List.mem_of_mem_take (List.getElem_mem hi)) a ?_
    split_ifs at ha <;> exact ha
  · obtain ⟨i, hi, rfl⟩ := List.mem_mapIdx.1 hm
    have hes := List.mem_of_mem_take (List.getElem_mem hi)
    split_ifs at he
    · exact hw.edge _ hes e he
    · obtain ⟨e', he', rfl⟩ := List.mem_map.1 he
      obtain ⟨hdst, htag⟩ := hw.edge _ hes e' he'
      refine ⟨?_, fun a ha => ?_⟩
      · simp only [mapId]
        split_ifs with hmap
        · exact hmap
        · exact hdst
      · simp only [Edge.setId] at ha
        obtain ⟨b, hb, rfl⟩ := Option.map_eq_some_iff.1 ha
        exact htag b hb
  · simp only [List.getElem?_mapIdx, Option.map_eq_some_iff] at hs
    obtain ⟨s', hs', rfl⟩ := hs
    rw [List.getElem?_take] at hs'
    split_ifs at hs'
    have hnum := hw.numbered id s' hs'
    split_ifs <;> exact hnum

end AbstractCfg

/-! ## Programs -/

def maxThreads : ℕ := 127

structure Program where
  threads : List AbstractCfg := []
  minimisedThreads : List AbstractCfg := []
  identifiers : Identifiers
  /-- the second copy of a thread is the result of `minimise(false)` on the first -/
  minimised : List.Forall₂ (fun c m => ∃ fuel, c.minimise false fuel = some m) threads minimisedThreads
  wellFormed : ∀ i (c : AbstractCfg), threads[i]? = some c → c.WellFormed identifiers ∧ c.threadId = i

namespace Program

def noThreads (p : Program) : ℕ := p.threads.length

/-- the program without threads -/
def ofIdentifiers (ids : Identifiers) : Program :=
  { identifiers := ids, minimised := .nil, wellFormed := by simp }

/-- `add_thread`, for a thread that was made with the number `no_threads()`; `none` when there are too many threads
(or the fuel of the passes runs out) -/
def addThread (p : Program) (thread : AbstractCfg) (fuel : ℕ)
    (hw : thread.WellFormed p.identifiers ∧ thread.threadId = p.noThreads) : Option Program :=
  if p.threads.length = maxThreads then none
  else
    match h1 : thread.minimise true fuel with
    | none => none
    | some t1 =>
      match h2 : t1.compact fuel with
      | none => none
      | some t2 =>
        match h3 : t2.minimise false fuel with
        | none => none
        | some newThread => some
          { threads := p.threads ++ [t2]
            minimisedThreads := p.minimisedThreads ++ [newThread]
            identifiers := p.identifiers
            minimised := List.rel_append p.minimised (.cons ⟨fuel, h3⟩ .nil)
            wellFormed := by
              intro i c hc
              obtain ⟨w1, e1⟩ := hw.1.minimise h1
              obtain ⟨w2, e2⟩ := w1.compact h2
              rw [List.getElem?_append] at hc
              split_ifs at hc with hi
              · exact p.wellFormed i c hc
              · obtain ⟨hlt, hget⟩ := List.getElem?_eq_some_iff.1 hc
                have hi0 : i - p.threads.length = 0 := by simpa using hlt
                have : t2 = c := by simpa [hi0] using hget
                subst this
                refine ⟨w2, ?_⟩
                rw [e2, e1, hw.2, noThreads]
                omega }

/-- what `add_thread` does when it returns -/
theorem addThread_eq_some {p p' : Program} {thread : AbstractCfg} {fuel : ℕ}
    {hw : thread.WellFormed p.identifiers ∧ thread.threadId = p.noThreads} (h : p.addThread thread fuel hw = some p') :
    ∃ t1 t2 m, thread.minimise true fuel = some t1 ∧ t1.compact fuel = some t2 ∧ t2.minimise false fuel = some m ∧
      p'.threads = p.threads ++ [t2] ∧ p'.minimisedThreads = p.minimisedThreads ++ [m] := by
  unfold addThread at h
  split_ifs at h
  split at h
  · simp at h
  · rename_i t1 h1
    split at h
    · simp at h
    · rename_i t2 h2
      split at h
      · simp at h
      · rename_i m h3
        rw [← Option.some.inj h]
        exact ⟨t1, t2, m, h1, h2, h3, rfl, rfl⟩

/-- the programs that `add_thread` builds, from CFGs whose two vectors have grown together -/
inductive Built : Program → Prop
  | ofIdentifiers (ids : Identifiers) : Built (ofIdentifiers ids)
  | addThread {p p' : Program} {thread : AbstractCfg} {fuel : ℕ}
      {hw : thread.WellFormed p.identifiers ∧ thread.threadId = p.noThreads} (hp : Built p)
      (hsize : thread.edges.length = thread.states.length) (hadd : p.addThread thread fuel hw = some p') : Built p'

/-- the threads of such a program are sized, and their edges have no in-between states -/
theorem Built.thread {p : Program} (hp : p.Built) {i : ℕ} {c : AbstractCfg} (hc : p.threads[i]? = some c) :
    c.edges.length = c.states.length ∧ ∀ u, u ≠ noState → ∀ e ∈ c.getSuccessors u, e.inBetweeners = [] := by
  induction hp with
  | ofIdentifiers ids => simp [Program.ofIdentifiers] at hc
  | @addThread p p' thread fuel hw _ hsize hadd ih =>
    obtain ⟨t1, t2, m, h1, h2, -, hthreads, -⟩ := addThread_eq_some hadd
    rw [hthreads, List.getElem?_append] at hc
    split_ifs at hc with hi
    · exact ih hc
    · obtain ⟨hlt, hget⟩ := List.getElem?_eq_some_iff.1 hc
      have hi0 : i - p.threads.length = 0 := by simpa using hlt
      have heq : t2 = c := by simpa [hi0] using hget
      subst heq
      have hmin := AbstractCfg.sameSize_minimise h1
      refine ⟨AbstractCfg.compact_sized (by rw [hmin.edges, hmin.states, hsize]) h2, ?_⟩
      exact fun u hu => AbstractCfg.compact_direct h2 hu

theorem length_minimised (p : Program) : p.minimisedThreads.length = p.threads.length := p.minimised.length_eq.symm

/-- what the automata are built from: thread i of the minimised list is well-formed and numbered i -/
theorem minimised_wellFormed (p : Program) {i : ℕ} {m : AbstractCfg} (h : p.minimisedThreads[i]? = some m) :
    m.WellFormed p.identifiers ∧ m.threadId = i := by
  obtain ⟨hi, hm⟩ := List.getElem?_eq_some_iff.1 h
  have hi' : i < p.threads.length := by rw [← p.length_minimised]; exact hi
  obtain ⟨fuel, hf⟩ : ∃ fuel, p.threads[i].minimise false fuel = some m := by
    have := (List.forall₂_iff_get.1 p.minimised).2 i hi' hi
    simpa [hm] using this
  obtain ⟨hw, ht⟩ := p.wellFormed i _ (List.getElem?_eq_getElem hi')
  obtain ⟨hw', ht'⟩ := hw.minimise hf
  exact ⟨hw', ht'.trans ht⟩

/-! ## Small programs -/

/-- straight-line code as the visitor builds it, a start and an end state around the operations -/
def straight (i : ℕ) (ops : List (OpClass × ℕ)) : AbstractCfg where
  threadId := i
  states :=
    [State.ofId i 0, { State.ofId i 1 with returnState := ops.length + 4 },
      { State.ofId i 2 with lockAfter := some 0 }] ++
      (ops.mapIdx fun k op =>
        { State.ofAction { operation := op.1, var := op.2, loc := ⟨i, k + 3⟩, flags := by simp } with
          lockBefore := some (k + 1), lockAfter := some (k + 1) }) ++
      [{ State.ofId i (ops.length + 3) with lockBefore := some (ops.length + 1) },
        { State.ofId i (ops.length + 4) with final := true }]
  edges := [[]] ++ (List.range (ops.length + 3)).map (fun k => [{ dst := k + 2 }]) ++ [[]]

theorem straight_wellFormed {ids : Identifiers} {i : ℕ} {ops : List (OpClass × ℕ)}
    (h : ∀ op ∈ ops, ∀ k,
      ({ operation := op.1, var := op.2, loc := ⟨i, k⟩, flags := by simp } : Symbol).known ids = true) :
    (straight i ops).WellFormed ids ∧ (straight i ops).threadId = i := by
  refine ⟨⟨fun s hs a ha => ?_, fun es hes e he => ?_, fun id s hs => ?_⟩, rfl⟩
  · simp only [straight, List.mem_append, List.mem_cons, List.not_mem_nil, or_false] at hs
    rcases hs with ((rfl | rfl | rfl) | hs) | rfl | rfl
    · simp [State.ofId] at ha
    · simp [State.ofId] at ha
    · simp [State.ofId] at ha
    · obtain ⟨k, hk, rfl⟩ := List.mem_mapIdx.1 hs
      simp only [State.ofAction, Option.some.injEq] at ha
      exact ha ▸ ⟨rfl, h _ (List.getElem_mem hk) _⟩
    · simp [State.ofId] at ha
    · simp [State.ofId] at ha
  · simp only [straight, List.mem_append, List.mem_map, List.mem_singleton] at hes
    rcases hes with (rfl | ⟨k, -, rfl⟩) | rfl
    · simp at he
    · rw [List.mem_singleton.1 he]
      exact ⟨Nat.succ_ne_zero _, by simp⟩
    · simp at he
  · have hof : ∀ k, (State.ofId i k).Numbered i k := fun _ => rfl
    simp only [straight, List.getElem?_append, List.length_append, List.length_mapIdx, List.length_cons,
      List.length_nil] at hs
    split_ifs at hs with h1 h2
    · rcases id with _ | _ | _ | id
      · obtain rfl := Option.some.inj hs
        exact hof 0
      · obtain rfl := Option.some.inj hs
        exact hof 1
      · obtain rfl := Option.some.inj hs
        exact hof 2
      · simp at hs
    · rw [List.getElem?_mapIdx, Option.map_eq_some_iff] at hs
      obtain ⟨op, -, rfl⟩ := hs
      show some (⟨i, id - 3 + 3⟩ : Location) = some ⟨i, id⟩
      rw [Nat.sub_add_cancel (by omega)]
    · obtain ⟨k, hk⟩ : ∃ k, id = ops.length + 3 + k := ⟨id - (ops.length + 3), by omega⟩
      have hk' : id - (0 + 1 + 1 + 1 + ops.length) = k := by omega
      rw [hk'] at hs
      rcases k with _ | _ | k
      · obtain rfl := Option.some.inj hs
        exact hk ▸ hof _
      · obtain rfl := Option.some.inj hs
        exact hk ▸ hof _
      · simp at hs

theorem straight_write_minimise : ((straight 1 [(.write, 1)]).minimise false 20).isSome = true := by decide

theorem straight_write_wellFormed :
    (straight 1 [(.write, 1)]).WellFormed ⟨2, 0, 0⟩ ∧ (straight 1 [(.write, 1)]).threadId = 1 :=
  straight_wellFormed (by simp [Symbol.known])

/-- two threads, in their minimised form as well -/
def twoThreads (ids : Identifiers) (c d : AbstractCfg) (fuel : ℕ) (hc : (c.minimise false fuel).isSome)
    (hd : (d.minimise false fuel).isSome) (hcw : c.WellFormed ids ∧ c.threadId = 0)
    (hdw : d.WellFormed ids ∧ d.threadId = 1) : Program where
  threads := [c, d]
  minimisedThreads := [(c.minimise false fuel).get hc, (d.minimise false fuel).get hd]
  identifiers := ids
  minimised := .cons ⟨fuel, by simp⟩ (.cons ⟨fuel, by simp⟩ .nil)
  wellFormed := by
    intro i x hx
    rcases i with _ | _ | i
    · obtain rfl : c = x := by simpa using hx
      exact hcw
    · obtain rfl : d = x := by simpa using hx
      exact hdw
    · simp at hx

end Program

end Liss
