/-
`synthesis/trace_helpers.cpp`: what `blow_up_trace` makes of a trace of the minimised threads.

The in-between states of an edge were collected while `minimise(false)` replaced the removed states by their
successors, so they are a path of the thread before (`minimise_links`), and each of them is represented by a symbol of
the thread.

- `inserted_path`: between two symbols of a thread the inserted ones close the path;
- `assertedFrom_eq`: the assertion holds as long as an edge is there for every step;
- `blowUpTrace_path`: the result keeps the symbols of the trace, adds only removed states, and is in each thread a path
  of the full CFG.
-/
import Liss.Synthesis.TraceHelpers
import Liss.Cfg.Passes

namespace Liss

namespace Program

/-- the loop of `blow_up_trace` with its assertion: `none` when no edge is found -/
def assertedFrom (p : Program) (previous : ℕ → Option Symbol) : List Symbol → Option (List Symbol)
  | [] => some []
  | sy :: trace => do
    let new ← match previous sy.loc.thread with
      | none => some []
      | some prev => ((p.minimisedThread sy.loc.thread).edgeTo prev.loc.state sy.loc.state).map fun e =>
          e.inBetweeners.filterMap fun s => ((p.minimisedThread sy.loc.thread).getState s).nonActionSymbol
    let rest ← assertedFrom p (Function.update previous sy.loc.thread (some sy)) trace
    return new ++ sy :: rest

def assertedTrace (p : Program) (trace : List Symbol) : Option (List Symbol) := p.assertedFrom (fun _ => none) trace

/-- the symbols of one thread -/
def threadPart (t : ℕ) (w : List Symbol) : List Symbol := w.filter fun s => s.loc.thread = t

/-- one symbol leads to the other by an edge -/
def Joined (c : AbstractCfg) (a b : Symbol) : Prop := c.HasEdge a.loc.state b.loc.state

/-- the trace consists of states of the threads, in each thread joined by edges of its CFG -/
def JoinedBy (p : Program) (g : ℕ → AbstractCfg) (trace : List Symbol) : Prop :=
  (∀ s ∈ trace, s.loc.thread < p.noThreads ∧ s.loc.state ≠ noState) ∧
    ∀ t, List.IsChain (Joined (g t)) (threadPart t trace)

/-- represents a state without action that is not final -/
def IsRemoved (p : Program) (s : Symbol) : Prop :=
  (p.thread s.loc.thread).kept false s.loc.state = false ∧
    ((p.thread s.loc.thread).getState s.loc.state).nonActionSymbol = some s

variable {p : Program}

@[simp] theorem threadPart_append (t : ℕ) (w w' : List Symbol) :
    threadPart t (w ++ w') = threadPart t w ++ threadPart t w' := List.filter_append w w'

theorem threadPart_cons_self {s : Symbol} {t : ℕ} (h : s.loc.thread = t) (w : List Symbol) :
    threadPart t (s :: w) = s :: threadPart t w := by simp [threadPart, h]

theorem threadPart_cons_other {s : Symbol} {t : ℕ} (h : s.loc.thread ≠ t) (w : List Symbol) :
    threadPart t (s :: w) = threadPart t w := by simp [threadPart, h]

theorem threadPart_all {t : ℕ} {w : List Symbol} (h : ∀ s ∈ w, s.loc.thread = t) : threadPart t w = w :=
  List.filter_eq_self.2 fun s hs => by simp [h s hs]

theorem threadPart_none {t t' : ℕ} {w : List Symbol} (h : ∀ s ∈ w, s.loc.thread = t) (hne : t ≠ t') :
    threadPart t' w = [] := List.filter_eq_nil_iff.2 fun s hs => by simp [h s hs, hne]

/-! ## One edge -/

theorem getElem?_thread (p : Program) {t : ℕ} (ht : t < p.noThreads) : p.threads[t]? = some (p.thread t) := by
  rw [thread, List.getD_eq_getElem _ _ ht, List.getElem?_eq_getElem ht]

/-- the two copies of a thread -/
theorem minimise_thread (p : Program) {t : ℕ} (ht : t < p.noThreads) :
    ∃ fuel, (p.thread t).minimise false fuel = some (p.minimisedThread t) := by
  have ht' : t < p.minimisedThreads.length := by
    rw [p.length_minimised]
    exact ht
  obtain ⟨fuel, hf⟩ := (List.forall₂_iff_get.1 p.minimised).2 t ht ht'
  refine ⟨fuel, ?_⟩
  rw [thread, minimisedThread, List.getD_eq_getElem _ _ ht, List.getD_eq_getElem _ _ ht']
  exact hf

theorem edgeTo_mem {c : AbstractCfg} {u v : ℕ} {e : Edge} (h : c.edgeTo u v = some e) :
    e ∈ c.getSuccessors u ∧ e.dst = v := by
  refine ⟨List.mem_of_find?_eq_some h, ?_⟩
  simpa using List.find?_some h

theorem edgeTo_of_hasEdge {c : AbstractCfg} {u v : ℕ} (h : c.HasEdge u v) : ∃ e, c.edgeTo u v = some e := by
  obtain ⟨e, he, hd⟩ := h
  exact Option.isSome_iff_exists.1 (List.find?_isSome.2 ⟨e, he, by simpa using hd⟩)

/-- the in-between states of an edge are a path of the thread over states that are not kept -/
theorem Built.link (hp : p.Built) {t u : ℕ} (ht : t < p.noThreads) (hu : u ≠ noState) {e : Edge}
    (he : e ∈ (p.minimisedThread t).getSuccessors u) :
    Link (p.thread t).HasEdge ((p.thread t).kept false) u e.inBetweeners e.dst := by
  have hc := p.getElem?_thread ht
  obtain ⟨fuel, hf⟩ := p.minimise_thread ht
  have hdst : ∀ u, u ≠ noState → ∀ e ∈ (p.thread t).getSuccessors u, e.dst ≠ noState :=
    fun u _ e he => ((p.wellFormed t _ hc).1.getSuccessors he).1
  exact AbstractCfg.minimise_links hdst (hp.thread hc).2 hf hu he

/-- a state of the thread with an edge that is not kept has a symbol of its own -/
theorem Built.removed (hp : p.Built) {t d v : ℕ} (ht : t < p.noThreads) (hk : (p.thread t).kept false d = false)
    (hv : (p.thread t).HasEdge d v) :
    ∃ s, ((p.minimisedThread t).getState d).nonActionSymbol = some s ∧ s.loc = ⟨t, d⟩ ∧ p.IsRemoved s := by
  have hc := p.getElem?_thread ht
  have hd : d < (p.thread t).states.length := by
    obtain ⟨e, he, -⟩ := hv
    by_contra hd
    rw [AbstractCfg.getSuccessors, List.getD_eq_default _ _ (by rw [(hp.thread hc).1]; omega)] at he
    simp at he
  have hnum := (p.wellFormed t _ hc).1.numbered d _ (List.getElem?_eq_getElem hd)
  have hstate : (p.thread t).states[d] = (p.thread t).getState d := (List.getD_eq_getElem _ _ hd).symm
  have hact : ((p.thread t).getState d).action = none := by
    simp only [AbstractCfg.kept, Bool.or_eq_false_iff, Option.isSome_eq_false_iff, Option.isNone_iff_eq_none] at hk
    exact hk.1.1
  rw [hstate, (p.wellFormed t _ hc).2, State.Numbered, hact] at hnum
  obtain ⟨s, hs, hloc⟩ := Option.map_eq_some_iff.1 hnum
  obtain ⟨fuel, hf⟩ := p.minimise_thread ht
  have hsame := AbstractCfg.minimise_state hf d
  simp only [State.mk.injEq] at hsame
  have hs' : ((p.thread t).getState d).nonActionSymbol = some s := by simpa using hs
  refine ⟨s, hsame.2.1.trans hs', hloc, ?_⟩
  rw [IsRemoved, hloc]
  exact ⟨hk, hs'⟩

/-- a path, read off the symbols of its states -/
theorem isChain_joined {c : AbstractCfg} {f : ℕ → Option Symbol} {ds : List ℕ} {a b : Symbol}
    (hf : ∀ d ∈ ds, ∃ s, f d = some s ∧ s.loc.state = d)
    (h : List.IsChain c.HasEdge (a.loc.state :: (ds ++ [b.loc.state]))) :
    List.IsChain (Joined c) (a :: (ds.filterMap f ++ [b])) := by
  have hmap : (ds.filterMap f).map (fun s => s.loc.state) = ds := by
    clear h
    induction ds with
    | nil => rfl
    | cons d ds ih =>
      obtain ⟨s, hs, hd⟩ := hf d List.mem_cons_self
      rw [List.filterMap_cons_some hs, List.map_cons, ih fun d' hd' => hf d' (List.mem_cons_of_mem _ hd'), hd]
  have hstates : (a :: (ds.filterMap f ++ [b])).map (fun s => s.loc.state) = a.loc.state :: (ds ++ [b.loc.state]) := by
    rw [List.map_cons, List.map_append, hmap, List.map_singleton]
  rw [← hstates, List.isChain_map] at h
  exact h

/-- **One edge.** What is inserted between two symbols closes the path, and represents removed states. -/
theorem inserted_path (hp : p.Built) {a b : Symbol} (hb : b.loc.thread < p.noThreads) (ha : a.loc.state ≠ noState)
    {e : Edge} (he : (p.minimisedThread b.loc.thread).edgeTo a.loc.state b.loc.state = some e) :
    List.IsChain (Joined (p.thread b.loc.thread)) (a :: (inserted p a b ++ [b])) ∧
      ∀ s ∈ inserted p a b, s.loc.thread = b.loc.thread ∧ s.loc.state ≠ noState ∧ p.IsRemoved s := by
  obtain ⟨hmem, hdst⟩ := edgeTo_mem he
  obtain ⟨hchain, hnot⟩ := hp.link hb ha hmem
  have hins : inserted p a b = e.inBetweeners.filterMap fun d =>
      ((p.minimisedThread b.loc.thread).getState d).nonActionSymbol := by
    rw [inserted, he]
  -- every in-between state has an edge in and an edge out
  have hsym : ∀ d ∈ e.inBetweeners, d ≠ noState ∧ ∃ s,
      ((p.minimisedThread b.loc.thread).getState d).nonActionSymbol = some s ∧ s.loc = ⟨b.loc.thread, d⟩ ∧
        p.IsRemoved s := by
    intro d hd
    obtain ⟨ds, ds', heq⟩ := List.append_of_mem hd
    have hlink : Link (p.thread b.loc.thread).HasEdge ((p.thread b.loc.thread).kept false) a.loc.state
        (ds ++ d :: ds') e.dst := heq ▸ ⟨hchain, hnot⟩
    obtain ⟨hin, hk, hout⟩ := link_append.1 hlink
    obtain ⟨u, e', he', hd'⟩ := hin.exists_last
    obtain ⟨v, hv⟩ := hout.exists_first
    refine ⟨?_, hp.removed hb hk hv⟩
    rw [← hd']
    exact ((p.wellFormed _ _ (p.getElem?_thread hb)).1.getSuccessors he').1
  rw [hins]
  refine ⟨isChain_joined (fun d hd => ?_) (hdst ▸ hchain), fun s hs => ?_⟩
  · obtain ⟨-, s, hs, hloc, -⟩ := hsym d hd
    exact ⟨s, hs, by rw [hloc]⟩
  · obtain ⟨d, hd, hs⟩ := List.mem_filterMap.1 hs
    obtain ⟨hne, s', hs', hloc, hrem⟩ := hsym d hd
    obtain rfl : s' = s := by simpa [hs'] using hs
    rw [hloc]
    exact ⟨rfl, hne, hrem⟩

/-! ## The whole trace -/

/-- in each thread the symbols are joined by edges, from the previous one on -/
def Follows (g : ℕ → AbstractCfg) (previous : ℕ → Option Symbol) (trace : List Symbol) : Prop :=
  ∀ t, List.IsChain (Joined (g t)) ((previous t).toList ++ threadPart t trace)

/-- the first symbol of the trace becomes the previous one of its thread -/
theorem Follows.tail {g : ℕ → AbstractCfg} {previous : ℕ → Option Symbol} {sy : Symbol} {trace : List Symbol}
    (h : Follows g previous (sy :: trace)) :
    (∀ prev, previous sy.loc.thread = some prev → Joined (g sy.loc.thread) prev sy) ∧
      Follows g (Function.update previous sy.loc.thread (some sy)) trace := by
  have hself := h sy.loc.thread
  rw [threadPart_cons_self rfl] at hself
  refine ⟨fun prev hprev => ?_, fun t => ?_⟩
  · rw [hprev] at hself
    exact (List.isChain_cons_cons.1 hself).1
  · by_cases ht : sy.loc.thread = t
    · subst ht
      rw [Function.update_self]
      exact (List.isChain_split.1 hself).2
    · have hother := h t
      rw [threadPart_cons_other ht] at hother
      rwa [Function.update_of_ne (Ne.symm ht)]

/-- a block of symbols that closes the path to the next one -/
theorem Follows.block {g : ℕ → AbstractCfg} {previous : ℕ → Option Symbol} {sy : Symbol} {new rest : List Symbol}
    (hnew : ∀ s ∈ new, s.loc.thread = sy.loc.thread)
    (hchain : List.IsChain (Joined (g sy.loc.thread)) ((previous sy.loc.thread).toList ++ (new ++ [sy])))
    (h : Follows g (Function.update previous sy.loc.thread (some sy)) rest) :
    Follows g previous (new ++ sy :: rest) := by
  intro t
  have hrest := h t
  rw [threadPart_append]
  by_cases ht : sy.loc.thread = t
  · subst ht
    rw [Function.update_self] at hrest
    rw [threadPart_all hnew, threadPart_cons_self rfl, ← List.append_assoc, List.isChain_split, List.append_assoc]
    exact ⟨hchain, hrest⟩
  · rw [Function.update_of_ne (Ne.symm ht)] at hrest
    rwa [threadPart_none hnew ht, threadPart_cons_other ht, List.nil_append]

/-- what the loop inserts before a symbol -/
def block (p : Program) (previous : ℕ → Option Symbol) (sy : Symbol) : List Symbol :=
  match previous sy.loc.thread with
  | none => []
  | some prev => inserted p prev sy

theorem blowUpFrom_cons (p : Program) (previous : ℕ → Option Symbol) (sy : Symbol) (trace : List Symbol) :
    blowUpFrom p previous (sy :: trace) =
      block p previous sy ++ sy :: blowUpFrom p (Function.update previous sy.loc.thread (some sy)) trace := rfl

/-- the symbols met so far are states of the program -/
def Known (previous : ℕ → Option Symbol) : Prop := ∀ t prev, previous t = some prev → prev.loc.state ≠ noState

theorem Known.update {previous : ℕ → Option Symbol} (h : Known previous) {sy : Symbol} (hs : sy.loc.state ≠ noState) :
    Known (Function.update previous sy.loc.thread (some sy)) := by
  intro t prev hprev
  by_cases ht : t = sy.loc.thread
  · subst ht
    rw [Function.update_self] at hprev
    rwa [← Option.some.inj hprev]
  · rw [Function.update_of_ne ht] at hprev
    exact h t prev hprev

/-- one round of the loop: the assertion, the block and the path -/
theorem block_path (hp : p.Built) {previous : ℕ → Option Symbol} (hk : Known previous) {sy : Symbol}
    (ht : sy.loc.thread < p.noThreads)
    (hjoin : ∀ prev, previous sy.loc.thread = some prev → Joined (p.minimisedThread sy.loc.thread) prev sy) :
    List.IsChain (Joined (p.thread sy.loc.thread)) ((previous sy.loc.thread).toList ++ (block p previous sy ++ [sy])) ∧
      ∀ s ∈ block p previous sy, s.loc.thread = sy.loc.thread ∧ s.loc.state ≠ noState ∧ p.IsRemoved s := by
  unfold block
  cases hprev : previous sy.loc.thread with
  | none => simp
  | some prev =>
    obtain ⟨e, he⟩ := edgeTo_of_hasEdge (hjoin prev hprev)
    exact inserted_path hp ht (hk _ prev hprev) he

/-- **The assertion holds** as long as there is an edge for every step. -/
theorem assertedFrom_eq {previous : ℕ → Option Symbol} {trace : List Symbol}
    (h : Follows p.minimisedThread previous trace) :
    p.assertedFrom previous trace = some (blowUpFrom p previous trace) := by
  induction trace generalizing previous with
  | nil => rfl
  | cons sy trace ih =>
    obtain ⟨hjoin, hrest⟩ := h.tail
    rw [assertedFrom, ih hrest, blowUpFrom_cons, block]
    cases hprev : previous sy.loc.thread with
    | none => rfl
    | some prev =>
      obtain ⟨e, he⟩ := edgeTo_of_hasEdge (hjoin prev hprev)
      simp only [inserted, he]
      rfl

/-- the path of every thread, over the whole trace -/
theorem blowUpFrom_path (hp : p.Built) {previous : ℕ → Option Symbol} (hk : Known previous) {trace : List Symbol}
    (hs : ∀ s ∈ trace, s.loc.thread < p.noThreads ∧ s.loc.state ≠ noState)
    (h : Follows p.minimisedThread previous trace) :
    Follows p.thread previous (blowUpFrom p previous trace) ∧
      (∀ s ∈ blowUpFrom p previous trace, s.loc.thread < p.noThreads ∧ s.loc.state ≠ noState) ∧
      ∃ gaps : List (List Symbol), gaps.length = trace.length ∧
        blowUpFrom p previous trace = (gaps.zip trace).flatMap (fun g => g.1 ++ [g.2]) ∧
        ∀ gap ∈ gaps, ∀ s ∈ gap, p.IsRemoved s := by
  induction trace generalizing previous with
  | nil =>
    refine ⟨fun t => ?_, by simp [blowUpFrom], [], rfl, rfl, by simp⟩
    cases previous t with
    | none => simp [blowUpFrom, threadPart]
    | some prev => simp [blowUpFrom, threadPart]
  | cons sy trace ih =>
    obtain ⟨hjoin, hrest⟩ := h.tail
    obtain ⟨ht, hst⟩ := hs sy List.mem_cons_self
    obtain ⟨hchain, hblock⟩ := block_path hp hk ht hjoin
    obtain ⟨hpath, hmem, gaps, hlen, heq, hgaps⟩ :=
      ih (hk.update hst) (fun s hs' => hs s (List.mem_cons_of_mem _ hs')) hrest
    rw [blowUpFrom_cons]
    refine ⟨Follows.block (fun s hs => (hblock s hs).1) hchain hpath, fun s hs => ?_,
      block p previous sy :: gaps, by simp [hlen], by simp [heq], fun gap hgap => ?_⟩
    · rcases List.mem_append.1 hs with hs | hs
      · rw [(hblock s hs).1]
        exact ⟨ht, (hblock s hs).2.1⟩
      · rcases List.mem_cons.1 hs with rfl | hs
        · exact ⟨ht, hst⟩
        · exact hmem s hs
    · rcases List.mem_cons.1 hgap with rfl | hgap
      · exact fun s hs => (hblock s hs).2.2
      · exact hgaps gap hgap

/-- **Blow-up reconstructs a path of the full CFG.** -/
theorem blowUpTrace_path (hp : p.Built) {trace : List Symbol} (h : p.JoinedBy p.minimisedThread trace) :
    p.assertedTrace trace = some (blowUpTrace p trace) ∧
      (∃ gaps : List (List Symbol), gaps.length = trace.length ∧
        blowUpTrace p trace = (gaps.zip trace).flatMap (fun g => g.1 ++ [g.2]) ∧
        ∀ gap ∈ gaps, ∀ s ∈ gap, p.IsRemoved s) ∧
      p.JoinedBy p.thread (blowUpTrace p trace) := by
  have hf : Follows p.minimisedThread (fun _ => none) trace := h.2
  have hk : Known fun _ => none := by simp [Known]
  obtain ⟨hpath, hmem, hgaps⟩ := blowUpFrom_path hp hk h.1 hf
  exact ⟨assertedFrom_eq hf, hgaps, hmem, hpath⟩

/-- one thread with two writes, as `add_thread` makes it -/
def addedStraight : Option Program :=
  (ofIdentifiers ⟨1, 0, 0⟩).addThread (straight 0 [(.write, 0), (.write, 0)]) 20
    (straight_wellFormed (by simp [Symbol.known, ofIdentifiers]))

theorem addedStraight_isSome : addedStraight.isSome = true := by decide

/-- between the second write and the exit there is a state without action -/
theorem blowUpTrace_straight :
    let sym : ℕ → Symbol := fun k => { operation := .write, var := 0, loc := ⟨0, k⟩, flags := by simp }
    (addedStraight.get addedStraight_isSome).assertedTrace [sym 3, sym 4, Symbol.ofState 0 6] =
      some [sym 3, sym 4, Symbol.ofState 0 5, Symbol.ofState 0 6] := by
  intro sym
  have hb : (addedStraight.get addedStraight_isSome).Built :=
    .addThread (.ofIdentifiers ⟨1, 0, 0⟩) (by decide) (Option.some_get addedStraight_isSome).symm
  have hpath : (addedStraight.get addedStraight_isSome).JoinedBy
      (addedStraight.get addedStraight_isSome).minimisedThread [sym 3, sym 4, Symbol.ofState 0 6] := by
    refine ⟨by decide, fun t => ?_⟩
    by_cases ht : t = 0
    · subst ht
      have hedge : ∀ u v, (∃ e ∈ ((addedStraight.get addedStraight_isSome).minimisedThread 0).getSuccessors u,
          e.dst = v) → ((addedStraight.get addedStraight_isSome).minimisedThread 0).HasEdge u v := fun _ _ h => h
      exact .cons_cons (hedge 3 4 (by decide)) (.cons_cons (hedge 4 6 (by decide)) (.singleton _))
    · have : threadPart t [sym 3, sym 4, Symbol.ofState 0 6] = [] := threadPart_none (t := 0) (by decide) (Ne.symm ht)
      rw [this]
      exact .nil
  rw [(blowUpTrace_path hb hpath).1]
  decide

end Program

end Liss
