/-
`actions/inclusion_test.cpp`: language inclusion up to the order of independent symbols, and the classes in
`abstraction/compressed_automaton.h` that it uses.

Limi is a parameter: what `collapse_epsilon` makes of an automaton, and its search. The search explores the preemptive
automaton through a wrapper, so its result comes with the states whose symbols it has asked for, which is all that the
wrapper's tables depend on, and with its calls of `int_successors`; the program ends where one of these throws.
`Limi.Sound` says what the result means: inclusion that it reports holds, a word that it reports is accepted, and if its
bound was not hit, or the left automaton is a list, the answer is definite.

- `checkTrace_iff`: the check of a candidate is exact, although the sequential automaton offers the symbols of the
  candidate alone;
- `testFrom_spec`: a result is definite, at whichever bound it was found;
- `testPrograms_spec`: inclusion between the two semantics of programs.
-/
import Liss.Abstraction.Exactness
import Liss.Abstraction.Restricted
import Liss.Abstraction.WrapperAutomaton
import Liss.Automata.Independence
import Liss.Lib.TraceEquivalence
import Liss.Synthesis.TraceHelpers

namespace Liss

open Liss.Numbering

/-- the word without the symbols that count as epsilon -/
def visible (w : List Symbol) : List Symbol := w.filter fun s => !s.isEpsilon

namespace CompressedAutomaton

/-- `compressed_automaton_independence` -/
def comIndependent (c : CompressedAutomaton Symbol) (a b : ComSymbol) : Bool :=
  match c.symbolTranslation[a.toNat]?, c.symbolTranslation[b.toNat]? with
  | some x, some y => x.independent y
  | _, _ => false

/-- `is_epsilon` of the wrapper -/
def wrapperIsEpsilon (c : CompressedAutomaton Symbol) (symbol : ComSymbol) : Bool :=
  (c.symbolTranslation[symbol.toNat]?).elim false Symbol.isEpsilon

end CompressedAutomaton

namespace InclusionTest

open CompressedAutomaton

/-- what the code uses of Limi -/
structure Limi where
  /-- `Limi::automaton` with `collapse_epsilon`, around the functions of an implementation -/
  collapse : Automaton ConcurrentState Symbol → Automaton ConcurrentState Symbol
  /-- `antichain_algo_ind::run` for a wrapper, with the states whose symbols it has asked for -/
  run : ConcurrentAutomaton → CompressedAutomaton Symbol → ℕ → InclusionResult ComSymbol × List ConcurrentState
  /-- the states and symbols whose successors it has asked for -/
  steps : ConcurrentAutomaton → CompressedAutomaton Symbol → ℕ → List (ConcurrentState × Symbol)
  /-- `run` for a `list_automaton` -/
  runList : List ComSymbol → CompressedAutomaton Symbol → ℕ → InclusionResult ComSymbol

/-- `check_trace`; the filter is cleared afterwards -/
def checkTrace (limi : Limi) (trace : List ComSymbol) (sequential : CompressedAutomaton Symbol) :
    InclusionResult ComSymbol :=
  let trace2 := trace.filter fun sy => !sequential.wrapperIsEpsilon sy
  limi.runList trace2 { sequential with successorFilter := sequential.successorFilter ++ trace2 } trace.length

/-- `filter_result` -/
def filterResult (result : InclusionResult Symbol) : InclusionResult Symbol :=
  { result with counterExample := result.counterExample.filter fun s => s.tagBranch == -1 }

/-- what `test_inclusion` gives back -/
inductive Answer where
  | found (result : InclusionResult Symbol)
  /-- it returns false -/
  | boundReached
  /-- a symbol of the result is not in the table -/
  | outOfTable
  /-- the program has ended with an exception -/
  | rangeError
deriving DecidableEq, Repr

def answer (sequential : CompressedAutomaton Symbol) (result : InclusionResult ComSymbol) : Answer :=
  match sequential.translateResult result with
  | none => .outOfTable
  | some result => .found (filterResult result)

/-- the loop over the bounds; `rounds` of them are left -/
def testFrom (limi : Limi) (concurrent : ConcurrentAutomaton) :
    ℕ → ℕ → CompressedAutomaton Symbol → Answer × CompressedAutomaton Symbol
  | 0, _, sequential => (.boundReached, sequential)
  | rounds + 1, bound, sequential =>
    let (result, states) := limi.run concurrent sequential bound
    let threw := (limi.steps concurrent sequential bound).any fun q => concurrent.throws q.1 q.2
    let sequential := wrapperCalls concurrent.automaton sequential states
    if threw then (.rangeError, sequential)
    else if result.included then (answer sequential result, sequential)
    else if !result.boundHit then (answer sequential result, sequential)
    -- is this result real?
    else if !(checkTrace limi result.counterExample sequential).included then (answer sequential result, sequential)
    else testFrom limi concurrent rounds (bound + 1) sequential

/-- `test_inclusion`; the tables of `sequential` are kept for the next call -/
def testInclusion (limi : Limi) (maxBound : ℕ) (sequential : CompressedAutomaton Symbol)
    (concurrent : ConcurrentAutomaton) : Answer × CompressedAutomaton Symbol :=
  testFrom limi concurrent maxBound 1 sequential

/-- `from_concurrent_automaton` for a product automaton that collapses epsilon symbols -/
def compressed (limi : Limi) (a : ConcurrentAutomaton) (fuel : ℕ) : Option (CompressedAutomaton Symbol) :=
  fromConcurrentAutomaton (limi.collapse a.automaton) ConcurrentState.eraseReward Symbol.isEpsilon
    (FrontierQueue.ofReward fun s => s.reward) {} fuel

/-- `test_inclusion` for two programs -/
def testPrograms (limi : Limi) (maxBound : ℕ) (sequentialProgram concurrentProgram : Program) (fuel : ℕ) :
    Option Answer :=
  (compressed limi (.ofProgram sequentialProgram false false) fuel).map fun sequential =>
    (testInclusion limi maxBound sequential (.ofProgram concurrentProgram true false)).1

/-! ## Words of the sequential automaton -/

/-- `B` accepts a word that is `w` up to epsilon symbols and the order of independent symbols -/
def HasEquivalent (B : Automaton ConcurrentState Symbol) (w : List Symbol) : Prop :=
  ∃ v, B.Accepts v ∧ Equivalent Symbol.independent (visible w) (visible v)

/-- the answer to whether every word of `A` has an equivalent one in `B`, with a word that has none, less its tags -/
def Definite (A B : Automaton ConcurrentState Symbol) (result : InclusionResult Symbol) : Prop :=
  if result.included then ∀ w, A.Accepts w → HasEquivalent B w
  else ∃ w, A.Accepts w ∧ ¬HasEquivalent B w ∧ result.counterExample = w.filter fun s => s.tagBranch == -1

/-- **What `collapse_epsilon` means** for the automaton `A`: epsilon symbols are left out of its words. The states and the
symbols are those of `A`, and states are compared by their operator. -/
structure Limi.Collapses (limi : Limi) (A : Automaton ConcurrentState Symbol) : Prop where
  accepts : ∀ u, (limi.collapse A).Accepts u ↔ ∃ w, A.Accepts w ∧ visible w = u
  respects : (limi.collapse A).Respects ConcurrentState.eraseReward
  states : ∀ s, (limi.collapse A).Reachable s → A.Reachable s
  symbols : ∀ s, ∀ x ∈ (limi.collapse A).next s, ∃ s', x ∈ A.next s'
  initial : ((limi.collapse A).initial.map ConcurrentState.eraseReward).Nodup

/-- the identifier of a symbol -/
def idOf (c : CompressedAutomaton Symbol) (x : Symbol) : ComSymbol := position UInt16.ofNat c.symbolTranslation x

/-- `c` accepts the words of `B`, symbol by symbol -/
structure Represents (c : CompressedAutomaton Symbol) (B : Automaton ConcurrentState Symbol) : Prop
    extends Numbers c where
  filter : c.successorFilter = []
  known : ∀ w, B.Accepts w → ∀ x ∈ w, x ∈ c.symbolTranslation
  epsilon : ∀ w, B.Accepts w → ∀ x ∈ w, c.intIsEpsilon (idOf c x) = x.isEpsilon
  accepts : ∀ u, c.automaton.Accepts u ↔ ∃ w, B.Accepts w ∧ w.map (idOf c) = u

/-- **What the result of the search means**, where symbols have identifiers of their own. -/
structure Limi.Sound (limi : Limi) : Prop where
  /-- every symbol of the result comes from one of the automata -/
  known : ∀ a c B bound result states, Represents c B → limi.run a c bound = (result, states) →
    ∀ id ∈ result.counterExample, id.toNat < (wrapperCalls a.automaton c states).symbolTranslation.length
  included : ∀ a c B bound result states, Represents c B → limi.run a c bound = (result, states) →
    (wrapperCalls a.automaton c states).symbolTranslation.length ≤ 2 ^ 16 → result.included = true →
    ∀ w, a.automaton.Accepts w → HasEquivalent B w
  counterExample : ∀ a c B bound result states, Represents c B → limi.run a c bound = (result, states) →
    (wrapperCalls a.automaton c states).symbolTranslation.length ≤ 2 ^ 16 → result.included = false →
    ∃ w, a.automaton.Accepts w ∧ (∀ x ∈ w, x ∈ (wrapperCalls a.automaton c states).symbolTranslation) ∧
      result.counterExample = w.map (idOf (wrapperCalls a.automaton c states)) ∧
      (result.boundHit = false → ¬HasEquivalent B w)
  list : ∀ v c bound, v.length ≤ bound → c.symbolTranslation.length ≤ 2 ^ 16 →
    ((limi.runList v c bound).included = true ↔ ∃ u, c.automaton.Accepts u ∧
      Equivalent c.comIndependent v (u.filter fun id => !c.intIsEpsilon id))

variable {c d : CompressedAutomaton Symbol} {B : Automaton ConcurrentState Symbol} {w v : List Symbol}

/-- the identifier of a known symbol leads back to it -/
theorem symbolOf_idOf (hle : c.symbolTranslation.length ≤ 2 ^ 16) {x : Symbol} (hx : x ∈ c.symbolTranslation) :
    c.symbolTranslation[(idOf c x).toNat]? = some x := by
  rw [idOf, faithful_uint16.index hle hx]
  exact List.getElem?_idxOf hx

theorem mapM_idOf (hle : c.symbolTranslation.length ≤ 2 ^ 16) (hw : ∀ x ∈ w, x ∈ c.symbolTranslation) :
    ((w.map (idOf c)).mapM fun id => c.symbolTranslation[id.toNat]?) = some w := by
  induction w with
  | nil => rfl
  | cons x w ih =>
    rw [List.map_cons, List.mapM_cons, symbolOf_idOf hle (hw x List.mem_cons_self),
      ih fun y hy => hw y (List.mem_cons_of_mem _ hy)]
    rfl

/-! ## The tables of the wrapper -/

theorem wrapperCalls_rows (inner : Automaton ConcurrentState Symbol) (c : CompressedAutomaton Symbol)
    (states : List ConcurrentState) : ∃ translation map,
      wrapperCalls inner c states = { c with symbolTranslation := translation, symbolMap := map } := by
  have hone : ∀ (d : CompressedAutomaton Symbol) (sy : Symbol), ∃ translation map,
      (d.comSymbol sy).1 = { d with symbolTranslation := translation, symbolMap := map } := by
    intro d sy
    unfold CompressedAutomaton.comSymbol
    split
    · exact ⟨_, _, rfl⟩
    · exact ⟨_, _, rfl⟩
  have hsymbols : ∀ (l : List Symbol) (d : CompressedAutomaton Symbol) (ids : List ComSymbol), ∃ translation map,
      (l.foldl (fun p s => ((p.1.comSymbol s).1, p.2 ++ [(p.1.comSymbol s).2])) (d, ids)).1 =
        { d with symbolTranslation := translation, symbolMap := map } := by
    intro l
    induction l with
    | nil => exact fun d ids => ⟨_, _, rfl⟩
    | cons sy l ih =>
      intro d ids
      obtain ⟨t1, m1, h1⟩ := hone d sy
      obtain ⟨t2, m2, h2⟩ := ih (d.comSymbol sy).1 (ids ++ [(d.comSymbol sy).2])
      exact ⟨t2, m2, h2.trans (by rw [h1])⟩
  induction states generalizing c with
  | nil => exact ⟨_, _, rfl⟩
  | cons s states ih =>
    obtain ⟨t1, m1, h1⟩ := hsymbols (inner.next s) c []
    obtain ⟨t2, m2, h2⟩ := ih (wrapperNextSymbols inner c s).1
    exact ⟨t2, m2, h2.trans (by rw [wrapperNextSymbols, h1])⟩

/-- **The wrapper leaves the sequential automaton as it is.** -/
theorem Represents.wrapperCalls (h : Represents c B) (inner : Automaton ConcurrentState Symbol)
    (states : List ConcurrentState) : Represents (wrapperCalls inner c states) B := by
  obtain ⟨hw, -⟩ := Wrapped.calls ⟨h.toNumbers, rfl, List.prefix_rfl⟩ inner states
  obtain ⟨translation, map, hrows⟩ := wrapperCalls_rows inner c states
  have hid : ∀ x ∈ c.symbolTranslation, idOf (CompressedAutomaton.wrapperCalls inner c states) x = idOf c x :=
    fun x hx => position_extend hw.old hx
  have hmap : ∀ w, B.Accepts w → w.map (idOf (CompressedAutomaton.wrapperCalls inner c states)) = w.map (idOf c) :=
    fun w hacc => List.map_congr_left fun x hx => hid x (h.known w hacc x hx)
  refine ⟨hw.toNumbers, by rw [hrows]; exact h.filter, fun w hacc x hx => hw.old.subset (h.known w hacc x hx),
    fun w hacc x hx => ?_, fun u => ?_⟩
  · rw [hid x (h.known w hacc x hx), ← h.epsilon w hacc x hx, hrows]
    rfl
  · have hsame : (CompressedAutomaton.wrapperCalls inner c states).automaton = c.automaton := by
      rw [hrows]
      rfl
    rw [hsame, h.accepts]
    constructor
    · rintro ⟨w, hacc, rfl⟩
      exact ⟨w, hacc, hmap w hacc⟩
    · rintro ⟨w, hacc, rfl⟩
      exact ⟨w, hacc, (hmap w hacc).symm⟩

/-! ## `check_trace` -/

/-- the filtered automaton accepts the words that get along with the symbols of the filter -/
theorem accepts_filtered (h : c.successorFilter = []) (filter : List ComSymbol) (u : List ComSymbol) :
    ({ c with successorFilter := filter } : CompressedAutomaton Symbol).automaton.Accepts u ↔ c.automaton.Accepts u ∧
      ∀ id ∈ u, (filter.isEmpty || c.intIsEpsilon id || filter.contains id) = true := by
  rw [← Automaton.accepts_restrict]
  have hsame : ({ c with successorFilter := filter } : CompressedAutomaton Symbol).automaton =
      c.automaton.restrict fun id => filter.isEmpty || c.intIsEpsilon id || filter.contains id := by
    simp only [CompressedAutomaton.automaton, Automaton.restrict, intNextSymbols, h, List.isEmpty_nil, Bool.true_or,
      List.filter_true]
    rfl
  rw [hsame]

theorem comIndependent_idOf (hle : c.symbolTranslation.length ≤ 2 ^ 16) {x y : Symbol} (hx : x ∈ c.symbolTranslation)
    (hy : y ∈ c.symbolTranslation) : c.comIndependent (idOf c x) (idOf c y) = x.independent y := by
  rw [comIndependent, symbolOf_idOf hle hx, symbolOf_idOf hle hy]

/-- words of known symbols are equivalent iff their identifiers are -/
theorem equivalent_idOf (hle : c.symbolTranslation.length ≤ 2 ^ 16) (hw : ∀ x ∈ w, x ∈ c.symbolTranslation)
    (hv : ∀ x ∈ v, x ∈ c.symbolTranslation) :
    Equivalent c.comIndependent (w.map (idOf c)) (v.map (idOf c)) ↔ Equivalent Symbol.independent w v := by
  have hback : ∀ l : List Symbol, (∀ x ∈ l, x ∈ c.symbolTranslation) →
      (l.map (idOf c)).map (fun id => (c.symbolTranslation[id.toNat]?).getD (Symbol.ofState 0 0)) = l := by
    intro l hl
    rw [List.map_map]
    conv_rhs => rw [← List.map_id l]
    refine List.map_congr_left fun x hx => ?_
    simp [symbolOf_idOf hle (hl x hx)]
  constructor
  · intro h
    have hkeep : ∀ a ∈ w.map (idOf c), ∀ b ∈ w.map (idOf c), c.comIndependent a b = true →
        Symbol.independent ((c.symbolTranslation[a.toNat]?).getD (Symbol.ofState 0 0))
          ((c.symbolTranslation[b.toNat]?).getD (Symbol.ofState 0 0)) = true := by
      intro a ha b hb hab
      obtain ⟨x, hx, rfl⟩ := List.mem_map.1 ha
      obtain ⟨y, hy, rfl⟩ := List.mem_map.1 hb
      rw [comIndependent_idOf hle (hw x hx) (hw y hy)] at hab
      simpa [symbolOf_idOf hle (hw x hx), symbolOf_idOf hle (hw y hy)] using hab
    have hmap := Equivalent.map (fun id => (c.symbolTranslation[id.toNat]?).getD (Symbol.ofState 0 0)) hkeep h
    rwa [hback w hw, hback v hv] at hmap
  · intro h
    refine h.map (idOf c) fun a ha b hb hab => ?_
    rw [comIndependent_idOf hle (hw a ha) (hw b hb)]
    exact hab

theorem mem_of_mem_visible {x : Symbol} (h : x ∈ visible w) : x ∈ w := (List.mem_filter.1 h).1

/-- the identifiers that are no epsilon symbols -/
theorem filter_map_idOf {P : ComSymbol → Bool} (hP : ∀ x ∈ w, P (idOf c x) = x.isEpsilon) :
    (w.map (idOf c)).filter (fun id => !P id) = (visible w).map (idOf c) := by
  rw [List.filter_map, visible]
  refine congrArg _ (List.filter_congr fun x hx => ?_)
  simp [hP x hx]

/-- **The check of a candidate is exact.** -/
theorem checkTrace_iff {limi : Limi} (hlimi : limi.Sound) (h : Represents c B)
    (hle : c.symbolTranslation.length ≤ 2 ^ 16) (hw : ∀ x ∈ w, x ∈ c.symbolTranslation) :
    (checkTrace limi (w.map (idOf c)) c).included = true ↔ HasEquivalent B w := by
  have htrace : (w.map (idOf c)).filter (fun sy => !c.wrapperIsEpsilon sy) = (visible w).map (idOf c) :=
    filter_map_idOf fun x hx => by rw [wrapperIsEpsilon, symbolOf_idOf hle (hw x hx)]; rfl
  have hvis : ∀ {l : List Symbol}, (∀ x ∈ l, x ∈ c.symbolTranslation) → ∀ x ∈ visible l, x ∈ c.symbolTranslation :=
    fun hl x hx => hl x (mem_of_mem_visible hx)
  simp only [checkTrace, htrace, h.filter, List.nil_append]
  have hlist := hlimi.list ((visible w).map (idOf c)) { c with successorFilter := (visible w).map (idOf c) }
    (w.map (idOf c)).length (by simpa [visible] using List.length_filter_le _ w) hle
  refine hlist.trans ?_
  constructor
  · intro hleft
    obtain ⟨u, hu, heq⟩ := hleft
    obtain ⟨v, hv, rfl⟩ := (h.accepts u).1 ((accepts_filtered h.filter _ _).1 hu).1
    refine ⟨v, hv, (equivalent_idOf hle (hvis hw) (hvis (h.known v hv))).1 ?_⟩
    rw [← filter_map_idOf (h.epsilon v hv)]
    exact heq
  · intro hright
    obtain ⟨v, hv, heq⟩ := hright
    refine ⟨v.map (idOf c), (accepts_filtered h.filter _ _).2 ⟨(h.accepts _).2 ⟨v, hv, rfl⟩, fun id hid => ?_⟩, ?_⟩
    · -- a symbol that counts occurs in the candidate as well
      obtain ⟨x, hx, rfl⟩ := List.mem_map.1 hid
      cases heps : x.isEpsilon with
      | true => simp [h.epsilon v hv x hx, heps]
      | false =>
        have hmem : x ∈ visible w := heq.perm.mem_iff.2 (List.mem_filter.2 ⟨hx, by simp [heps]⟩)
        simp [List.mem_map_of_mem hmem]
    · have hmap := (equivalent_idOf hle (hvis hw) (hvis (h.known v hv))).2 heq
      rw [← filter_map_idOf (h.epsilon v hv)] at hmap
      exact hmap

/-! ## `test_inclusion` -/

theorem answer_eq (hle : c.symbolTranslation.length ≤ 2 ^ 16) (hw : ∀ x ∈ w, x ∈ c.symbolTranslation)
    {result : InclusionResult ComSymbol} (hresult : result.counterExample = w.map (idOf c)) :
    answer c result = .found (filterResult { result with counterExample := w }) := by
  rw [answer, translateResult, hresult, mapM_idOf hle hw]
  rfl

/-- known symbols are translated -/
theorem answer_isFound {result : InclusionResult ComSymbol}
    (h : ∀ id ∈ result.counterExample, id.toNat < c.symbolTranslation.length) :
    ∃ r, answer c result = .found r ∧ r.included = result.included := by
  have hsome : ∃ w, (result.counterExample.mapM fun id => c.symbolTranslation[id.toNat]?) = some w := by
    generalize result.counterExample = l at h
    induction l with
    | nil => exact ⟨[], rfl⟩
    | cons id l ih =>
      obtain ⟨w, hw⟩ := ih fun x hx => h x (List.mem_cons_of_mem _ hx)
      refine ⟨c.symbolTranslation.get ⟨id.toNat, h id List.mem_cons_self⟩ :: w, ?_⟩
      rw [List.mapM_cons, hw, List.getElem?_eq_getElem (h id List.mem_cons_self)]
      rfl
  obtain ⟨w, hw⟩ := hsome
  exact ⟨_, by rw [answer, translateResult, hw]; rfl, rfl⟩

/-- one round without an exception: its answer is definite, or the next bound is tried -/
theorem testFrom_succ {limi : Limi} (hlimi : limi.Sound) {a : ConcurrentAutomaton} (rounds : ℕ) {bound : ℕ}
    (h : Represents c B) {result : InclusionResult ComSymbol} {states : List ConcurrentState}
    (hrun : limi.run a c bound = (result, states))
    (hle : (wrapperCalls a.automaton c states).symbolTranslation.length ≤ 2 ^ 16)
    (hok : ((limi.steps a c bound).any fun q => a.throws q.1 q.2) = false) :
    (∃ r, testFrom limi a (rounds + 1) bound c = (.found r, wrapperCalls a.automaton c states) ∧
        Definite a.automaton B r) ∨
      testFrom limi a (rounds + 1) bound c = testFrom limi a rounds (bound + 1) (wrapperCalls a.automaton c states) := by
  have hd := h.wrapperCalls a.automaton states
  rw [testFrom, hrun]
  dsimp only
  rw [hok, if_neg Bool.false_ne_true]
  cases hinc : result.included with
  | true =>
    obtain ⟨r, hr, hrinc⟩ := answer_isFound (hlimi.known a c B bound result states h hrun)
    left
    refine ⟨r, by rw [if_pos rfl, hr], ?_⟩
    rw [Definite, if_pos (hrinc.trans hinc)]
    exact hlimi.included a c B bound result states h hrun hle hinc
  | false =>
    obtain ⟨w, hacc, hw, hresult, hdefinite⟩ := hlimi.counterExample a c B bound result states h hrun hle hinc
    have hfound : ¬HasEquivalent B w → Definite a.automaton B (filterResult { result with counterExample := w }) := by
      intro hno
      rw [Definite, if_neg (by simp [filterResult, hinc])]
      exact ⟨w, hacc, hno, rfl⟩
    rw [if_neg Bool.false_ne_true, answer_eq hle hw hresult]
    cases hhit : result.boundHit with
    | false =>
      left
      exact ⟨filterResult { result with counterExample := w }, by simp [hhit],
        hfound (hdefinite hhit)⟩
    | true =>
      rw [hresult]
      cases hcheck : (checkTrace limi (w.map (idOf (wrapperCalls a.automaton c states)))
          (wrapperCalls a.automaton c states)).included with
      | false =>
        left
        refine ⟨filterResult { result with counterExample := w }, by simp [hhit], hfound fun hequiv => ?_⟩
        rw [(checkTrace_iff hlimi hd hle hw).2 hequiv] at hcheck
        simp at hcheck
      | true =>
        right
        simp

/-! ## The symbols of a program -/

/-- actions and tags -/
def alphabet (c : AbstractCfg) : List Symbol := c.states.filterMap State.action ++ c.edges.flatten.filterMap Edge.tag

def programSymbols (p : Program) : List Symbol := p.minimisedThreads.flatMap alphabet

theorem mem_alphabet_action {c : AbstractCfg} {u : ℕ} {x : Symbol} (h : (c.getState u).action = some x) :
    x ∈ alphabet c := by
  by_cases hu : u < c.states.length
  · rw [AbstractCfg.getState, List.getD_eq_getElem _ _ hu] at h
    exact List.mem_append_left _ (List.mem_filterMap.2 ⟨_, List.getElem_mem hu, h⟩)
  · have hd : c.getState u = {} := List.getD_eq_default _ _ (by omega)
    simp [hd] at h

theorem intNextSymbols_subset {c : AbstractCfg} {q : ℤ} {x : Symbol} (h : x ∈ c.intNextSymbols q) : x ∈ alphabet c := by
  unfold AbstractCfg.intNextSymbols at h
  split_ifs at h
  · obtain ⟨e, he, hx⟩ := List.mem_filterMap.1 h
    rw [AbstractCfg.edgeSymbol] at hx
    cases ht : e.tag with
    | none =>
      rw [ht] at hx
      exact mem_alphabet_action hx
    | some t =>
      rw [ht] at hx
      obtain rfl : t = x := Option.some.inj hx
      obtain ⟨es, hes, hm⟩ := AbstractCfg.mem_edges_of_getSuccessors he
      exact List.mem_append_right _ (List.mem_filterMap.2 ⟨e, List.mem_flatten.2 ⟨es, hes, hm⟩, ht⟩)
  · exact mem_alphabet_action (by simpa using h)

theorem next_subset {p : Program} {a : ConcurrentAutomaton} (h : a.threads = p.minimisedThreads) (s : ConcurrentState) :
    ∀ x ∈ a.automaton.next s, x ∈ programSymbols p := by
  have hsingle : ∀ i, ∀ x ∈ a.nextSingle s i, x ∈ programSymbols p := by
    intro i x hx
    have hmem := intNextSymbols_subset (ConcurrentAutomaton.offered hx)
    by_cases hi : i < p.minimisedThreads.length
    · rw [ConcurrentAutomaton.thread, h, List.getD_eq_getElem _ _ hi] at hmem
      exact List.mem_flatMap.2 ⟨_, List.getElem_mem hi, hmem⟩
    · rw [ConcurrentAutomaton.thread, h, List.getD_eq_default _ _ (by omega)] at hmem
      simp [alphabet, AbstractCfg.empty, State.ofId] at hmem
  intro x hx
  change x ∈ a.intNextSymbols s at hx
  unfold ConcurrentAutomaton.intNextSymbols at hx
  split at hx
  · obtain ⟨i, -, hx⟩ := List.mem_flatMap.1 hx
    exact hsingle i x hx
  · exact hsingle _ x hx

/-- the wrapper adds what is offered -/
theorem wrapperCalls_subset {inner : Automaton ConcurrentState Symbol} {T : List Symbol}
    (hoffered : ∀ s, ∀ x ∈ inner.next s, x ∈ T) (h : Numbers c) (hc : ∀ x ∈ c.symbolTranslation, x ∈ T)
    (states : List ConcurrentState) : ∀ x ∈ (wrapperCalls inner c states).symbolTranslation, x ∈ T := by
  have hsymbols : ∀ (l : List Symbol) (d : CompressedAutomaton Symbol) (ids : List ComSymbol), Numbers d →
      (∀ x ∈ d.symbolTranslation, x ∈ T) → (∀ x ∈ l, x ∈ T) →
        let d' := (l.foldl (fun p s => ((p.1.comSymbol s).1, p.2 ++ [(p.1.comSymbol s).2])) (d, ids)).1
        Numbers d' ∧ ∀ x ∈ d'.symbolTranslation, x ∈ T := by
    intro l
    induction l with
    | nil => exact fun d ids hd hdT _ => ⟨hd, hdT⟩
    | cons sy l ih =>
      intro d ids hd hdT hl
      obtain ⟨htrans, -, -⟩ := comSymbol_tables hd sy
      refine ih _ _ (numbers_step (fun _ => false) hd (.request sy)).1 (fun x hx => ?_)
        fun x hx => hl x (List.mem_cons_of_mem _ hx)
      rw [htrans, mem_append] at hx
      rcases hx with hx | rfl
      · exact hdT x hx
      · exact hl _ List.mem_cons_self
  induction states generalizing c with
  | nil => exact hc
  | cons s states ih =>
    obtain ⟨h1, h2⟩ := hsymbols (inner.next s) c [] h hc (hoffered s)
    exact ih h1 h2

/-- **Every answer is definite**, if no call has thrown. -/
theorem testFrom_spec {limi : Limi} (hlimi : limi.Sound) {a : ConcurrentAutomaton} {T : List Symbol}
    (hT : T.length ≤ 2 ^ 16) (hoffered : ∀ s, ∀ x ∈ a.automaton.next s, x ∈ T) {rounds bound : ℕ}
    (h : Represents c B) (hc : ∀ x ∈ c.symbolTranslation, x ∈ T) {given : Answer}
    (htest : testFrom limi a rounds bound c = (given, d)) :
    Represents d B ∧ (∀ x ∈ d.symbolTranslation, x ∈ T) ∧
      (given = .rangeError ∧ (∃ s x, a.throws s x = true) ∨ given = .boundReached ∨
        ∃ r, given = .found r ∧ Definite a.automaton B r) := by
  induction rounds generalizing c bound with
  | zero =>
    obtain ⟨rfl, rfl⟩ := Prod.mk.inj htest
    exact ⟨h, hc, .inr (.inl rfl)⟩
  | succ rounds ih =>
    obtain ⟨⟨result, states⟩, hrun⟩ : ∃ run, limi.run a c bound = run := ⟨_, rfl⟩
    have hd := h.wrapperCalls a.automaton states
    have hdT := wrapperCalls_subset hoffered h.toNumbers hc states
    have hle := (hd.nodup.subperm hdT).length_le.trans hT
    cases hthrew : (limi.steps a c bound).any fun q => a.throws q.1 q.2 with
    | true =>
      rw [testFrom, hrun] at htest
      dsimp only at htest
      rw [hthrew, if_pos rfl] at htest
      obtain ⟨rfl, rfl⟩ := Prod.mk.inj htest
      obtain ⟨q, -, hq⟩ := List.any_eq_true.1 hthrew
      exact ⟨hd, hdT, .inl ⟨rfl, q.1, q.2, hq⟩⟩
    | false =>
      rcases testFrom_succ hlimi rounds h hrun hle hthrew with ⟨r, hr, hdefinite⟩ | hnext
      · obtain ⟨rfl, rfl⟩ := Prod.mk.inj (htest.symm.trans hr)
        exact ⟨hd, hdT, .inr (.inr ⟨r, rfl, hdefinite⟩)⟩
      · exact ih hd hdT (hnext ▸ htest)

/-! ## The sequential automaton -/

/-- what is accepted is offered at reachable states -/
theorem seen_of_accepts {A : Automaton ConcurrentState Symbol} (h : A.Accepts w) {x : Symbol} (hx : x ∈ w) :
    x ∈ Compression.symbolsSeen A [] := by
  obtain ⟨r, s, ⟨s0, hs0, hp⟩, -, rfl⟩ := h
  obtain ⟨t, ht, rfl⟩ := List.mem_map.1 hx
  have hreach := Automaton.path_inv_src (fun s => A.Reachable s) (fun t ht hs => hs.step ht) hp (.initial hs0) t ht
  exact .inr ⟨t.src, hreach, (hp.step t ht).1⟩

theorem seen_subset {p : Program} {a : ConcurrentAutomaton} (h : a.threads = p.minimisedThreads) {limi : Limi}
    (hcollapse : limi.Collapses a.automaton) {x : Symbol}
    (hx : x ∈ Compression.symbolsSeen (limi.collapse a.automaton) []) : x ∈ programSymbols p := by
  rcases hx with hx | ⟨s, -, hx⟩
  · simp at hx
  · obtain ⟨s', hx⟩ := hcollapse.symbols s x hx
    exact next_subset h s' x hx

theorem visible_visible (w : List Symbol) : visible (visible w) = visible w := by simp [visible]

/-- up to epsilon symbols collapsing changes nothing -/
theorem hasEquivalent_collapse {A : Automaton ConcurrentState Symbol} {limi : Limi} (hcollapse : limi.Collapses A)
    (w : List Symbol) : HasEquivalent (limi.collapse A) w ↔ HasEquivalent A w := by
  constructor
  · intro hleft
    obtain ⟨u, hu, heq⟩ := hleft
    obtain ⟨v, hv, rfl⟩ := (hcollapse.accepts u).1 hu
    rw [visible_visible] at heq
    exact ⟨v, hv, heq⟩
  · intro hright
    obtain ⟨v, hv, heq⟩ := hright
    refine ⟨visible v, (hcollapse.accepts _).2 ⟨v, hv, rfl⟩, ?_⟩
    rw [visible_visible]
    exact heq

theorem definite_collapse {A B : Automaton ConcurrentState Symbol} {limi : Limi} (hcollapse : limi.Collapses B)
    (result : InclusionResult Symbol) : Definite A (limi.collapse B) result ↔ Definite A B result := by
  simp only [Definite, hasEquivalent_collapse hcollapse]

/-- more fuel changes nothing -/
theorem explore_mono {A : Automaton ConcurrentState Symbol} {queue : FrontierQueue ConcurrentState} {fuel fuel' : ℕ}
    {b b' : Compression ConcurrentState ConcurrentState Symbol} (hfuel : fuel ≤ fuel')
    (h : Compression.explore A ConcurrentState.eraseReward Symbol.isEpsilon queue fuel b = some b') :
    Compression.explore A ConcurrentState.eraseReward Symbol.isEpsilon queue fuel' b = some b' := by
  induction fuel generalizing b fuel' with
  | zero => simp [Compression.explore] at h
  | succ fuel ih =>
    obtain ⟨fuel', rfl⟩ : ∃ k, fuel' = k + 1 := ⟨fuel' - 1, by omega⟩
    rw [Compression.explore] at h ⊢
    split at h
    · exact h
    · rename_i first rest hfrontier
      dsimp only at h ⊢
      split at h
      · simp at h
      · exact ih (by omega) h

/-- **The compressed automaton represents the collapsed automaton that it is made from.** -/
theorem compressed_represents {p : Program} {a : ConcurrentAutomaton} (h : a.threads = p.minimisedThreads) {limi : Limi}
    (hcollapse : limi.Collapses a.automaton)
    (hstates : (Set.image ConcurrentState.eraseReward {s | a.automaton.Reachable s}).encard ≤ (2 ^ 32 : ℕ))
    (hsymbols : (programSymbols p).length ≤ 2 ^ 16) :
    (∃ bound, ∀ fuel, bound ≤ fuel → (compressed limi a fuel).isSome = true) ∧
      ∀ fuel c, compressed limi a fuel = some c →
        Represents c (limi.collapse a.automaton) ∧ ∀ x ∈ c.symbolTranslation, x ∈ programSymbols p := by
  have hres := hcollapse.respects
  have hfits : Compression.Fits (limi.collapse a.automaton) ConcurrentState.eraseReward ([] : List Symbol) := by
    refine ⟨fun l hl hsub => Compression.length_le_of_encard hl (fun k hk => ?_) hstates, fun l hl hsub => ?_⟩
    · obtain ⟨s, hs, rfl⟩ := hsub k hk
      exact ⟨s, hcollapse.states s hs, rfl⟩
    · exact (hl.subperm fun x hx => seen_subset h hcollapse (hsub x hx)).length_le.trans hsymbols
  have hstart := Compression.started_initial
    (⟨List.nodup_nil, rfl⟩ : Compression.TableOk Symbol.isEpsilon ({} : CompressedAutomaton Symbol))
    (limi.collapse a.automaton).initial (fun s hs => Automaton.Reachable.initial hs) hcollapse.initial
  obtain ⟨b, bound, hrun, hb, hend⟩ := Compression.explore_spec (FrontierQueue.ofReward fun s => s.reward) hfits _
    hstart.explored rfl
  have hexact := hb.exact hres hend hfits
  have hknown : ∀ w, (limi.collapse a.automaton).Accepts w → ∀ x ∈ w, x ∈ b.result.symbolTranslation := fun w hacc x hx =>
    (hb.mem_symbols hres hend).1 (seen_of_accepts hacc hx)
  have hall : ∀ fuel, bound ≤ fuel → compressed limi a fuel = some b.result := by
    intro fuel hfuel
    rw [compressed, fromConcurrentAutomaton, hrun fuel hfuel]
    rfl
  refine ⟨⟨bound, fun fuel hfuel => by rw [hall fuel hfuel]; rfl⟩, fun fuel c hc => ?_⟩
  obtain rfl : b.result = c := by
    obtain ⟨b', hb', rfl⟩ := Option.map_eq_some_iff.1 hc
    have hmore := explore_mono (Nat.le_max_right bound fuel) hb'
    rw [hrun _ (Nat.le_max_left bound fuel)] at hmore
    rw [Option.some.inj hmore]
  exact ⟨⟨⟨hb.symbolsNodup, hb.symbolMap⟩, hb.successorFilter, hknown,
    fun w hacc x hx => hexact.epsilon x (seen_of_accepts hacc hx), fun u => hexact.accepts u⟩,
    fun x hx => seen_subset h hcollapse ((hb.mem_symbols hres hend).2 hx)⟩

/-- **Inclusion between the two semantics.** Where `test_inclusion` finds an answer it is definite, whichever bound it
was found at. -/
theorem testPrograms_spec {limi : Limi} (hlimi : limi.Sound) (maxBound : ℕ) (sequentialProgram concurrentProgram : Program)
    (hcollapse : limi.Collapses (ConcurrentAutomaton.ofProgram sequentialProgram false false).automaton)
    (hstates : (Set.image ConcurrentState.eraseReward
      {s | (ConcurrentAutomaton.ofProgram sequentialProgram false false).automaton.Reachable s}).encard ≤ (2 ^ 32 : ℕ))
    (hsymbols : (programSymbols sequentialProgram ++ programSymbols concurrentProgram).length ≤ 2 ^ 16) :
    (∃ bound, ∀ fuel, bound ≤ fuel → (testPrograms limi maxBound sequentialProgram concurrentProgram fuel).isSome = true) ∧
      ∀ fuel given, testPrograms limi maxBound sequentialProgram concurrentProgram fuel = some given →
        given = .boundReached ∨ ∃ r, given = .found r ∧
          Definite (ConcurrentAutomaton.ofProgram concurrentProgram true false).automaton
            (ConcurrentAutomaton.ofProgram sequentialProgram false false).automaton r := by
  obtain ⟨⟨bound, htotal⟩, hrep⟩ := compressed_represents rfl hcollapse hstates
    ((List.length_append ▸ Nat.le_add_right _ _).trans hsymbols)
  refine ⟨⟨bound, fun fuel hfuel => by rw [testPrograms, Option.isSome_map]; exact htotal fuel hfuel⟩,
    fun fuel given hgiven => ?_⟩
  obtain ⟨c, hc, rfl⟩ := Option.map_eq_some_iff.1 hgiven
  obtain ⟨hc, hsub⟩ := hrep fuel c hc
  have htest : testInclusion limi maxBound c (.ofProgram concurrentProgram true false) = (_, _) := rfl
  obtain ⟨-, -, hspec⟩ := testFrom_spec hlimi hsymbols (fun s x hx => List.mem_append_right _ (next_subset rfl s x hx)) hc
    (fun x hx => List.mem_append_left _ (hsub x hx)) htest
  simp only [definite_collapse hcollapse] at hspec
  apply hspec.resolve_left
  intro ⟨_, s, x, hthrows⟩
  exact ConcurrentAutomaton.not_throws rfl s x hthrows

/-! ### A search without bound -/

/-- the words that a compressed automaton represents -/
theorem Represents.accepts_congr {B' : Automaton ConcurrentState Symbol} (h : Represents c B) (h' : Represents c B')
    (hle : c.symbolTranslation.length ≤ 2 ^ 16) (hw : B.Accepts w) : B'.Accepts w := by
  obtain ⟨v, hv, heq⟩ := (h'.accepts _).1 ((h.accepts _).2 ⟨w, hw, rfl⟩)
  have hdecode := mapM_idOf hle (h'.known v hv)
  rw [heq, mapM_idOf hle (h.known w hw)] at hdecode
  exact Option.some.inj hdecode ▸ hv

theorem HasEquivalent.congr {B' : Automaton ConcurrentState Symbol} (hB : ∀ v, B.Accepts v → B'.Accepts v)
    (h : HasEquivalent B w) : HasEquivalent B' w := by
  obtain ⟨v, hv, heq⟩ := h
  exact ⟨v, hB v hv, heq⟩

/-- a run of the left automaton without an equivalent word -/
def Counter (a : ConcurrentAutomaton) (c : CompressedAutomaton Symbol) (r : List (Trans ConcurrentState Symbol)) : Prop :=
  ∃ B s, Represents c B ∧ a.automaton.Run r s ∧ a.automaton.final s = true ∧ ¬HasEquivalent B (Automaton.word r)

open Classical in
/-- the search that finds a word without an equivalent one if there is one, for automata without epsilon symbols -/
noncomputable def unbounded : Limi where
  collapse A := A
  run a c bound :=
    if h : ∃ r, Counter a c r then
      (⟨false, false, bound,
        (Automaton.word h.choose).map (idOf (wrapperCalls a.automaton c (h.choose.map Trans.src)))⟩,
        h.choose.map Trans.src)
    else (⟨true, false, bound, []⟩, [])
  steps a c _ := if h : ∃ r, Counter a c r then h.choose.map fun t => (t.src, t.sym) else []
  runList v c bound :=
    ⟨decide (∃ u, c.automaton.Accepts u ∧ Equivalent c.comIndependent v (u.filter fun id => !c.intIsEpsilon id)), false,
      bound, v⟩

/-- the wrapper knows the symbols of the states it has been asked for -/
theorem known_of_run {a : ConcurrentAutomaton} (h : Numbers c) {r : List (Trans ConcurrentState Symbol)}
    {s : ConcurrentState} (hr : a.automaton.Run r s) :
    ∀ x ∈ Automaton.word r, x ∈ (wrapperCalls a.automaton c (r.map Trans.src)).symbolTranslation := by
  intro x hx
  obtain ⟨t, ht, rfl⟩ := List.mem_map.1 hx
  obtain ⟨s0, -, hp⟩ := hr
  exact (Wrapped.calls ⟨h, rfl, List.prefix_rfl⟩ a.automaton (r.map Trans.src)).2 t.src (List.mem_map_of_mem ht) t.sym
    (hp.step t ht).1

theorem unbounded_sound : unbounded.Sound where
  known a c B bound result states hc hrun id hid := by
    simp only [unbounded] at hrun
    split_ifs at hrun with hex
    · obtain ⟨rfl, rfl⟩ := Prod.mk.inj hrun
      obtain ⟨B', s, -, hr, -⟩ := hex.choose_spec
      obtain ⟨x, hx, rfl⟩ := List.mem_map.1 hid
      have hlt := List.idxOf_lt_length_of_mem (known_of_run hc.toNumbers hr x hx)
      exact (Nat.mod_le _ _).trans_lt hlt
    · obtain ⟨rfl, rfl⟩ := Prod.mk.inj hrun
      simp at hid
  included a c B bound result states hc hrun hle hinc w hw := by
    simp only [unbounded] at hrun
    split_ifs at hrun with hex
    · obtain ⟨rfl, rfl⟩ := Prod.mk.inj hrun
      simp at hinc
    · obtain ⟨r, s, hr, hf, rfl⟩ := hw
      by_contra hno
      exact hex ⟨r, B, s, hc, hr, hf, hno⟩
  counterExample a c B bound result states hc hrun hle hinc := by
    simp only [unbounded] at hrun
    split_ifs at hrun with hex
    · obtain ⟨rfl, rfl⟩ := Prod.mk.inj hrun
      obtain ⟨B', s, hc', hr, hf, hno⟩ := hex.choose_spec
      obtain ⟨hw, -⟩ := Wrapped.calls ⟨hc.toNumbers, rfl, List.prefix_rfl⟩ a.automaton (hex.choose.map Trans.src)
      have hlen := hw.old.length_le.trans hle
      refine ⟨_, ⟨_, s, hr, hf, rfl⟩, known_of_run hc.toNumbers hr, rfl, fun _ hequiv => hno ?_⟩
      exact hequiv.congr fun v hv => hc.accepts_congr hc' hlen hv
    · obtain ⟨rfl, rfl⟩ := Prod.mk.inj hrun
      simp at hinc
  list v c bound _ _ := by simp [unbounded]

/-- without epsilon symbols there is nothing to collapse -/
theorem unbounded_collapses {p : Program} {a : ConcurrentAutomaton} (h : a.threads = p.minimisedThreads)
    (hno : ∀ x ∈ programSymbols p, x.isEpsilon = false) : unbounded.Collapses a.automaton := by
  have hvisible : ∀ w, a.automaton.Accepts w → visible w = w := by
    intro w hw
    refine List.filter_eq_self.2 fun x hx => ?_
    rcases seen_of_accepts hw hx with hmem | ⟨s, -, hmem⟩
    · simp at hmem
    · simp [hno x (next_subset h s x hmem)]
  have hinit : a.automaton.initial = [a.startState] := ConcurrentAutomaton.intInitialStates_eq a
  refine ⟨fun u => ⟨fun hu => ⟨u, hu, hvisible u hu⟩, ?_⟩, ConcurrentAutomaton.respects_eraseReward a, fun s hs => hs,
    fun s x hx => ⟨s, hx⟩, by simp [unbounded, hinit]⟩
  rintro ⟨w, hw, rfl⟩
  rw [hvisible w hw]
  exact hw

/-! ### A program that needs no locks -/

/-- the states with the keys of a closed list -/
theorem encard_le_of_closed {a : ConcurrentAutomaton} {l : List ConcurrentState} {n : ℕ} (hlen : l.length ≤ n)
    (h0 : a.startState.eraseReward ∈ l)
    (hstep : ∀ k ∈ l, k.eraseReward = k ∧
      ∀ x ∈ a.automaton.next k, ∀ s ∈ a.automaton.succ k x, s.eraseReward ∈ l) :
    (Set.image ConcurrentState.eraseReward {s | a.automaton.Reachable s}).encard ≤ n := by
  have hsub : Set.image ConcurrentState.eraseReward {s | a.automaton.Reachable s} ⊆ l.toFinset := by
    rintro k ⟨s, hs, rfl⟩
    have hinit : a.automaton.initial = [a.startState] := ConcurrentAutomaton.intInitialStates_eq a
    have hmem := (ConcurrentAutomaton.respects_eraseReward a).closed (R := fun k => k ∈ l) (by simpa [hinit] using h0)
      (fun k hk => ⟨k, (hstep k hk).1, fun t ht hsrc => (hstep k hk).2 t.sym (hsrc ▸ ht.1) t.dst (hsrc ▸ ht.2)⟩) hs
    simpa using hmem
  calc (Set.image ConcurrentState.eraseReward {s | a.automaton.Reachable s}).encard
      ≤ (l.toFinset : Set ConcurrentState).encard := Set.encard_le_encard hsub
    _ = l.toFinset.card := Set.encard_coe_eq_coe_finsetCard _
    _ ≤ n := by exact_mod_cast (List.toFinset_card_le l).trans hlen

/-- the keys of the states that are reached in `rounds` rounds -/
def keysWithin (a : ConcurrentAutomaton) (rounds : ℕ) : List ConcurrentState :=
  (fun l => (l ++ l.flatMap fun k => (a.automaton.next k).flatMap fun x =>
    (a.automaton.succ k x).map ConcurrentState.eraseReward).dedup)^[rounds] [a.startState.eraseReward]

theorem locked_states : (Set.image ConcurrentState.eraseReward
    {s | (ConcurrentAutomaton.ofProgram ConcurrentAutomaton.lockedProgram false false).automaton.Reachable s}).encard ≤
      (2 ^ 32 : ℕ) := by
  let a := ConcurrentAutomaton.ofProgram ConcurrentAutomaton.lockedProgram false false
  have hclosed : ∀ k ∈ keysWithin a 4, k.eraseReward = k ∧
      ∀ x ∈ a.automaton.next k, ∀ s ∈ a.automaton.succ k x, s.eraseReward ∈ keysWithin a 4 := by
    decide
  have hlen : (keysWithin a 4).length ≤ 2 ^ 32 := by
    calc (keysWithin a 4).length ≤ 100 := by decide
      _ ≤ 2 ^ 32 := by norm_num
  exact encard_le_of_closed hlen (by decide) hclosed

theorem locked_symbols : (programSymbols ConcurrentAutomaton.lockedProgram).length = 3 := by decide

theorem locked_collapses :
    unbounded.Collapses (ConcurrentAutomaton.ofProgram ConcurrentAutomaton.lockedProgram false false).automaton :=
  unbounded_collapses rfl (by decide)

theorem locked_tested : (∃ bound, ∀ fuel, bound ≤ fuel → (testPrograms unbounded 1 ConcurrentAutomaton.lockedProgram
      ConcurrentAutomaton.lockedProgram fuel).isSome = true) ∧
    ∀ fuel given, testPrograms unbounded 1 ConcurrentAutomaton.lockedProgram ConcurrentAutomaton.lockedProgram fuel =
        some given → given = .boundReached ∨
      ∃ r, given = .found r ∧
        Definite (ConcurrentAutomaton.ofProgram ConcurrentAutomaton.lockedProgram true false).automaton
          (ConcurrentAutomaton.ofProgram ConcurrentAutomaton.lockedProgram false false).automaton r := by
  have hsymbols : (programSymbols ConcurrentAutomaton.lockedProgram ++
      programSymbols ConcurrentAutomaton.lockedProgram).length ≤ 2 ^ 16 := by
    rw [List.length_append, locked_symbols]
    norm_num
  exact testPrograms_spec unbounded_sound 1 _ _ locked_collapses locked_states hsymbols

end InclusionTest

end Liss
