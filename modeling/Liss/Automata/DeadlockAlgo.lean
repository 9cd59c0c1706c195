/-
`automata/deadlock_algo.h`: the breadth-first search for a dead state.

The result is built from the chain of the dead state. The chain of an initial state is a null pointer, so where an
initial state is dead `current.cex_chain->to_list()` follows a null pointer (`nullPointer`). The maps `predecessor_map`
and `final_states` are filled but never read; they are left out. States are compared by `key`, and `reachable` is the
set of the keys that have been seen.

- `Searched`: the invariant of the loop;
- `search_total`, `search_spec`: the search ends, and what its result says;
- `run_findsDeadlocks_iff`: the search is sound and complete iff no initial state is dead;
- `run_nullPointer`: where one is, the null pointer is followed.
-/
import Liss.Abstraction.StateEquality
import Liss.Lib.Worklist

namespace Liss.DeadlockAlgo

open Automaton

/-- `counterexample_chain`, with the null pointer -/
inductive CounterChain (Sym : Type*) where
  | null
  | node (symbol : Sym) (parent : CounterChain Sym)

namespace CounterChain

variable {Sym : Type*}

/-- the symbols of a chain, the oldest first -/
def labels : CounterChain Sym → List Sym
  | null => []
  | node symbol parent => parent.labels ++ [symbol]

/-- `to_list`, which a null pointer does not have -/
def toList : CounterChain Sym → Option (List Sym)
  | null => none
  | node symbol parent => some (node symbol parent).labels

end CounterChain

structure FrontierItem (S Sym : Type*) where
  s : S
  cexChain : CounterChain Sym

structure DeadlockResult (S Sym : Type*) where
  deadlockFound : Bool := false
  noSuccessor : Bool := false
  deadState : Option S := none
  impossibleSuccessors : List Sym := []
  counterExample : List Sym := []

/-- how a run ends -/
inductive Outcome (S Sym : Type*) where
  | nullPointer
  | finished (result : DeadlockResult S Sym)

variable {S K Sym : Type*} [DecidableEq K]

/-- `initial_states_conv` -/
def initialStatesConv (states : List S) : List (FrontierItem S Sym) := states.map fun state => ⟨state, .null⟩

/-- the items that the loops over the next symbols and their successors push -/
def successorItems (A : Automaton S Sym) (current : FrontierItem S Sym) : List (FrontierItem S Sym) :=
  (A.next current.s).flatMap fun sigma =>
    (A.succ current.s sigma).map fun state => ⟨state, .node sigma current.cexChain⟩

/-- the result for a dead state -/
def deadEnd (A : Automaton S Sym) (current : FrontierItem S Sym) : Outcome S Sym :=
  match current.cexChain.toList with
  | none => .nullPointer
  | some counterExample => .finished
      { deadlockFound := true
        noSuccessor := true
        deadState := some current.s
        impossibleSuccessors := A.next current.s
        counterExample := counterExample }

/-- the loop over the frontier; `none` when the fuel runs out -/
def search (A : Automaton S Sym) (key : S → K) (assume : Sym → Bool) :
    ℕ → List (FrontierItem S Sym) → List K → Option (Outcome S Sym)
  | 0, _, _ => none
  | _ + 1, [], _ => some (.finished {})
  | fuel + 1, current :: frontier, reachable =>
    if key current.s ∈ reachable then search A key assume fuel frontier reachable
    else
      let items := successorItems A current
      if !A.final current.s && items.isEmpty && !(A.next current.s).any assume then some (deadEnd A current)
      else search A key assume fuel (frontier ++ items) (key current.s :: reachable)

/-- `run` -/
def run (A : Automaton S Sym) (key : S → K) (assume : Sym → Bool) (fuel : ℕ) : Option (Outcome S Sym) :=
  search A key assume fuel (initialStatesConv A.initial) []

/-! ## Dead states -/

/-- not final, without successor, and none of the next symbols is an assume -/
def Dead (A : Automaton S Sym) (assume : Sym → Bool) (s : S) : Prop :=
  A.final s = false ∧ (∀ x ∈ A.next s, A.succ s x = []) ∧ ∀ x ∈ A.next s, assume x = false

variable {A : Automaton S Sym} {key : S → K} {assume : Sym → Bool}

omit [DecidableEq K] in
theorem Dead.of_key (h : A.Respects key) {s t : S} (hk : key s = key t) (hs : Dead A assume s) : Dead A assume t := by
  obtain ⟨hfinal, hsucc, hassume⟩ := hs
  rw [h.final s t hk] at hfinal
  rw [h.next s t hk] at hsucc hassume
  refine ⟨hfinal, fun x hx => ?_, hassume⟩
  have hmap := h.succ s t hk x
  rw [hsucc x hx, List.map_nil] at hmap
  exact List.map_eq_nil_iff.1 hmap.symm

omit [DecidableEq K] in
theorem mem_successorItems {current it : FrontierItem S Sym} : it ∈ successorItems A current ↔
    ∃ sigma, A.Step ⟨current.s, sigma, it.s⟩ ∧ it.cexChain = .node sigma current.cexChain := by
  obtain ⟨s, chain⟩ := it
  simp only [successorItems, List.mem_flatMap, List.mem_map, FrontierItem.mk.injEq, Automaton.Step]
  constructor
  · rintro ⟨sigma, hsigma, _, hsucc, rfl, rfl⟩
    exact ⟨sigma, ⟨hsigma, hsucc⟩, rfl⟩
  · rintro ⟨sigma, ⟨hsigma, hsucc⟩, rfl⟩
    exact ⟨sigma, hsigma, s, hsucc, rfl, rfl⟩

omit [DecidableEq K] in
/-- the test of the loop -/
theorem dead_test {current : FrontierItem S Sym} : (!A.final current.s && (successorItems A current).isEmpty &&
    !(A.next current.s).any assume) = true ↔ Dead A assume current.s := by
  have hempty : (successorItems A current).isEmpty = true ↔ ∀ x ∈ A.next current.s, A.succ current.s x = [] := by
    simp [successorItems, List.isEmpty_iff]
  have hany : ((A.next current.s).any assume = false) ↔ ∀ x ∈ A.next current.s, assume x = false := by
    simp
  rw [Bool.and_eq_true, Bool.and_eq_true, hempty, Bool.not_eq_true', Bool.not_eq_true', hany, Dead, and_assoc]

/-! ## The loop -/

/-- the key has been seen or is waiting -/
def Met (key : S → K) (frontier : List (FrontierItem S Sym)) (reachable : List K) (k : K) : Prop :=
  k ∈ reachable ∨ ∃ it ∈ frontier, key it.s = k

/-- the invariant of the loop: chains are paths, and what has been seen is not dead and has its successors met -/
structure Searched (A : Automaton S Sym) (key : S → K) (assume : Sym → Bool) (frontier : List (FrontierItem S Sym))
    (reachable : List K) : Prop where
  path : ∀ it ∈ frontier, ∃ r, A.Run r it.s ∧ word r = it.cexChain.labels
  initial : ∀ s ∈ A.initial, Met key frontier reachable (key s)
  seen : ∀ k ∈ reachable, ∃ s, key s = k ∧ ¬Dead A assume s ∧
    ∀ t, A.Step t → t.src = s → Met key frontier reachable (key t.dst)

omit [DecidableEq K] in
theorem searched_start : Searched A key assume (initialStatesConv A.initial) [] := by
  refine ⟨?_, ?_, nofun⟩
  · intro it hit
    obtain ⟨s, hs, rfl⟩ := List.mem_map.1 hit
    exact ⟨[], ⟨s, hs, .nil s⟩, rfl⟩
  · intro s hs
    exact .inr ⟨⟨s, .null⟩, List.mem_map_of_mem hs, rfl⟩

omit [DecidableEq K] in
theorem Searched.mono {frontier frontier' : List (FrontierItem S Sym)} {reachable : List K}
    (h : Searched A key assume frontier reachable)
    (hpath : ∀ it ∈ frontier', ∃ r, A.Run r it.s ∧ word r = it.cexChain.labels)
    (hmet : ∀ k, Met key frontier reachable k → Met key frontier' reachable k) :
    Searched A key assume frontier' reachable := by
  refine ⟨hpath, fun s hs => hmet _ (h.initial s hs), fun k hk => ?_⟩
  obtain ⟨s, hs, hdead, hstep⟩ := h.seen k hk
  exact ⟨s, hs, hdead, fun t ht hsrc => hmet _ (hstep t ht hsrc)⟩

omit [DecidableEq K] in
theorem Searched.skip {current : FrontierItem S Sym} {frontier : List (FrontierItem S Sym)} {reachable : List K}
    (h : Searched A key assume (current :: frontier) reachable) (hk : key current.s ∈ reachable) :
    Searched A key assume frontier reachable := by
  apply h.mono (fun it hit => h.path it (List.mem_cons_of_mem _ hit))
  rintro k (hseen | ⟨it, hit, rfl⟩)
  · exact .inl hseen
  · rcases List.mem_cons.1 hit with rfl | hit
    · exact .inl hk
    · exact .inr ⟨it, hit, rfl⟩

omit [DecidableEq K] in
/-- the items that are pushed have paths again -/
theorem Searched.path_pushed {current : FrontierItem S Sym} {frontier : List (FrontierItem S Sym)} {reachable : List K}
    (h : Searched A key assume (current :: frontier) reachable) {it : FrontierItem S Sym}
    (hit : it ∈ frontier ++ successorItems A current) : ∃ r, A.Run r it.s ∧ word r = it.cexChain.labels := by
  rcases List.mem_append.1 hit with hit | hit
  · exact h.path it (List.mem_cons_of_mem _ hit)
  · obtain ⟨sigma, hstep, hchain⟩ := mem_successorItems.1 hit
    obtain ⟨r, hr, hw⟩ := h.path current List.mem_cons_self
    refine ⟨r ++ [⟨current.s, sigma, it.s⟩], Run.snoc (t := ⟨current.s, sigma, it.s⟩) hr hstep, ?_⟩
    rw [word_append, hw, hchain]
    rfl

omit [DecidableEq K] in
theorem Searched.visit {current : FrontierItem S Sym} {frontier : List (FrontierItem S Sym)} {reachable : List K}
    (h : Searched A key assume (current :: frontier) reachable) (hdead : ¬Dead A assume current.s) :
    Searched A key assume (frontier ++ successorItems A current) (key current.s :: reachable) := by
  have hmet : ∀ k, Met key (current :: frontier) reachable k →
      Met key (frontier ++ successorItems A current) (key current.s :: reachable) k := by
    rintro k (hseen | ⟨it, hit, rfl⟩)
    · exact .inl (List.mem_cons_of_mem _ hseen)
    · rcases List.mem_cons.1 hit with rfl | hit
      · exact .inl List.mem_cons_self
      · exact .inr ⟨it, List.mem_append_left _ hit, rfl⟩
  refine ⟨fun it hit => h.path_pushed hit, fun s hs => hmet _ (h.initial s hs), fun k hk => ?_⟩
  rcases List.mem_cons.1 hk with rfl | hk
  · refine ⟨current.s, rfl, hdead, ?_⟩
    rintro ⟨src, sigma, dst⟩ hstep rfl
    have hmem : (⟨dst, .node sigma current.cexChain⟩ : FrontierItem S Sym) ∈ successorItems A current :=
      mem_successorItems.2 ⟨sigma, hstep, rfl⟩
    exact .inr ⟨_, List.mem_append_right _ hmem, rfl⟩
  · obtain ⟨s, hs, hnot, hstep⟩ := h.seen k hk
    exact ⟨s, hs, hnot, fun t ht hsrc => hmet _ (hstep t ht hsrc)⟩

omit [DecidableEq K] in
/-- at the end of the search no reachable state is dead -/
theorem Searched.done (hres : A.Respects key) {reachable : List K} (h : Searched A key assume [] reachable) {s : S}
    (hs : A.Reachable s) : ¬Dead A assume s := by
  have hmet : ∀ k, Met key ([] : List (FrontierItem S Sym)) reachable k → k ∈ reachable := by
    rintro k (hk | ⟨it, hit, -⟩)
    · exact hk
    · exact absurd hit List.not_mem_nil
  have hseen : key s ∈ reachable := by
    refine hres.closed (R := fun k => k ∈ reachable) (fun s hs => hmet _ (h.initial s hs)) (fun k hk => ?_) hs
    obtain ⟨s', hs', -, hstep⟩ := h.seen k hk
    exact ⟨s', hs', fun t ht hsrc => hmet _ (hstep t ht hsrc)⟩
  obtain ⟨s', hs', hdead, -⟩ := h.seen _ hseen
  exact fun hd => hdead (hd.of_key hres hs'.symm)

/-- an iteration: the item is dropped, or ends the search, or is replaced by the items of its successors -/
theorem search_cons (A : Automaton S Sym) (key : S → K) (assume : Sym → Bool) (fuel : ℕ) (current : FrontierItem S Sym)
    (frontier : List (FrontierItem S Sym)) (reachable : List K) :
    (key current.s ∈ reachable ∧ search A key assume (fuel + 1) (current :: frontier) reachable =
      search A key assume fuel frontier reachable) ∨
    (key current.s ∉ reachable ∧ Dead A assume current.s ∧
      search A key assume (fuel + 1) (current :: frontier) reachable = some (deadEnd A current)) ∨
    (key current.s ∉ reachable ∧ ¬Dead A assume current.s ∧
      search A key assume (fuel + 1) (current :: frontier) reachable =
        search A key assume fuel (frontier ++ successorItems A current) (key current.s :: reachable)) := by
  by_cases hk : key current.s ∈ reachable
  · exact .inl ⟨hk, by rw [search, if_pos hk]⟩
  · by_cases hd : Dead A assume current.s
    · exact .inr (.inl ⟨hk, hd, by rw [search, if_neg hk, if_pos (dead_test.2 hd)]⟩)
    · exact .inr (.inr ⟨hk, hd, by rw [search, if_neg hk, if_neg (fun h => hd (dead_test.1 h))]⟩)

/-- what an outcome says -/
def Sound (A : Automaton S Sym) (assume : Sym → Bool) : Outcome S Sym → Prop
  | .nullPointer => ∃ s ∈ A.initial, Dead A assume s
  | .finished result =>
    (result.deadlockFound = true ∧ ∃ s r, result.deadState = some s ∧ Dead A assume s ∧ A.Run r s ∧
      word r = result.counterExample) ∨
    (result.deadlockFound = false ∧ ∀ s, A.Reachable s → ¬Dead A assume s)

omit [DecidableEq K] in
theorem sound_deadEnd {current : FrontierItem S Sym} {r : List (Trans S Sym)} (hd : Dead A assume current.s)
    (hr : A.Run r current.s) (hw : word r = current.cexChain.labels) : Sound A assume (deadEnd A current) := by
  cases hc : current.cexChain with
  | null =>
    -- only an initial state has no chain
    rw [hc] at hw
    obtain rfl : r = [] := List.map_eq_nil_iff.1 hw
    obtain ⟨s, hs, hp⟩ := hr
    rw [path_nil_iff.1 hp] at hs
    rw [deadEnd, hc]
    exact ⟨current.s, hs, hd⟩
  | node symbol parent =>
    rw [hc] at hw
    rw [deadEnd, hc]
    exact .inl ⟨rfl, current.s, r, rfl, hd, hr, hw⟩

/-- **Soundness of the search.** -/
theorem search_sound (hres : A.Respects key) {fuel : ℕ} {frontier : List (FrontierItem S Sym)} {reachable : List K}
    {outcome : Outcome S Sym} (hi : Searched A key assume frontier reachable)
    (h : search A key assume fuel frontier reachable = some outcome) : Sound A assume outcome := by
  induction fuel generalizing frontier reachable with
  | zero => simp [search] at h
  | succ fuel ih =>
    cases frontier with
    | nil =>
      rw [search, Option.some.injEq] at h
      rw [← h]
      exact .inr ⟨rfl, fun s hs => hi.done hres hs⟩
    | cons current frontier =>
      rcases search_cons A key assume fuel current frontier reachable with
        ⟨hk, heq⟩ | ⟨-, hd, heq⟩ | ⟨-, hd, heq⟩
      · exact ih (hi.skip hk) (heq ▸ h)
      · rw [heq, Option.some.injEq] at h
        obtain ⟨r, hr, hw⟩ := hi.path current List.mem_cons_self
        rw [← h]
        exact sound_deadEnd hd hr hw
      · exact ih (hi.visit hd) (heq ▸ h)

/-- the frontier grows only when a new key is seen, of which there are finitely many -/
theorem search_total (univ : List K) (huniv : ∀ s, A.Reachable s → key s ∈ univ) (n : ℕ)
    (frontier : List (FrontierItem S Sym)) (reachable : List K) (hi : Searched A key assume frontier reachable)
    (hn : Worklist.unseen univ reachable = n) :
    ∃ outcome bound, ∀ fuel, bound ≤ fuel → search A key assume fuel frontier reachable = some outcome := by
  induction n using Nat.strong_induction_on generalizing frontier reachable with
  | _ n ihn =>
    induction frontier with
    | nil =>
      refine ⟨.finished {}, 1, fun fuel hfuel => ?_⟩
      obtain ⟨fuel, rfl⟩ : ∃ k, fuel = k + 1 := ⟨fuel - 1, by omega⟩
      rfl
    | cons current frontier ihf =>
      have hrun : A.Reachable current.s := by
        obtain ⟨r, hr, -⟩ := hi.path current List.mem_cons_self
        exact ⟨r, hr⟩
      have hpred : ∀ {bound fuel : ℕ}, bound + 1 ≤ fuel → ∃ k, bound ≤ k ∧ fuel = k + 1 := by
        intro bound fuel hfuel
        exact ⟨fuel - 1, by omega, by omega⟩
      by_cases hk : key current.s ∈ reachable
      · obtain ⟨outcome, bound, hb⟩ := ihf (hi.skip hk)
        refine ⟨outcome, bound + 1, fun fuel hfuel => ?_⟩
        obtain ⟨fuel, hle, rfl⟩ := hpred hfuel
        rw [search, if_pos hk]
        exact hb fuel hle
      · by_cases hd : Dead A assume current.s
        · refine ⟨deadEnd A current, 1, fun fuel hfuel => ?_⟩
          obtain ⟨fuel, -, rfl⟩ := @hpred 0 _ hfuel
          rw [search, if_neg hk, if_pos (dead_test.2 hd)]
        · have hlt := Worklist.unseen_lt (huniv _ hrun) hk
          obtain ⟨outcome, bound, hb⟩ := ihn _ (hn ▸ hlt) _ _ (hi.visit hd) rfl
          refine ⟨outcome, bound + 1, fun fuel hfuel => ?_⟩
          obtain ⟨fuel, hle, rfl⟩ := hpred hfuel
          rw [search, if_neg hk, if_neg (fun h => hd (dead_test.1 h))]
          exact hb fuel hle

/-- the search ends -/
theorem run_total (hfin : A.FiniteKeys key) (assume : Sym → Bool) :
    ∃ outcome bound, ∀ fuel, bound ≤ fuel → run A key assume fuel = some outcome := by
  obtain ⟨univ, huniv⟩ := hfin.exists_list
  exact search_total univ huniv _ _ _ searched_start rfl

/-! ## Dead initial states -/

/-- The initial states are at the front of the queue, so a dead one among them is met before any other dead state; its
chain is the null pointer. -/
theorem search_initial (hres : A.Respects key) {fuel : ℕ} {states : List S} {rest : List (FrontierItem S Sym)}
    {reachable : List K} {outcome : Outcome S Sym} (hseen : ∀ s, key s ∈ reachable → ¬Dead A assume s)
    (hdead : ∃ s ∈ states, Dead A assume s)
    (h : search A key assume fuel (initialStatesConv states ++ rest) reachable = some outcome) :
    outcome = .nullPointer := by
  induction fuel generalizing states rest reachable with
  | zero => simp [search] at h
  | succ fuel ih =>
    obtain ⟨s, hs, hd⟩ := hdead
    cases states with
    | nil => exact absurd hs List.not_mem_nil
    | cons first states =>
      have htail : ¬Dead A assume first → ∃ s ∈ states, Dead A assume s := by
        intro hnot
        rcases List.mem_cons.1 hs with rfl | hs
        · exact absurd hd hnot
        · exact ⟨s, hs, hd⟩
      rw [initialStatesConv, List.map_cons, List.cons_append] at h
      rcases search_cons A key assume fuel ⟨first, .null⟩ (initialStatesConv states ++ rest) reachable with
        ⟨hk, heq⟩ | ⟨-, -, heq⟩ | ⟨-, hnot, heq⟩
      · exact ih hseen (htail (hseen first hk)) (heq ▸ h)
      · rw [← initialStatesConv, heq, Option.some.injEq] at h
        exact h.symm
      · rw [← initialStatesConv, heq, List.append_assoc] at h
        refine ih (fun t ht => ?_) (htail hnot) h
        rcases List.mem_cons.1 ht with hkey | ht
        · exact fun hdt => hnot (hdt.of_key hres hkey)
        · exact hseen t ht

theorem run_nullPointer (hres : A.Respects key) {s : S} (hs : s ∈ A.initial) (hd : Dead A assume s) {fuel : ℕ}
    {outcome : Outcome S Sym} (h : run A key assume fuel = some outcome) : outcome = .nullPointer := by
  have happ : run A key assume fuel = search A key assume fuel (initialStatesConv A.initial ++ []) [] := by
    rw [List.append_nil]
    rfl
  rw [happ] at h
  exact search_initial hres (fun t ht => absurd ht List.not_mem_nil) ⟨s, hs, hd⟩ h

/-! ## The result -/

/-- the search ends without following a null pointer, reports a deadlock iff there is a reachable dead state, and then
gives such a state and the word of a run to it -/
def FindsDeadlocks (A : Automaton S Sym) (key : S → K) (assume : Sym → Bool) : Prop :=
  ∃ result, (∃ bound, ∀ fuel, bound ≤ fuel → run A key assume fuel = some (.finished result)) ∧
    (result.deadlockFound = true ↔ ∃ s, A.Reachable s ∧ Dead A assume s) ∧
    (result.deadlockFound = true → ∃ s r, result.deadState = some s ∧ Dead A assume s ∧ A.Run r s ∧
      word r = result.counterExample)

omit [DecidableEq K] in
theorem Sound.found_iff {result : DeadlockResult S Sym} (h : Sound A assume (.finished result)) :
    result.deadlockFound = true ↔ ∃ s, A.Reachable s ∧ Dead A assume s := by
  rcases h with ⟨hfound, s, r, -, hd, hr, -⟩ | ⟨hfound, hnone⟩
  · exact ⟨fun _ => ⟨s, ⟨r, hr⟩, hd⟩, fun _ => hfound⟩
  · constructor
    · intro ht
      rw [hfound] at ht
      exact absurd ht (by simp)
    · rintro ⟨s, hs, hd⟩
      exact absurd hd (hnone s hs)

/-- **Deadlock search.** On an automaton with finitely many states the search is sound and complete iff no initial state
is dead. -/
theorem run_findsDeadlocks_iff (A : Automaton S Sym) (key : S → K) (assume : Sym → Bool) (hres : A.Respects key)
    (hfin : A.FiniteKeys key) : FindsDeadlocks A key assume ↔ ∀ s ∈ A.initial, ¬Dead A assume s := by
  constructor
  · rintro ⟨result, ⟨bound, hrun⟩, -, -⟩ s hs hd
    have hnull := run_nullPointer hres hs hd (hrun bound le_rfl)
    exact absurd hnull (by simp)
  · intro hinit
    obtain ⟨outcome, bound, hrun⟩ := run_total hfin assume
    have hsound := search_sound hres searched_start (hrun bound le_rfl)
    cases outcome with
    | nullPointer =>
      obtain ⟨s, hs, hd⟩ := hsound
      exact absurd hd (hinit s hs)
    | finished result =>
      refine ⟨result, ⟨bound, hrun⟩, hsound.found_iff, fun hfound => ?_⟩
      rcases hsound with ⟨-, hstate⟩ | ⟨hnot, -⟩
      · exact hstate
      · rw [hnot] at hfound
        exact absurd hfound (by simp)

/-- one step into a dead state -/
def oneStep : Automaton Bool Unit where
  initial := [false]
  next s := if s then [] else [()]
  succ s _ := if s then [] else [true]
  final _ := false

theorem oneStep_findsDeadlocks : FindsDeadlocks oneStep id fun _ => false := by
  refine (run_findsDeadlocks_iff oneStep id _ (respects_id oneStep) (Set.toFinite _)).2 ?_
  rintro s hs ⟨-, hsucc, -⟩
  obtain rfl := List.mem_singleton.1 hs
  exact absurd (hsucc () List.mem_cons_self) (by decide)

/-! ## Two threads that wait at once -/

/-- `wait(c);` in both threads -/
def waitingProgram : Program :=
  Program.twoThreads ⟨0, 0, 1⟩ (Program.straight 0 [(.wait, 0)]) (Program.straight 1 [(.wait, 0)]) 20 (by decide)
    (by decide) (Program.straight_wellFormed (by simp [Symbol.known]))
    (Program.straight_wellFormed (by simp [Symbol.known]))

/-- the automaton of the deadlock check -/
def waiting : Automaton ConcurrentState Symbol := (ConcurrentAutomaton.ofProgram waitingProgram false true).automaton

theorem waiting_initial : waiting.initial =
    [{ locksviolated := [], conflicts := [], threads := [-1, -1] }] := by
  decide

theorem waiting_dead : ∀ s ∈ waiting.initial, Dead waiting Symbol.assume s := by
  rw [waiting_initial]
  intro s hs
  obtain rfl := List.mem_singleton.1 hs
  refine ⟨by decide, by decide, by decide⟩

/-- nothing but the initial state is reachable -/
theorem waiting_reachable {s : ConcurrentState} (hs : waiting.Reachable s) : s ∈ waiting.initial := by
  refine Reachable.inv (I := fun s => s ∈ waiting.initial) (fun s hs => hs) (fun t ht _ hsrc => ?_) hs
  obtain ⟨-, hsucc, -⟩ := waiting_dead t.src hsrc
  have hmem := ht.2
  rw [hsucc t.sym ht.1] at hmem
  exact absurd hmem List.not_mem_nil

theorem waiting_finite : waiting.FiniteKeys ConcurrentState.eraseReward := by
  refine Set.Finite.image _ (Set.Finite.subset (List.finite_toSet waiting.initial) ?_)
  exact fun s hs => waiting_reachable hs

/-- both threads wait before anything has been notified, and the search follows the null pointer -/
theorem waiting_not_findsDeadlocks : waiting.Respects ConcurrentState.eraseReward ∧
    waiting.FiniteKeys ConcurrentState.eraseReward ∧
    ¬FindsDeadlocks waiting ConcurrentState.eraseReward Symbol.assume := by
  refine ⟨ConcurrentAutomaton.respects_eraseReward _, waiting_finite, ?_⟩
  rintro ⟨result, ⟨bound, hrun⟩, -, -⟩
  have hmem : ({ locksviolated := [], conflicts := [], threads := [-1, -1] } : ConcurrentState) ∈ waiting.initial := by
    rw [waiting_initial]
    exact List.mem_singleton_self _
  have hnull := run_nullPointer (ConcurrentAutomaton.respects_eraseReward _) hmem (waiting_dead _ hmem)
    (hrun bound le_rfl)
  exact absurd hnull (by simp)

end Liss.DeadlockAlgo
