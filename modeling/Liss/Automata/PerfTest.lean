/-
`automata/perf_test.h`, `automata/perf_test_old.h`: two depth-first searches of an automaton, with sleep sets and
without.

States are compared by `key`, symbols by `label`. A set of symbols is a list without duplicates; the order in which an
`unordered_set` is visited is a parameter (`SymbolOrder`), and another one in every round. Counters, output and the
chains of counter-examples are left out. The states that are taken from the frontier are recorded in `expanded`.

`perf_test` remembers the sleep set with which a state has been expanded. When it meets the state again it takes up the
symbols that were asleep then and are awake now, and remembers those that were asleep both times.

- `old_total`, `old_expanded_iff`: the search without sleep sets ends, and expands the reachable states.
-/
import Liss.Lib.Keyed
import Liss.Lib.Stack
import Liss.Lib.Worklist

namespace Liss.PerfTest

open Automaton

variable {S K L Sym : Type*} [DecidableEq K] [DecidableEq L]

/-! ## Sets of symbols -/

/-- in what order the elements are visited that have been inserted in the order of the list -/
structure SymbolOrder (Sym : Type*) where
  visit : List Sym → List Sym
  perm : ∀ l, (visit l).Perm l

section

variable (label : Sym → L)

/-- `find` -/
def contains (set : List Sym) (sigma : Sym) : Bool := label sigma ∈ set.map label

/-- `insert` -/
def insertSymbol (set : List Sym) (sigma : Sym) : List Sym :=
  if contains label set sigma then set else set ++ [sigma]

/-- `set_remove` -/
def setRemove (set other : List Sym) : List Sym := set.filter fun sigma => !contains label other sigma

/-- `set_intersect` -/
def setIntersect (set other : List Sym) : List Sym := set.filter fun sigma => contains label other sigma

end

/-! ## `perf_test` -/

/-- `frontier_item` -/
structure FrontierItem (S Sym : Type*) where
  s : S
  sleepSet : List Sym := []

/-- `seen`, and the states that have been expanded -/
structure Explored (S K Sym : Type*) where
  seen : K → Option (List Sym) := fun _ => none
  expanded : List S := []

section

variable (A : Automaton S Sym) (key : S → K) (label : Sym → L) (indep : Sym → Sym → Bool)
  (order : ℕ → SymbolOrder Sym)

/-- the loop body for a symbol: the sleep set grows, and the successors are pushed -/
def visitSymbol (s : S) (p : List Sym × List (FrontierItem S Sym)) (sigma : Sym) :
    List Sym × List (FrontierItem S Sym) :=
  let nextSleepSet := p.1.filter fun tau => indep tau sigma
  (insertSymbol label p.1 sigma, (A.succ s sigma).foldl (fun frontier state => ⟨state, nextSleepSet⟩ :: frontier) p.2)

/-- `next_symbols` and `current.sleep_set` when the loop over the symbols begins -/
def nextSymbols (seen : K → Option (List Sym)) (current : FrontierItem S Sym) : List Sym × List Sym :=
  match seen (key current.s) with
  | none => (setRemove label ((A.next current.s).foldl (insertSymbol label) []) current.sleepSet, current.sleepSet)
  | some stored => (setRemove label stored current.sleepSet, setIntersect label current.sleepSet stored)

/-- the loop body for an item of the frontier -/
def expand (b : Explored S K Sym) (current : FrontierItem S Sym) : Explored S K Sym × List (FrontierItem S Sym) :=
  let (symbols, sleepSet) := nextSymbols A key label b.seen current
  ({ seen := Function.update b.seen (key current.s) (some sleepSet), expanded := b.expanded ++ [current.s] },
    (((order b.expanded.length).visit symbols).foldl (visitSymbol A label indep current.s) (sleepSet, [])).2)

/-- `perf_test::run` -/
def run (fuel : ℕ) : Option (Explored S K Sym) :=
  Stack.run (expand A key label indep order) fuel {} (A.initial.map fun s => { s := s })

end

/-! ## `perf_test_old` -/

structure ExploredOld (S K : Type*) where
  seen : List K := []
  expanded : List S := []

section

variable (A : Automaton S Sym) (key : S → K)

/-- the loop body for a successor -/
def pushState (p : List K × List S) (state : S) : List K × List S :=
  if key state ∈ p.1 then p else (key state :: p.1, state :: p.2)

/-- the states that the loops over the symbols and their successors go through -/
def successors (s : S) : List S := (A.next s).flatMap (A.succ s)

/-- the loop body for an item of the frontier -/
def expandOld (b : ExploredOld S K) (current : S) : ExploredOld S K × List S :=
  let p := (successors A current).foldl (pushState key) (b.seen, [])
  ({ seen := p.1, expanded := b.expanded ++ [current] }, p.2)

/-- `perf_test_old::run` -/
def runOld (fuel : ℕ) : Option (ExploredOld S K) := Stack.run (expandOld A key) fuel {} A.initial

end

/-! ## The search without sleep sets -/

variable {A : Automaton S Sym} {key : S → K}

omit [DecidableEq K] in
theorem mem_successors {s t : S} : t ∈ successors A s ↔ ∃ sigma, A.Step ⟨s, sigma, t⟩ := by
  rw [successors, List.mem_flatMap]
  exact Iff.rfl

variable (key) in
/-- what the loops over the successors do -/
theorem foldl_pushState (l : List S) (p : List K × List S) :
    (∀ k, k ∈ (l.foldl (pushState key) p).1 ↔ k ∈ p.1 ∨ k ∈ l.map key) ∧
      (∀ s ∈ (l.foldl (pushState key) p).2, s ∈ p.2 ∨ s ∈ l) ∧
      (∀ s ∈ p.2, s ∈ (l.foldl (pushState key) p).2) ∧
      ∀ k ∈ (l.foldl (pushState key) p).1, k ∈ p.1 ∨ k ∈ (l.foldl (pushState key) p).2.map key := by
  induction l generalizing p with
  | nil => exact ⟨by simp, fun s hs => .inl hs, fun s hs => hs, fun k hk => .inl hk⟩
  | cons a l ih =>
    obtain ⟨h1, h2, h3, h4⟩ := ih (pushState key p a)
    rw [List.foldl_cons]
    by_cases ha : key a ∈ p.1
    · have hp : pushState key p a = p := if_pos ha
      rw [hp] at h1 h2 h3 h4 ⊢
      refine ⟨fun k => ?_, fun s hs => (h2 s hs).imp_right (List.mem_cons_of_mem a), h3, h4⟩
      rw [h1, List.map_cons, List.mem_cons]
      constructor
      · exact fun h => h.imp_right .inr
      · intro h
        rcases h with h | rfl | h
        · exact .inl h
        · exact .inl ha
        · exact .inr h
    · have hp : pushState key p a = (key a :: p.1, a :: p.2) := if_neg ha
      rw [hp] at h1 h2 h3 h4 ⊢
      refine ⟨fun k => ?_, fun s hs => ?_, fun s hs => h3 s (List.mem_cons_of_mem a hs), fun k hk => ?_⟩
      · rw [h1, List.map_cons, List.mem_cons, List.mem_cons]
        tauto
      · rcases h2 s hs with hs | hs
        · rcases List.mem_cons.1 hs with rfl | hs
          · exact .inr List.mem_cons_self
          · exact .inl hs
        · exact .inr (List.mem_cons_of_mem a hs)
      · rcases h4 k hk with hk | hk
        · rcases List.mem_cons.1 hk with rfl | hk
          · exact .inr (List.mem_map_of_mem (h3 a List.mem_cons_self))
          · exact .inl hk
        · exact .inr hk

/-- the invariant of the loop -/
structure SearchedOld (A : Automaton S Sym) (key : S → K) (b : ExploredOld S K) (frontier : List S) : Prop where
  pending : ∀ s ∈ frontier, A.Reachable s
  expanded : ∀ s ∈ b.expanded, A.Reachable s
  initial : ∀ s ∈ A.initial, s ∈ b.expanded ∨ s ∈ frontier
  seen : ∀ k ∈ b.seen, k ∈ b.expanded.map key ∨ k ∈ frontier.map key
  closed : ∀ s ∈ b.expanded, ∀ t ∈ successors A s, key t ∈ b.seen

omit [DecidableEq K] in
theorem searchedOld_start : SearchedOld A key {} A.initial :=
  ⟨fun s hs => .initial hs, by simp, fun s hs => .inr hs, by simp, by simp⟩

theorem searchedOld_step (b : ExploredOld S K) (current : S) (frontier : List S)
    (h : SearchedOld A key b (current :: frontier)) :
    SearchedOld A key (expandOld A key b current).1 ((expandOld A key b current).2 ++ frontier) := by
  obtain ⟨h1, h2, h3, h4⟩ := foldl_pushState key (successors A current) (b.seen, [])
  have hcurrent := h.pending current List.mem_cons_self
  have hmem : ∀ {s}, s ∈ (expandOld A key b current).1.expanded ↔ s ∈ b.expanded ∨ s = current := by
    intro s
    rw [expandOld, List.mem_append, List.mem_singleton]
  refine ⟨fun s hs => ?_, fun s hs => ?_, fun s hs => ?_, fun k hk => ?_, fun s hs t ht => ?_⟩
  · rcases List.mem_append.1 hs with hs | hs
    · obtain ⟨sigma, hstep⟩ := mem_successors.1 ((h2 s hs).resolve_left (by simp))
      exact hcurrent.step hstep
    · exact h.pending s (List.mem_cons_of_mem current hs)
  · rcases hmem.1 hs with hs | rfl
    · exact h.expanded s hs
    · exact hcurrent
  · rcases h.initial s hs with hs | hs
    · exact .inl (hmem.2 (.inl hs))
    · rcases List.mem_cons.1 hs with rfl | hs
      · exact .inl (hmem.2 (.inr rfl))
      · exact .inr (List.mem_append_right _ hs)
  · rcases h4 k hk with hk | hk
    · rcases h.seen k hk with hk | hk
      · obtain ⟨s, hs, rfl⟩ := List.mem_map.1 hk
        exact .inl (List.mem_map_of_mem (hmem.2 (.inl hs)))
      · rcases List.mem_cons.1 hk with rfl | hk
        · exact .inl (List.mem_map_of_mem (hmem.2 (.inr rfl)))
        · rw [List.map_append]
          exact .inr (List.mem_append_right _ hk)
    · rw [List.map_append]
      exact .inr (List.mem_append_left _ hk)
  · rcases hmem.1 hs with hs | rfl
    · exact (h1 _).2 (.inl (h.closed s hs t ht))
    · exact (h1 _).2 (.inr (List.mem_map_of_mem ht))

/-- a round that pushes something sees something new -/
theorem expandOld_measure {univ : List K} (huniv : ∀ s, A.Reachable s → key s ∈ univ) (b : ExploredOld S K)
    {current : S} (hcurrent : A.Reachable current) :
    Worklist.unseen univ (expandOld A key b current).1.seen < Worklist.unseen univ b.seen ∨
      Worklist.unseen univ (expandOld A key b current).1.seen ≤ Worklist.unseen univ b.seen ∧
        (expandOld A key b current).2 = [] := by
  have hall : ∀ (l : List S) (p : List K × List S), (∀ s ∈ l, key s ∈ univ) →
      Worklist.unseen univ (l.foldl (pushState key) p).1 < Worklist.unseen univ p.1 ∨
        l.foldl (pushState key) p = p := by
    intro l
    induction l with
    | nil => exact fun p _ => .inr rfl
    | cons a l ih =>
      intro p hl
      rw [List.foldl_cons]
      have hrest := ih (pushState key p a) fun s hs => hl s (List.mem_cons_of_mem a hs)
      by_cases ha : key a ∈ p.1
      · have hp : pushState key p a = p := if_pos ha
        rw [hp] at hrest ⊢
        exact hrest
      · have hp : pushState key p a = (key a :: p.1, a :: p.2) := if_neg ha
        rw [hp] at hrest ⊢
        have hlt := Worklist.unseen_lt (hl a List.mem_cons_self) ha
        rcases hrest with hrest | hrest
        · exact .inl (hrest.trans hlt)
        · rw [hrest]
          exact .inl hlt
  have hsucc : ∀ s ∈ successors A current, key s ∈ univ := by
    intro s hs
    obtain ⟨sigma, hstep⟩ := mem_successors.1 hs
    exact huniv s (hcurrent.step hstep)
  rcases hall (successors A current) (b.seen, []) hsucc with hlt | heq
  · exact .inl hlt
  · refine .inr ⟨?_, ?_⟩
    · rw [expandOld, heq]
    · rw [expandOld, heq]

/-- **The search without sleep sets ends.** -/
theorem old_total (hfin : A.FiniteKeys key) : ∃ bound, ∀ fuel ≥ bound, ∃ r, runOld A key fuel = some r := by
  obtain ⟨univ, huniv⟩ := hfin.exists_list
  apply Stack.run_total (SearchedOld A key) (fun b => Worklist.unseen univ b.seen) ?_ searchedOld_start
  intro b current frontier h
  exact ⟨searchedOld_step b current frontier h, expandOld_measure huniv b (h.pending current List.mem_cons_self)⟩

/-- **It expands the reachable states.** -/
theorem old_expanded_iff (hr : A.Respects key) {fuel : ℕ} {r : ExploredOld S K} (h : runOld A key fuel = some r)
    (k : K) : k ∈ r.expanded.map key ↔ ∃ s, A.Reachable s ∧ key s = k := by
  have hi : SearchedOld A key r [] := Stack.run_inv (SearchedOld A key) searchedOld_step searchedOld_start h
  constructor
  · intro hk
    obtain ⟨s, hs, rfl⟩ := List.mem_map.1 hk
    exact ⟨s, hi.expanded s hs, rfl⟩
  · intro hk
    obtain ⟨s, hs, rfl⟩ := hk
    apply hr.closed (R := fun k => k ∈ r.expanded.map key) ?_ ?_ hs
    · intro s hs
      exact List.mem_map_of_mem ((hi.initial s hs).resolve_right (by simp))
    · intro k hk
      obtain ⟨s, hs, rfl⟩ := List.mem_map.1 hk
      refine ⟨s, rfl, fun t ht hsrc => ?_⟩
      have hmem : t.dst ∈ successors A s := by
        rw [← hsrc]
        exact mem_successors.2 ⟨t.sym, ht⟩
      exact (hi.seen _ (hi.closed s hs t.dst hmem)).resolve_right (by simp)

end Liss.PerfTest
