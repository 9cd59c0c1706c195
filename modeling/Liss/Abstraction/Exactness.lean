/-
Compression is exact: the compressed automaton is a copy of the reachable part of the automaton it is made from, with
states and symbols renamed to the integers below their numbers.

- `Exact`: what "copy" means;
- `Explored.exact`: the tables that the main loop ends with are exact;
- `compresses`: the construction ends, and its result is exact, when the reachable states fit into 32 bits and the
  symbols into 16;
- `not_compresses`: no copy has more states, nor the successors under symbols that a state does not offer.
-/
import Liss.Abstraction.Compression

set_option linter.unusedSectionVars false

namespace Liss

open Liss.Numbering Automaton

namespace Compression

variable {S K Sym : Type*}

/-- the successors under a symbol that the state offers -/
def offered [DecidableEq Sym] (A : Automaton S Sym) (s : S) (x : Sym) : List S :=
  if x ∈ A.next s then A.succ s x else []

/-- `c` is the reachable part of `A` with the states renamed by `f` and the symbols by `g`; `succ` gives the successors
that are compared -/
structure Exact (A : Automaton S Sym) (key : S → K) (isEpsilon : Sym → Bool) (table : List Sym)
    (succ : S → Sym → List S) (c : CompressedAutomaton Sym) (f : K → ComState) (g : Sym → ComSymbol) : Prop where
  states : Set.BijOn f (Set.image key {s | A.Reachable s}) {i | i.toNat < c.transitions.length}
  symbols : Set.BijOn g (symbolsSeen A table) {i | i.toNat < c.symbolTranslation.length}
  translation : ∀ x ∈ symbolsSeen A table, c.symbolTranslation[(g x).toNat]? = some x
  tablePrefix : table <+: c.symbolTranslation
  initial : c.intInitialStates = A.initial.map fun s => f (key s)
  final : ∀ s, A.Reachable s → c.intIsFinalState (f (key s)) = A.final s
  epsilon : ∀ x ∈ symbolsSeen A table, c.intIsEpsilon (g x) = isEpsilon x
  successors : ∀ s, A.Reachable s → ∀ x ∈ symbolsSeen A table, ∀ i,
    i ∈ c.intSuccessors (f (key s)) (g x) ↔ ∃ t ∈ succ s x, f (key t) = i
  next : ∀ s, A.Reachable s → ∀ y, y ∈ c.intNextSymbols (f (key s)) ↔ ∃ x ∈ A.next s, A.succ s x ≠ [] ∧ y = g x
  listed : ∀ i, ∀ y ∈ c.intNextSymbols i, c.intSuccessors i y ≠ []
  accepts : ∀ v, c.automaton.Accepts v ↔ ∃ w, A.Accepts w ∧ w.map g = v

variable [DecidableEq K] [DecidableEq Sym]

/-- the construction ends, with an exact automaton whose symbol table can be used again -/
def Compresses (A : Automaton S Sym) (key : S → K) (isEpsilon : Sym → Bool) (queue : FrontierQueue S)
    (concurrent : CompressedAutomaton Sym) (succ : S → Sym → List S) : Prop :=
  ∃ c, (∃ bound, ∀ fuel, bound ≤ fuel → fromConcurrentAutomaton A key isEpsilon queue concurrent fuel = some c) ∧
    TableOk isEpsilon c ∧ ∃ f g, Exact A key isEpsilon concurrent.symbolTranslation succ c f g

variable {A : Automaton S Sym} {key : S → K} {isEpsilon : Sym → Bool} {table : List Sym} {b : Compression S K Sym}

/-! ## The final tables -/

/-- a row does not depend on the state that stands for the key -/
theorem RowOk.of_key (hres : A.Respects key) {s t : S} (hkey : key s = key t) {xs : List Sym}
    (h : RowOk A key b s xs) : RowOk A key b t xs := by
  have hmap : ∀ x, ((A.succ s x).map fun u => b.stateId (key u)) = (A.succ t x).map fun u => b.stateId (key u) := by
    intro x
    have := congrArg (List.map b.stateId) (hres.succ s t hkey x)
    rwa [List.map_map, List.map_map] at this
  have hnil : ∀ x, A.succ s x = [] ↔ A.succ t x = [] := by
    intro x
    rw [← List.map_eq_nil_iff (f := key), hres.succ s t hkey x, List.map_eq_nil_iff]
  refine ⟨h.known, fun x hx u hu => ?_, fun y l => ?_⟩
  · have hmem : key u ∈ (A.succ s x).map key := by
      rw [hres.succ s t hkey x]
      exact List.mem_map_of_mem hu
    obtain ⟨u', hu', heq⟩ := List.mem_map.1 hmem
    exact heq ▸ h.closed x hx u' hu'
  · rw [← hkey, h.mem]
    simp only [hmap, ne_eq, hnil]

section Final

variable (h : Explored A key isEpsilon table b) (hres : A.Respects key) (hend : b.frontier = [])
include h hres hend

theorem Explored.met {s : S} (hs : A.Reachable s) : key s ∈ b.keys := by
  refine hres.closed (R := fun k => k ∈ b.keys) h.initialMet (fun k hk => ?_) hs
  rcases h.done k hk with ⟨t, ht, -⟩ | ⟨t, rfl, -, hrow, -⟩
  · rw [hend] at ht
    exact absurd ht List.not_mem_nil
  · refine ⟨t, rfl, ?_⟩
    rintro ⟨src, x, u⟩ ⟨hx, hu⟩ rfl
    exact hrow.closed x hx u hu

/-- every reachable state has its row and its flag -/
theorem Explored.row {s : S} (hs : A.Reachable s) :
    RowOk A key b s (A.next s) ∧ b.finalOf (key s) = A.final s := by
  rcases h.done _ (h.met hres hend hs) with ⟨t, ht, -⟩ | ⟨t, hkey, -, hrow, hfinal⟩
  · rw [hend] at ht
    exact absurd ht List.not_mem_nil
  · rw [hfinal, hres.final t s hkey, ← hres.next t s hkey]
    exact ⟨hrow.of_key hres hkey, rfl⟩

theorem Explored.mem_symbols {x : Sym} : x ∈ symbolsSeen A table ↔ x ∈ b.result.symbolTranslation := by
  constructor
  · rintro (hx | ⟨s, hs, hx⟩)
    · exact h.table.subset hx
    · exact (h.row hres hend hs).1.known x hx
  · exact h.symbols x

theorem Explored.mem_keys {k : K} : k ∈ Set.image key {s | A.Reachable s} ↔ k ∈ b.keys := by
  constructor
  · rintro ⟨s, hs, rfl⟩
    exact h.met hres hend hs
  · intro hk
    obtain ⟨s, hs, rfl⟩ := h.reachable k hk
    exact ⟨s, hs, rfl⟩

variable (hfits : Fits A key table)
include hfits

theorem Explored.row_stateId {s : S} (hs : A.Reachable s) : b.result.row (b.stateId (key s)) = b.rowOf (key s) := by
  rw [CompressedAutomaton.row, h.toNat_stateId hfits (h.met hres hend hs)]
  rfl

/-- the successors of the compressed automaton are the successors under offered symbols, in order -/
theorem Explored.intSuccessors_eq {s : S} (hs : A.Reachable s) {x : Sym} (hx : x ∈ b.result.symbolTranslation) :
    b.result.intSuccessors (b.stateId (key s)) (b.symbolId x) =
      (offered A s x).map fun t => b.stateId (key t) := by
  have hrow := (h.row hres hend hs).1
  have hinj : ∀ x' ∈ A.next s, b.symbolId x = b.symbolId x' → x = x' := fun x' hx' heq =>
    faithful_uint16.injective (h.symbols_le hfits) hx (hrow.known x' hx') heq
  rw [CompressedAutomaton.intSuccessors, h.row_stateId hres hend hfits hs, offered]
  by_cases hoff : x ∈ A.next s ∧ A.succ s x ≠ []
  · have hentry := (hrow.mem _ _).2 ⟨x, hoff.1, hoff.2, rfl, rfl⟩
    rw [if_pos hoff.1, lookup_eq_of_mem hentry, Option.getD_some]
    intro l' hl'
    obtain ⟨x', hx', -, heq, rfl⟩ := (hrow.mem _ _).1 hl'
    rw [hinj x' hx' heq]
  · have hnone : (b.rowOf (key s)).lookup (b.symbolId x) = none := by
      rw [Option.eq_none_iff_forall_ne_some]
      intro l' hl'
      obtain ⟨x', hx', hne, heq, -⟩ := (hrow.mem _ _).1 (mem_of_lookup hl')
      obtain rfl := hinj x' hx' heq
      exact hoff ⟨hx', hne⟩
    rw [hnone, Option.getD_none]
    split_ifs with hnext
    · rw [not_and_not_right.1 hoff hnext, List.map_nil]
    · rfl

theorem Explored.mem_intNextSymbols {s : S} (hs : A.Reachable s) {y : ComSymbol} :
    y ∈ b.result.intNextSymbols (b.stateId (key s)) ↔ ∃ x ∈ A.next s, A.succ s x ≠ [] ∧ y = b.symbolId x := by
  have hrow := (h.row hres hend hs).1
  rw [CompressedAutomaton.intNextSymbols, h.successorFilter, h.row_stateId hres hend hfits hs]
  simp only [List.isEmpty_nil, Bool.true_or, List.filter_true, List.mem_map, Prod.exists, exists_and_right,
    exists_eq_right, hrow.mem]
  constructor
  · rintro ⟨l, x, hx, hne, rfl, -⟩
    exact ⟨x, hx, hne, rfl⟩
  · rintro ⟨x, hx, hne, rfl⟩
    exact ⟨_, x, hx, hne, rfl, rfl⟩

/-- a state that lists a symbol is one of the table -/
theorem Explored.listed {i : ComState} {y : ComSymbol} (hy : y ∈ b.result.intNextSymbols i) :
    b.result.intSuccessors i y ≠ [] := by
  by_cases hi : i.toNat < b.keys.length
  · obtain ⟨k, hk, rfl⟩ := (faithful_uint32.range (h.keys_le hfits) h.keysNodup i).2 hi
    obtain ⟨s, hs, rfl⟩ := h.reachable k hk
    obtain ⟨x, hx, hne, rfl⟩ := (h.mem_intNextSymbols hres hend hfits hs).1 hy
    have heq := h.intSuccessors_eq hres hend hfits hs ((h.row hres hend hs).1.known x hx)
    rw [offered, if_pos hx] at heq
    exact fun hnil => hne (List.map_eq_nil_iff.1 (heq.symm.trans hnil))
  · have hrow : b.result.row i = [] := by
      rw [CompressedAutomaton.row, List.getD_eq_getElem?_getD, List.getElem?_eq_none (by rw [h.transitions]; omega),
        Option.getD_none]
    rw [CompressedAutomaton.intNextSymbols, hrow] at hy
    exact absurd hy List.not_mem_nil

/-- the words of the compressed automaton are the renamed words -/
theorem Explored.accepts (v : List ComSymbol) :
    b.result.automaton.Accepts v ↔ ∃ w, A.Accepts w ∧ w.map b.symbolId = v := by
  have hinit : b.result.automaton.initial = A.initial.map fun s => b.stateId (key s) := h.initialStates
  have hfinal : ∀ s, A.Reachable s → b.result.automaton.final (b.stateId (key s)) = A.final s := by
    intro s hs
    rw [← (h.row hres hend hs).2, finalOf, ← h.toNat_stateId hfits (h.met hres hend hs)]
    rfl
  have hforth : ∀ t, A.Step t → A.Reachable t.src → A.Reachable t.dst ∧
      b.result.automaton.Step ⟨b.stateId (key t.src), b.symbolId t.sym, b.stateId (key t.dst)⟩ := by
    intro t ht hs
    have hx := (h.row hres hend hs).1.known t.sym ht.1
    have hne : A.succ t.src t.sym ≠ [] := List.ne_nil_of_mem ht.2
    refine ⟨hs.step ht, (h.mem_intNextSymbols hres hend hfits hs).2 ⟨t.sym, ht.1, hne, rfl⟩, ?_⟩
    show b.stateId (key t.dst) ∈ b.result.intSuccessors _ _
    rw [h.intSuccessors_eq hres hend hfits hs hx, offered, if_pos ht.1]
    exact List.mem_map_of_mem ht.2
  have hback : ∀ s, A.Reachable s → ∀ t', b.result.automaton.Step t' → t'.src = b.stateId (key s) →
      ∃ t, A.Step t ∧ t.src = s ∧ t'.sym = b.symbolId t.sym ∧ t'.dst = b.stateId (key t.dst) ∧ A.Reachable t.dst := by
    rintro s hs ⟨src, y, i⟩ ⟨hy, hi⟩ rfl
    obtain ⟨x, hx, -, rfl⟩ := (h.mem_intNextSymbols hres hend hfits hs).1 hy
    have hi' : i ∈ b.result.intSuccessors (b.stateId (key s)) (b.symbolId x) := hi
    rw [h.intSuccessors_eq hres hend hfits hs ((h.row hres hend hs).1.known x hx), offered, if_pos hx] at hi'
    obtain ⟨u, hu, rfl⟩ := List.mem_map.1 hi'
    exact ⟨⟨s, x, u⟩, ⟨hx, hu⟩, rfl, rfl, rfl, hs.step (t := ⟨s, x, u⟩) ⟨hx, hu⟩⟩
  constructor
  · rintro ⟨r', i, ⟨i0, hi0, hp⟩, hfin, rfl⟩
    rw [hinit] at hi0
    obtain ⟨s, hs, rfl⟩ := List.mem_map.1 hi0
    obtain ⟨r, u, hpath, hu, rfl, hw⟩ := Path.unrename hback hp (Reachable.initial hs) rfl
    rw [hfinal u hu] at hfin
    exact ⟨word r, ⟨r, u, ⟨s, hs, hpath⟩, hfin, rfl⟩, hw.symm⟩
  · rintro ⟨w, ⟨r, u, ⟨s, hs, hp⟩, hfin, rfl⟩, rfl⟩
    obtain ⟨hu, r', hp', hw⟩ := Path.rename (f := fun s => b.stateId (key s)) hforth hp (Reachable.initial hs)
    rw [← hfinal u hu] at hfin
    refine ⟨r', _, ⟨_, ?_, hp'⟩, hfin, hw⟩
    rw [hinit]
    exact List.mem_map_of_mem hs

/-- **The tables at the end are exact.** -/
theorem Explored.exact :
    Exact A key isEpsilon table (offered A) b.result b.stateId b.symbolId where
  states := by
    refine ⟨fun k hk => ?_, fun k hk k' hk' heq => ?_, fun i hi => ?_⟩
    · rw [h.mem_keys hres hend] at hk
      rw [Set.mem_ofPred_eq, h.toNat_stateId hfits hk, h.transitions]
      exact List.idxOf_lt_length_of_mem hk
    · rw [h.mem_keys hres hend] at hk hk'
      exact faithful_uint32.injective (h.keys_le hfits) hk hk' heq
    · rw [Set.mem_ofPred_eq, h.transitions] at hi
      obtain ⟨k, hk, rfl⟩ := (faithful_uint32.range (h.keys_le hfits) h.keysNodup i).2 hi
      exact ⟨k, (h.mem_keys hres hend).2 hk, rfl⟩
  symbols := by
    refine ⟨fun x hx => ?_, fun x hx x' hx' heq => ?_, fun i hi => ?_⟩
    · rw [h.mem_symbols hres hend] at hx
      rw [Set.mem_ofPred_eq, h.toNat_symbolId hfits hx]
      exact List.idxOf_lt_length_of_mem hx
    · rw [h.mem_symbols hres hend] at hx hx'
      exact faithful_uint16.injective (h.symbols_le hfits) hx hx' heq
    · obtain ⟨x, hx, rfl⟩ := (faithful_uint16.range (h.symbols_le hfits) h.symbolsNodup i).2 hi
      exact ⟨x, (h.mem_symbols hres hend).2 hx, rfl⟩
  translation x hx := by
    rw [h.mem_symbols hres hend] at hx
    rw [h.toNat_symbolId hfits hx, List.getElem?_idxOf hx]
  tablePrefix := h.table
  initial := h.initialStates
  final s hs := by
    rw [← (h.row hres hend hs).2, finalOf, ← h.toNat_stateId hfits (h.met hres hend hs)]
    rfl
  epsilon x hx := by
    rw [h.mem_symbols hres hend] at hx
    rw [CompressedAutomaton.intIsEpsilon, h.epsilon, h.toNat_symbolId hfits hx, List.getD_eq_getElem?_getD,
      List.getElem?_map, List.getElem?_idxOf hx]
    rfl
  successors s hs x hx i := by
    rw [h.mem_symbols hres hend] at hx
    rw [h.intSuccessors_eq hres hend hfits hs hx, List.mem_map]
  next s hs y := h.mem_intNextSymbols hres hend hfits hs
  listed i y hy := h.listed hres hend hfits hy
  accepts := h.accepts hres hend hfits

end Final

/-- **Compression is exact.** For an automaton with at most 2^32 reachable states, fewer than 2^16 symbols and distinct
initial states the construction ends with an exact automaton, whichever order the queue has; `concurrent` is an empty
automaton or another compressed one. -/
theorem compresses (A : Automaton S Sym) (key : S → K) (isEpsilon : Sym → Bool) (queue : FrontierQueue S)
    (concurrent : CompressedAutomaton Sym) (hres : A.Respects key) (hinit : (A.initial.map key).Nodup)
    (hstates : (Set.image key {s | A.Reachable s}).encard ≤ (2 ^ 32 : ℕ))
    (hsymbols : (symbolsSeen A concurrent.symbolTranslation).encard < (2 ^ 16 : ℕ))
    (htable : TableOk isEpsilon concurrent) : Compresses A key isEpsilon queue concurrent (offered A) := by
  have hfits := fits_of_encard hstates hsymbols
  have hstart := started_initial htable A.initial (fun s hs => Reachable.initial hs) hinit
  obtain ⟨b, bound, hrun, hb, hend⟩ := explore_spec queue hfits _ hstart.explored rfl
  refine ⟨b.result, ⟨bound, fun fuel hfuel => ?_⟩, ⟨hb.symbolsNodup, hb.epsilon⟩, b.stateId, b.symbolId,
    hb.exact hres hend hfits⟩
  rw [fromConcurrentAutomaton, hrun fuel hfuel]
  rfl

/-- two states, of which the second has a successor under a symbol that it does not offer -/
def looseEnd : Automaton Bool Unit where
  initial := [false]
  next s := if s then [] else [()]
  succ s _ := [!s]
  final s := s

theorem encard_le_two (T : Set Bool) : T.encard ≤ (2 ^ 32 : ℕ) := by
  calc T.encard ≤ (Set.univ : Set Bool).encard := Set.encard_le_encard (Set.subset_univ T)
    _ = (2 : ℕ) := by rw [Set.encard_univ, ENat.card_eq_coe_fintype_card, Fintype.card_bool]
    _ ≤ (2 ^ 32 : ℕ) := by norm_num

theorem encard_unit (T : Set Unit) : T.encard < (2 ^ 16 : ℕ) := by
  calc T.encard ≤ (Set.univ : Set Unit).encard := Set.encard_le_encard (Set.subset_univ T)
    _ = (1 : ℕ) := by simp
    _ < (2 ^ 16 : ℕ) := by norm_num

theorem tableOk_empty (isEpsilon : Sym → Bool) : TableOk isEpsilon ({} : CompressedAutomaton Sym) :=
  ⟨List.nodup_nil, rfl⟩

theorem looseEnd_compresses :
    Compresses looseEnd id (fun _ => false) (FrontierQueue.ofReward fun _ => 0) {} (offered looseEnd) :=
  compresses looseEnd id (fun _ => false) (FrontierQueue.ofReward fun _ => 0) {} (respects_id looseEnd)
    (List.nodup_singleton _) (encard_le_two _) (encard_unit _) (tableOk_empty _)

/-! ## Where a copy is impossible -/

/-- what `looseEnd` is compressed to -/
theorem looseEnd_run (fuel : ℕ) :
    fromConcurrentAutomaton looseEnd id (fun _ => false) (FrontierQueue.ofReward fun _ => 0) {} (fuel + 3) =
      some { initialStates := [0], final := [false, true], epsilon := [false], symbolTranslation := [()],
             transitions := [[(0, [1])], []], symbolMap := [((), 0)] } := rfl

/-- the compressed automaton has no successor under a symbol that is not offered -/
theorem looseEnd_not_compresses :
    ¬Compresses looseEnd id (fun _ => false) (FrontierQueue.ofReward fun _ => 0) {} looseEnd.succ := by
  rintro ⟨c, ⟨bound, hrun⟩, -, f, g, hex⟩
  have hc := (looseEnd_run bound).symm.trans (hrun (bound + 3) (by omega))
  have hfalse : looseEnd.Reachable false := Reachable.initial (List.mem_singleton_self _)
  have htrue : looseEnd.Reachable true := hfalse.step (t := ⟨false, (), true⟩) ⟨List.mem_singleton_self _,
    List.mem_singleton_self _⟩
  have hmem : f false ∈ c.intSuccessors (f true) (g ()) :=
    (hex.successors true htrue () (.inr ⟨false, hfalse, List.mem_singleton_self _⟩) _).2
      ⟨false, List.mem_singleton_self _, rfl⟩
  have hlt : (f true).toNat < c.transitions.length := hex.states.mapsTo ⟨true, htrue, rfl⟩
  have hne : f true ≠ f false := by
    intro heq
    exact absurd (hex.states.injOn ⟨true, htrue, rfl⟩ ⟨false, hfalse, rfl⟩ heq) (by simp)
  have hinit : c.intInitialStates = [f false] := hex.initial
  obtain rfl := Option.some.inj hc
  have hzero : f false = 0 := (List.singleton_inj.1 hinit).symm
  have hone : (f true).toNat = 1 := by
    have h0 : (f true).toNat ≠ 0 := fun h => hne (hzero ▸ UInt32.toNat_inj.1 h)
    have h2 : (f true).toNat < 2 := hlt
    omega
  rw [CompressedAutomaton.intSuccessors, CompressedAutomaton.row, hone] at hmem
  exact absurd hmem List.not_mem_nil

/-- `n` initial states -/
def manyStates (n : ℕ) : Automaton ℕ Unit where
  initial := List.range n
  next _ := []
  succ _ _ := []
  final _ := false

theorem manyStates_reachable {n i : ℕ} : (manyStates n).Reachable i ↔ i < n := by
  constructor
  · intro h
    refine Reachable.inv (I := fun i => i < n) (fun i hi => List.mem_range.1 hi) (fun t ht => ?_) h
    exact absurd ht.1 List.not_mem_nil
  · exact fun h => Reachable.initial (List.mem_range.2 h)

theorem manyStates_finite (n : ℕ) : (manyStates n).FiniteKeys id := by
  refine Set.Finite.subset (Set.finite_lt_nat n) ?_
  rintro _ ⟨i, hi, rfl⟩
  exact manyStates_reachable.1 hi

theorem manyStates_nodup (n : ℕ) : ((manyStates n).initial.map id).Nodup := by
  rw [List.map_id]
  exact List.nodup_range

/-- there are not enough numbers for the states -/
theorem manyStates_not_compresses {n : ℕ} (hn : 2 ^ 32 < n) :
    ¬Compresses (manyStates n) id (fun _ => false) (FrontierQueue.ofReward fun _ => 0) {} (manyStates n).succ := by
  rintro ⟨c, -, -, f, g, hex⟩
  have hmaps : ∀ i ∈ Finset.range n, (f i).toNat ∈ Finset.range (2 ^ 32) :=
    fun i _ => Finset.mem_range.2 (f i).toNat_lt
  obtain ⟨i, hi, j, hj, hne, heq⟩ := Finset.exists_ne_map_eq_of_card_lt_of_maps_to
    (by rw [Finset.card_range, Finset.card_range]; exact hn) hmaps
  have hreach : ∀ i ∈ Finset.range n, i ∈ Set.image id {i | (manyStates n).Reachable i} :=
    fun i hi => ⟨i, manyStates_reachable.2 (Finset.mem_range.1 hi), rfl⟩
  exact hne (hex.states.injOn (hreach i hi) (hreach j hj) (UInt32.toNat_inj.1 heq))

/-- both automata are finite, with distinct initial states and a single symbol -/
theorem not_compresses :
    ((manyStates (2 ^ 32 + 1)).FiniteKeys id ∧ ((manyStates (2 ^ 32 + 1)).initial.map id).Nodup ∧
      (symbolsSeen (manyStates (2 ^ 32 + 1)) []).encard < (2 ^ 16 : ℕ) ∧
      ¬Compresses (manyStates (2 ^ 32 + 1)) id (fun _ => false) (FrontierQueue.ofReward fun _ => 0) {}
        (manyStates (2 ^ 32 + 1)).succ) ∧
    (looseEnd.FiniteKeys id ∧ (looseEnd.initial.map id).Nodup ∧ (symbolsSeen looseEnd []).encard < (2 ^ 16 : ℕ) ∧
      ¬Compresses looseEnd id (fun _ => false) (FrontierQueue.ofReward fun _ => 0) {} looseEnd.succ) :=
  ⟨⟨manyStates_finite _, manyStates_nodup _, encard_unit _, manyStates_not_compresses (Nat.lt_succ_self _)⟩,
    ⟨Set.toFinite _, List.nodup_singleton _, encard_unit _, looseEnd_not_compresses⟩⟩

end Compression

end Liss
