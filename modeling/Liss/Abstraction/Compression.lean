/-
The construction of the compressed automaton. Its tables are numberings of the keys and of the symbols met so far, grown
at different moments: `Aligned` says that they agree after every operation, `Grown` that an operation only appends to
them, and `Explored` that every state which has left the frontier has its row.

- `visitSymbol_spec`, `visit_spec`: one symbol, one state;
- `explore_spec`: the loop ends, with all states explored.
-/
import Liss.Abstraction.CompressedAutomaton

set_option linter.unusedSectionVars false

namespace Liss

open Liss.Numbering Automaton

namespace Compression

variable {S K Sym : Type*}

/-- the keys of the states met so far, in the order of their identifiers -/
def keys (b : Compression S K Sym) : List K := b.states.map Prod.fst

/-- the symbols that have an identifier: those of the table given, and those that a reachable state offers -/
def symbolsSeen (A : Automaton S Sym) (table : List Sym) : Set Sym :=
  {x | x ∈ table ∨ ∃ s, A.Reachable s ∧ x ∈ A.next s}

/-- the integers are wide enough -/
structure Fits (A : Automaton S Sym) (key : S → K) (table : List Sym) : Prop where
  states : ∀ l : List K, l.Nodup → (∀ k ∈ l, ∃ s, A.Reachable s ∧ key s = k) → l.length ≤ 2 ^ 32
  symbols : ∀ l : List Sym, l.Nodup → (∀ x ∈ l, x ∈ symbolsSeen A table) → l.length ≤ 2 ^ 16

theorem length_le_of_encard {α : Type*} {l : List α} {T : Set α} {n : ℕ} (hl : l.Nodup) (hsub : ∀ a ∈ l, a ∈ T)
    (hT : T.encard ≤ n) : l.length ≤ n := by
  classical
  have hsubset : (l.toFinset : Set α) ⊆ T := by
    intro a ha
    exact hsub a (by simpa using ha)
  have hcard : ((l.toFinset.card : ℕ) : ℕ∞) ≤ n :=
    calc ((l.toFinset.card : ℕ) : ℕ∞) = (l.toFinset : Set α).encard := (Set.encard_coe_eq_coe_finsetCard _).symm
      _ ≤ T.encard := Set.encard_le_encard hsubset
      _ ≤ n := hT
  rw [← List.toFinset_card_of_nodup hl]
  exact_mod_cast hcard

theorem fits_of_encard {A : Automaton S Sym} {key : S → K} {table : List Sym}
    (hstates : (Set.image key {s | A.Reachable s}).encard ≤ (2 ^ 32 : ℕ))
    (hsymbols : (symbolsSeen A table).encard < (2 ^ 16 : ℕ)) : Fits A key table := by
  refine ⟨fun l hl hsub => length_le_of_encard hl (fun k hk => ?_) hstates, fun l hl hsub => ?_⟩
  · obtain ⟨s, hs, rfl⟩ := hsub k hk
    exact ⟨s, hs, rfl⟩
  · exact length_le_of_encard hl hsub hsymbols.le

variable [DecidableEq K] [DecidableEq Sym]

def stateId (b : Compression S K Sym) (k : K) : ComState := position UInt32.ofNat b.keys k

def symbolId (b : Compression S K Sym) (x : Sym) : ComSymbol := position UInt16.ofNat b.result.symbolTranslation x

/-- the row of a state -/
def rowOf (b : Compression S K Sym) (k : K) : List (ComSymbol × List ComState) :=
  b.result.transitions.getD (b.keys.idxOf k) []

/-- the flag of a state -/
def finalOf (b : Compression S K Sym) (k : K) : Bool := b.result.final.getD (b.keys.idxOf k) false

/-- the tables agree -/
structure Aligned (A : Automaton S Sym) (key : S → K) (isEpsilon : Sym → Bool) (table : List Sym)
    (b : Compression S K Sym) : Prop where
  states : b.states = numbered UInt32.ofNat b.keys
  keysNodup : b.keys.Nodup
  reachable : ∀ k ∈ b.keys, ∃ s, A.Reachable s ∧ key s = k
  final : b.result.final.length = b.keys.length
  transitions : b.result.transitions.length = b.keys.length
  symbolMap : b.result.symbolMap = numbered UInt16.ofNat b.result.symbolTranslation
  symbolsNodup : b.result.symbolTranslation.Nodup
  symbols : ∀ x ∈ b.result.symbolTranslation, x ∈ symbolsSeen A table
  table : table <+: b.result.symbolTranslation
  epsilon : b.result.epsilon = b.result.symbolTranslation.map isEpsilon
  seen : ∀ k, k ∈ b.seen ↔ k ∈ b.keys
  frontier : ∀ s ∈ b.frontier, A.Reachable s ∧ key s ∈ b.keys
  frontierNodup : (b.frontier.map key).Nodup
  successorFilter : b.result.successorFilter = []

/-- what an operation leaves as it is: the tables grow at their ends, and of the rows at most that of `touched`
changes -/
structure Grown (key : S → K) (touched : Option K) (b b' : Compression S K Sym) : Prop where
  keys : b.keys <+: b'.keys
  symbols : b.result.symbolTranslation <+: b'.result.symbolTranslation
  initialStates : b'.result.initialStates = b.result.initialStates
  row : ∀ i, (∀ k, touched = some k → i ≠ b.keys.idxOf k) →
    b'.result.transitions.getD i [] = b.result.transitions.getD i []
  final : ∀ i, b'.result.final.getD i false = b.result.final.getD i false
  waiting : ∀ s ∈ b.frontier, s ∈ b'.frontier
  frontier : ∀ s ∈ b'.frontier, s ∈ b.frontier ∨ key s ∉ b.keys
  pushed : ∀ k ∈ b'.keys, k ∈ b.keys ∨ ∃ s ∈ b'.frontier, key s = k
  count : b'.frontier.length + b.keys.length = b.frontier.length + b'.keys.length

variable {A : Automaton S Sym} {key : S → K} {isEpsilon : Sym → Bool} {table : List Sym}
  {b b' b'' : Compression S K Sym} {touched : Option K}

namespace Aligned

theorem keys_le (h : Aligned A key isEpsilon table b) (hfits : Fits A key table) : b.keys.length ≤ 2 ^ 32 :=
  hfits.states _ h.keysNodup h.reachable

theorem symbols_le (h : Aligned A key isEpsilon table b) (hfits : Fits A key table) :
    b.result.symbolTranslation.length ≤ 2 ^ 16 := hfits.symbols _ h.symbolsNodup h.symbols

theorem toNat_stateId (h : Aligned A key isEpsilon table b) (hfits : Fits A key table) {k : K} (hk : k ∈ b.keys) :
    (b.stateId k).toNat = b.keys.idxOf k := faithful_uint32.index (h.keys_le hfits) hk

theorem toNat_symbolId (h : Aligned A key isEpsilon table b) (hfits : Fits A key table) {x : Sym}
    (hx : x ∈ b.result.symbolTranslation) : (b.symbolId x).toNat = b.result.symbolTranslation.idxOf x :=
  faithful_uint16.index (h.symbols_le hfits) hx

theorem lookup_states (h : Aligned A key isEpsilon table b) (k : K) :
    b.states.lookup k = if k ∈ b.keys then some (b.stateId k) else none := by
  rw [h.states]
  exact lookup_numbered _ _ k

theorem length_states (h : Aligned A key isEpsilon table b) : b.states.length = b.keys.length := by
  rw [h.states, length_numbered]

end Aligned

namespace Grown

theorem refl (key : S → K) (touched : Option K) (b : Compression S K Sym) : Grown key touched b b :=
  ⟨List.prefix_rfl, List.prefix_rfl, rfl, fun _ _ => rfl, fun _ => rfl, fun _ hs => hs, fun _ hs => .inl hs,
    fun _ hk => .inl hk, rfl⟩

theorem trans (h : Grown key touched b b') (h' : Grown key touched b' b'') (ht : ∀ k ∈ touched, k ∈ b.keys) :
    Grown key touched b b'' := by
  refine ⟨h.keys.trans h'.keys, h.symbols.trans h'.symbols, h'.initialStates.trans h.initialStates, fun i hi => ?_,
    fun i => (h'.final i).trans (h.final i), fun s hs => h'.waiting s (h.waiting s hs), fun s hs => ?_, fun k hk => ?_,
    ?_⟩
  · refine (h'.row i fun k hk => ?_).trans (h.row i hi)
    rw [idxOf_extend h.keys (ht k hk)]
    exact hi k hk
  · rcases h'.frontier s hs with hs | hs
    · exact h.frontier s hs
    · exact .inr fun hk => hs (h.keys.subset hk)
  · rcases h'.pushed k hk with hk | hk
    · rcases h.pushed k hk with hk | ⟨s, hs, rfl⟩
      · exact .inl hk
      · exact .inr ⟨s, h'.waiting s hs, rfl⟩
    · exact .inr hk
  · have := h.count
    have := h'.count
    omega

theorem weaken (h : Grown key none b b') (touched : Option K) : Grown key touched b b' :=
  { h with row := fun i _ => h.row i fun _ hk => absurd hk (by simp) }

theorem stateId_eq (h : Grown key touched b b') {k : K} (hk : k ∈ b.keys) : b'.stateId k = b.stateId k :=
  position_extend h.keys hk

theorem symbolId_eq (h : Grown key touched b b') {x : Sym} (hx : x ∈ b.result.symbolTranslation) :
    b'.symbolId x = b.symbolId x := position_extend h.symbols hx

theorem rowOf_eq (h : Grown key touched b b') {k : K} (hk : k ∈ b.keys) (ht : ∀ k', touched = some k' → k ≠ k') :
    b'.rowOf k = b.rowOf k := by
  rw [rowOf, rowOf, idxOf_extend h.keys hk]
  refine h.row _ fun k' hk' heq => ht k' hk' ?_
  exact (List.idxOf_inj hk).1 heq

theorem finalOf_eq (h : Grown key touched b b') {k : K} (hk : k ∈ b.keys) : b'.finalOf k = b.finalOf k := by
  rw [finalOf, finalOf, idxOf_extend h.keys hk, h.final]

end Grown

/-! ## Successors -/

/-- what both loops do with a state that is new -/
def pushState (key : S → K) (b : Compression S K Sym) (s : S) : Compression S K Sym where
  result := { b.result with
    final := b.result.final ++ [false]
    transitions := b.result.transitions ++ [[]] }
  states := b.states ++ [(key s, UInt32.ofNat b.states.length)]
  seen := key s :: b.seen
  frontier := s :: b.frontier

@[simp] theorem keys_pushState (b : Compression S K Sym) (s : S) : (pushState key b s).keys = b.keys ++ [key s] := by
  simp [keys, pushState]

theorem Aligned.pushState (h : Aligned A key isEpsilon table b) {s : S} (hs : A.Reachable s) (hk : key s ∉ b.keys) :
    Aligned A key isEpsilon table (pushState key b s) where
  states := by
    rw [keys_pushState, numbered_concat, ← h.states, ← h.length_states]
    rfl
  keysNodup := by
    rw [keys_pushState, ← List.concat_eq_append, List.nodup_concat]
    exact ⟨hk, h.keysNodup⟩
  reachable k hk' := by
    rw [keys_pushState, List.mem_append, List.mem_singleton] at hk'
    rcases hk' with hk' | rfl
    · exact h.reachable k hk'
    · exact ⟨s, hs, rfl⟩
  final := by
    rw [keys_pushState]
    simp [Compression.pushState, h.final]
  transitions := by
    rw [keys_pushState]
    simp [Compression.pushState, h.transitions]
  symbolMap := h.symbolMap
  symbolsNodup := h.symbolsNodup
  symbols := h.symbols
  table := h.table
  epsilon := h.epsilon
  seen k := by
    rw [keys_pushState, List.mem_append, List.mem_singleton, ← h.seen, or_comm]
    exact List.mem_cons
  frontier t ht := by
    rw [keys_pushState]
    rcases List.mem_cons.1 ht with rfl | ht
    · exact ⟨hs, List.mem_append_right _ (List.mem_singleton_self _)⟩
    · exact ⟨(h.frontier t ht).1, List.mem_append_left _ (h.frontier t ht).2⟩
  frontierNodup := by
    refine List.nodup_cons.2 ⟨fun hmem => ?_, h.frontierNodup⟩
    obtain ⟨t, ht, heq⟩ := List.mem_map.1 hmem
    exact hk (heq ▸ (h.frontier t ht).2)
  successorFilter := h.successorFilter

/-- the entries of the new state are the values that a table gives beyond its end -/
theorem getD_concat {α : Type*} (l : List α) (a : α) (i : ℕ) : (l ++ [a]).getD i a = l.getD i a := by
  simp only [List.getD_eq_getElem?_getD]
  rcases Nat.lt_trichotomy i l.length with hi | rfl | hi
  · rw [List.getElem?_append_left hi]
  · simp
  · rw [List.getElem?_eq_none (by simpa using hi), List.getElem?_eq_none (by omega)]

theorem grown_pushState (b : Compression S K Sym) {s : S} (hk : key s ∉ b.keys) :
    Grown key none b (pushState key b s) where
  keys := by
    rw [keys_pushState]
    exact List.prefix_append _ _
  symbols := List.prefix_rfl
  initialStates := rfl
  row i _ := getD_concat _ _ i
  final i := getD_concat _ _ i
  waiting t ht := List.mem_cons_of_mem _ ht
  frontier t ht := by
    rcases List.mem_cons.1 ht with rfl | ht
    · exact .inr hk
    · exact .inl ht
  pushed k hk' := by
    rw [keys_pushState, List.mem_append, List.mem_singleton] at hk'
    rcases hk' with hk' | rfl
    · exact .inl hk'
    · exact .inr ⟨s, List.mem_cons_self, rfl⟩
  count := by
    have hlen : (pushState key b s).frontier.length = b.frontier.length + 1 := rfl
    rw [keys_pushState, hlen, List.length_append, List.length_singleton]
    omega

/-- a successor that has been met changes nothing, any other is pushed -/
theorem addSuccessor_eq (h : Aligned A key isEpsilon table b) (successors : List ComState) (next : S) :
    (key next ∈ b.keys ∧ addSuccessor key (b, successors) next = (b, successors ++ [b.stateId (key next)])) ∨
    (key next ∉ b.keys ∧ addSuccessor key (b, successors) next =
      (pushState key b next, successors ++ [(pushState key b next).stateId (key next)])) := by
  have hlookup := h.lookup_states (key next)
  by_cases hk : key next ∈ b.keys
  · rw [if_pos hk] at hlookup
    have hseen := (h.seen (key next)).2 hk
    refine .inl ⟨hk, ?_⟩
    simp only [addSuccessor, insertNew, hlookup, Option.isSome_some, if_true, Option.isNone_some, Option.getD_some,
      List.insert_of_mem hseen, if_pos hseen, Bool.false_eq_true, if_false]
  · rw [if_neg hk] at hlookup
    have hseen : key next ∉ b.seen := fun hs => hk ((h.seen _).1 hs)
    have hid : ((b.states ++ [(key next, UInt32.ofNat b.states.length)]).lookup (key next)).getD 0 =
        (pushState key b next).stateId (key next) := by
      rw [List.lookup_append, hlookup, Option.none_or, List.lookup_cons_self, Option.getD_some, stateId,
        keys_pushState, position, List.idxOf_append, if_neg hk, List.idxOf_cons_self, Nat.zero_add, h.length_states]
    refine .inr ⟨hk, ?_⟩
    simp only [addSuccessor, insertNew, hlookup, Option.isSome_none, Option.isNone_none, if_true, Bool.false_eq_true,
      if_false, List.insert_of_not_mem hseen, if_neg hseen, hid]
    rfl

/-- one successor -/
theorem addSuccessor_spec (h : Aligned A key isEpsilon table b) {next : S} (hnext : A.Reachable next)
    (successors : List ComState) : ∃ b', addSuccessor key (b, successors) next =
        (b', successors ++ [b'.stateId (key next)]) ∧
      Aligned A key isEpsilon table b' ∧ Grown key none b b' ∧ key next ∈ b'.keys := by
  rcases addSuccessor_eq h successors next with ⟨hk, heq⟩ | ⟨hk, heq⟩
  · exact ⟨b, heq, h, Grown.refl key none b, hk⟩
  · exact ⟨pushState key b next, heq, h.pushState hnext hk, grown_pushState b hk, by simp⟩

/-- all successors under one symbol -/
theorem foldl_addSuccessor (h : Aligned A key isEpsilon table b) (l : List S) (hl : ∀ t ∈ l, A.Reachable t)
    (successors : List ComState) : ∃ b', l.foldl (addSuccessor key) (b, successors) =
        (b', successors ++ l.map fun t => b'.stateId (key t)) ∧
      Aligned A key isEpsilon table b' ∧ Grown key none b b' ∧ ∀ t ∈ l, key t ∈ b'.keys := by
  induction l generalizing b successors with
  | nil => exact ⟨b, by simp, h, Grown.refl key none b, nofun⟩
  | cons next l ih =>
    obtain ⟨b1, heq1, h1, hg1, hk1⟩ := addSuccessor_spec h (hl next List.mem_cons_self) successors
    obtain ⟨b2, heq2, h2, hg2, hk2⟩ := ih h1 (fun t ht => hl t (List.mem_cons_of_mem _ ht))
      (successors ++ [b1.stateId (key next)])
    refine ⟨b2, ?_, h2, hg1.trans hg2 (by simp), fun t ht => ?_⟩
    · rw [List.foldl_cons, heq1, heq2, List.map_cons, hg2.stateId_eq hk1, List.append_assoc, List.singleton_append]
    · rcases List.mem_cons.1 ht with rfl | ht
      · exact hg2.keys.subset hk1
      · exact hk2 t ht

/-! ## Symbols -/

/-- the symbol table after `sy` -/
def withSymbol (isEpsilon : Sym → Bool) (r : CompressedAutomaton Sym) (sy : Sym) : CompressedAutomaton Sym :=
  { r with
    symbolMap := numbered UInt16.ofNat (append sy r.symbolTranslation)
    symbolTranslation := append sy r.symbolTranslation
    epsilon := (append sy r.symbolTranslation).map isEpsilon }

theorem set_idxOf {α β : Type*} [DecidableEq α] (f : α → β) {l : List α} {a : α} (ha : a ∈ l) :
    (l.map f).set (l.idxOf a) (f a) = l.map f := by
  have hlt : l.idxOf a < l.length := List.idxOf_lt_length_of_mem ha
  have hself : l.set (l.idxOf a) l[l.idxOf a] = l := List.set_getElem_self hlt
  rw [List.getElem_idxOf] at hself
  rw [← List.map_set, hself]

/-- setting the flag keeps the flags right: an old symbol has it already, a new one stands at the end -/
theorem epsilon_append (f : Sym → Bool) (l : List Sym) (sy : Sym) :
    (if f sy then (if sy ∈ l then l.map f else l.map f ++ [false]).set ((append sy l).idxOf sy) true
      else if sy ∈ l then l.map f else l.map f ++ [false]) = (append sy l).map f := by
  by_cases hold : sy ∈ l
  · rw [if_pos hold, append, if_pos hold]
    cases he : f sy with
    | true => exact (he ▸ set_idxOf f hold : _)
    | false => rfl
  · rw [if_neg hold, append, if_neg hold, List.idxOf_append, if_neg hold, List.idxOf_cons_self, Nat.zero_add,
      List.map_append]
    cases he : f sy with
    | true => simp [he]
    | false => simp [he]

theorem addSymbol_eq (h : Aligned A key isEpsilon table b) (hfits : Fits A key table) {sy : Sym}
    (hsy : sy ∈ symbolsSeen A table) : addSymbol isEpsilon b.result sy =
      (withSymbol isEpsilon b.result sy, position UInt16.ofNat (append sy b.result.symbolTranslation) sy) := by
  have hlen : (append sy b.result.symbolTranslation).length ≤ 2 ^ 16 := by
    refine hfits.symbols _ (nodup_append h.symbolsNodup) fun x hx => ?_
    rcases mem_append.1 hx with hx | rfl
    · exact h.symbols x hx
    · exact hsy
  have hidx := faithful_uint16.index hlen (mem_append.2 (.inr rfl) : sy ∈ append sy b.result.symbolTranslation)
  have hmap : insertNew sy (UInt16.ofNat b.result.symbolMap.length) b.result.symbolMap =
      numbered UInt16.ofNat (append sy b.result.symbolTranslation) := by
    rw [h.symbolMap, length_numbered, insertNew_numbered]
  have hlookup : (b.result.symbolMap.lookup sy).isNone = !decide (sy ∈ b.result.symbolTranslation) := by
    rw [h.symbolMap, lookup_numbered]
    by_cases hold : sy ∈ b.result.symbolTranslation
    · simp [hold]
    · simp [hold]
  have hid : ((numbered UInt16.ofNat (append sy b.result.symbolTranslation)).lookup sy).getD 0 =
      position UInt16.ofNat (append sy b.result.symbolTranslation) sy := by
    rw [lookup_numbered, if_pos (mem_append.2 (.inr rfl)), Option.getD_some]
  simp only [addSymbol, hmap, hid, hlookup, hidx, withSymbol, ← epsilon_append, h.epsilon]
  by_cases hold : sy ∈ b.result.symbolTranslation
  · cases isEpsilon sy <;> simp [hold, append]
  · cases isEpsilon sy <;> simp [hold, append]

theorem Aligned.knowSymbol (h : Aligned A key isEpsilon table b) {sy : Sym} (hsy : sy ∈ symbolsSeen A table) :
    Aligned A key isEpsilon table { b with result := withSymbol isEpsilon b.result sy } where
  states := h.states
  keysNodup := h.keysNodup
  reachable := h.reachable
  final := h.final
  transitions := h.transitions
  symbolMap := rfl
  symbolsNodup := nodup_append h.symbolsNodup
  symbols x hx := by
    rcases mem_append.1 hx with hx | rfl
    · exact h.symbols x hx
    · exact hsy
  table := h.table.trans (prefix_append sy b.result.symbolTranslation)
  epsilon := rfl
  seen := h.seen
  frontier := h.frontier
  frontierNodup := h.frontierNodup
  successorFilter := h.successorFilter

theorem grown_knowSymbol (b : Compression S K Sym) (sy : Sym) :
    Grown key none b { b with result := withSymbol isEpsilon b.result sy } :=
  { Grown.refl key none b with symbols := prefix_append sy b.result.symbolTranslation }

/-! ## Rows -/

/-- the row of `s` after the symbols `xs` -/
structure RowOk (A : Automaton S Sym) (key : S → K) (b : Compression S K Sym) (s : S) (xs : List Sym) : Prop where
  known : ∀ x ∈ xs, x ∈ b.result.symbolTranslation
  closed : ∀ x ∈ xs, ∀ t ∈ A.succ s x, key t ∈ b.keys
  mem : ∀ y l, (y, l) ∈ b.rowOf (key s) ↔
    ∃ x ∈ xs, A.succ s x ≠ [] ∧ y = b.symbolId x ∧ l = (A.succ s x).map fun t => b.stateId (key t)

theorem rowOk_nil {s : S} (h : b.rowOf (key s) = []) : RowOk A key b s [] := by
  refine ⟨nofun, nofun, fun y l => ?_⟩
  rw [h]
  simp

/-- the row stays right when the tables grow elsewhere -/
theorem RowOk.grown {s : S} {xs : List Sym} (h : RowOk A key b s xs) (hkeys : b.keys <+: b'.keys)
    (hsymbols : b.result.symbolTranslation <+: b'.result.symbolTranslation)
    (hrow : b'.rowOf (key s) = b.rowOf (key s)) : RowOk A key b' s xs := by
  have hsymbol : ∀ x ∈ xs, b'.symbolId x = b.symbolId x := fun x hx => position_extend hsymbols (h.known x hx)
  have hstates : ∀ x ∈ xs, ((A.succ s x).map fun t => b'.stateId (key t)) =
      (A.succ s x).map fun t => b.stateId (key t) := by
    intro x hx
    exact List.map_congr_left fun t ht => position_extend hkeys (h.closed x hx t ht)
  refine ⟨fun x hx => hsymbols.subset (h.known x hx), fun x hx t ht => hkeys.subset (h.closed x hx t ht),
    fun y l => ?_⟩
  rw [hrow, h.mem]
  constructor
  · rintro ⟨x, hx, hne, rfl, rfl⟩
    exact ⟨x, hx, hne, (hsymbol x hx).symm, (hstates x hx).symm⟩
  · rintro ⟨x, hx, hne, rfl, rfl⟩
    exact ⟨x, hx, hne, hsymbol x hx, hstates x hx⟩

/-- the tables with the entry of one symbol in the row of `k` -/
def withEntry (b : Compression S K Sym) (k : K) (syid : ComSymbol) (successors : List ComState) : Compression S K Sym :=
  { b with result := { b.result with
    transitions := b.result.transitions.modify (b.keys.idxOf k) (insertNew syid successors) } }

theorem Aligned.withEntry (h : Aligned A key isEpsilon table b) (k : K) (syid : ComSymbol)
    (successors : List ComState) : Aligned A key isEpsilon table (withEntry b k syid successors) :=
  { h with transitions := (List.length_modify _ _ _).trans h.transitions }

theorem grown_withEntry (b : Compression S K Sym) (k : K) (syid : ComSymbol) (successors : List ComState) :
    Grown key (some k) b (withEntry b k syid successors) :=
  { Grown.refl key (some k) b with
    row := fun i hi => by
      have hne : b.keys.idxOf k ≠ i := (hi k rfl).symm
      simp only [Compression.withEntry, List.getD_eq_getElem?_getD, List.getElem?_modify_ne _ _ hne] }

theorem rowOf_withEntry (h : Aligned A key isEpsilon table b) {k : K} (hk : k ∈ b.keys) (syid : ComSymbol)
    (successors : List ComState) :
    (withEntry b k syid successors).rowOf k = insertNew syid successors (b.rowOf k) := by
  have hlt : b.keys.idxOf k < b.result.transitions.length := by
    rw [h.transitions]
    exact List.idxOf_lt_length_of_mem hk
  have hkeys : (withEntry b k syid successors).keys = b.keys := rfl
  rw [rowOf, rowOf, hkeys, Compression.withEntry, List.getD_eq_getElem?_getD, List.getD_eq_getElem?_getD,
    List.getElem?_modify_eq, List.getElem?_eq_getElem hlt]
  rfl

/-- the entry of the next symbol -/
theorem RowOk.withEntry (h : Aligned A key isEpsilon table b) (hfits : Fits A key table) {s : S} {xs : List Sym}
    (hrow : RowOk A key b s xs) {sy : Sym} (hk : key s ∈ b.keys) (hsy : sy ∈ b.result.symbolTranslation)
    (hclosed : ∀ t ∈ A.succ s sy, key t ∈ b.keys) (hne : A.succ s sy ≠ []) :
    RowOk A key (withEntry b (key s) (b.symbolId sy) ((A.succ s sy).map fun t => b.stateId (key t))) s
      (xs ++ [sy]) := by
  refine ⟨?_, ?_, fun y l => ?_⟩
  · intro x hx
    rcases List.mem_append.1 hx with hx | hx
    · exact hrow.known x hx
    · exact List.mem_singleton.1 hx ▸ hsy
  · intro x hx
    rcases List.mem_append.1 hx with hx | hx
    · exact hrow.closed x hx
    · exact List.mem_singleton.1 hx ▸ hclosed
  · -- an entry that is there already is that of the same symbol
    have hsame : ((b.rowOf (key s)).lookup (b.symbolId sy)).isSome = true → sy ∈ xs := by
      intro hsome
      obtain ⟨l', hl'⟩ := Option.isSome_iff_exists.1 hsome
      obtain ⟨x, hx, -, heq, -⟩ := (hrow.mem _ _).1 (mem_of_lookup hl')
      obtain rfl := faithful_uint16.injective (h.symbols_le hfits) hsy (hrow.known x hx) heq
      exact hx
    rw [rowOf_withEntry h hk, mem_insertNew, hrow.mem]
    constructor
    · rintro (⟨x, hx, hx'⟩ | ⟨-, rfl, rfl⟩)
      · exact ⟨x, List.mem_append_left _ hx, hx'⟩
      · exact ⟨sy, List.mem_append_right _ (List.mem_singleton_self _), hne, rfl, rfl⟩
    · rintro ⟨x, hx, hx', rfl, rfl⟩
      rcases List.mem_append.1 hx with hx | hx
      · exact .inl ⟨x, hx, hx', rfl, rfl⟩
      · obtain rfl := List.mem_singleton.1 hx
        rcases Bool.eq_false_or_eq_true ((b.rowOf (key s)).lookup (b.symbolId x)).isSome with hl | hl
        · exact .inl ⟨x, hsame hl, hx', rfl, rfl⟩
        · exact .inr ⟨hl, rfl, rfl⟩

/-- a symbol without successors leaves no entry -/
theorem RowOk.skip {s : S} {xs : List Sym} (hrow : RowOk A key b s xs) {sy : Sym}
    (hsy : sy ∈ b.result.symbolTranslation) (hnil : A.succ s sy = []) : RowOk A key b s (xs ++ [sy]) := by
  refine ⟨?_, ?_, fun y l => ?_⟩
  · intro x hx
    rcases List.mem_append.1 hx with hx | hx
    · exact hrow.known x hx
    · exact List.mem_singleton.1 hx ▸ hsy
  · intro x hx t ht
    rcases List.mem_append.1 hx with hx | hx
    · exact hrow.closed x hx t ht
    · rw [List.mem_singleton.1 hx, hnil] at ht
      exact absurd ht List.not_mem_nil
  · rw [hrow.mem]
    constructor
    · rintro ⟨x, hx, hx'⟩
      exact ⟨x, List.mem_append_left _ hx, hx'⟩
    · rintro ⟨x, hx, hne, hx'⟩
      rcases List.mem_append.1 hx with hx | hx
      · exact ⟨x, hx, hne, hx'⟩
      · exact absurd (List.mem_singleton.1 hx ▸ hnil) hne

/-- **One symbol.** -/
theorem visitSymbol_spec (h : Aligned A key isEpsilon table b) (hfits : Fits A key table) {s : S} (hs : A.Reachable s)
    (hk : key s ∈ b.keys) {xs : List Sym} (hrow : RowOk A key b s xs) {sy : Sym} (hsy : sy ∈ A.next s) :
    ∃ b', visitSymbol A key isEpsilon s (b.stateId (key s)) b sy = b' ∧ Aligned A key isEpsilon table b' ∧
      Grown key (some (key s)) b b' ∧ RowOk A key b' s (xs ++ [sy]) := by
  have hseen : sy ∈ symbolsSeen A table := .inr ⟨s, hs, hsy⟩
  have h1 := h.knowSymbol hseen
  have hg1 : Grown key none b { b with result := withSymbol isEpsilon b.result sy } := grown_knowSymbol b sy
  have hreach : ∀ t ∈ A.succ s sy, A.Reachable t := fun t ht => Reachable.step (t := ⟨s, sy, t⟩) hs ⟨hsy, ht⟩
  obtain ⟨b2, heq2, h2, hg2, hk2⟩ := foldl_addSuccessor h1 (A.succ s sy) hreach []
  have hg : Grown key none b b2 := hg1.trans hg2 (by simp)
  have hsy2 : sy ∈ b2.result.symbolTranslation := hg2.symbols.subset (mem_append.2 (.inr rfl))
  have hrow2 : RowOk A key b2 s xs := hrow.grown hg.keys hg.symbols (hg.rowOf_eq hk nofun)
  have hsyid : position UInt16.ofNat (append sy b.result.symbolTranslation) sy = b2.symbolId sy :=
    (hg2.symbolId_eq (mem_append.2 (.inr rfl))).symm
  have hsid : (b.stateId (key s)).toNat = b2.keys.idxOf (key s) := by
    rw [h.toNat_stateId hfits hk, idxOf_extend hg.keys hk]
  have hvisit : visitSymbol A key isEpsilon s (b.stateId (key s)) b sy =
      if 0 < (A.succ s sy).length then
        b2.withEntry (key s) (b2.symbolId sy) ((A.succ s sy).map fun t => b2.stateId (key t))
      else b2 := by
    simp only [visitSymbol, addSymbol_eq h hfits hseen, heq2, hsyid, hsid, List.nil_append, List.length_map]
    rfl
  refine ⟨_, hvisit, ?_⟩
  by_cases hpos : 0 < (A.succ s sy).length
  · rw [if_pos hpos]
    exact ⟨h2.withEntry _ _ _, (hg.weaken _).trans (grown_withEntry b2 _ _ _) (by simpa using hk),
      hrow2.withEntry h2 hfits (hg.keys.subset hk) hsy2 hk2 (List.length_pos_iff.1 hpos)⟩
  · rw [if_neg hpos]
    have hnil : A.succ s sy = [] := List.length_eq_zero_iff.1 (by omega)
    exact ⟨h2, hg.weaken _, hrow2.skip hsy2 hnil⟩

theorem foldl_visitSymbol (hfits : Fits A key table) {s : S} (hs : A.Reachable s) (l : List Sym)
    (hl : ∀ x ∈ l, x ∈ A.next s) {xs : List Sym} (h : Aligned A key isEpsilon table b) (hk : key s ∈ b.keys)
    (hrow : RowOk A key b s xs) :
    ∃ b', l.foldl (visitSymbol A key isEpsilon s (b.stateId (key s))) b = b' ∧ Aligned A key isEpsilon table b' ∧
      Grown key (some (key s)) b b' ∧ RowOk A key b' s (xs ++ l) := by
  induction l generalizing b xs with
  | nil => exact ⟨b, rfl, h, Grown.refl key _ b, by simpa using hrow⟩
  | cons sy l ih =>
    obtain ⟨b1, heq1, h1, hg1, hrow1⟩ := visitSymbol_spec h hfits hs hk hrow (hl sy List.mem_cons_self)
    have hk1 := hg1.keys.subset hk
    obtain ⟨b2, heq2, h2, hg2, hrow2⟩ := ih (fun x hx => hl x (List.mem_cons_of_mem _ hx)) h1 hk1 hrow1
    refine ⟨b2, ?_, h2, hg1.trans hg2 (by simpa using hk), ?_⟩
    · rw [List.foldl_cons, heq1, ← hg1.stateId_eq hk, heq2]
    · rw [List.append_assoc, List.singleton_append] at hrow2
      exact hrow2

/-! ## States -/

/-- the invariant of the main loop: a state that has left the frontier has its flag and its row -/
structure Explored (A : Automaton S Sym) (key : S → K) (isEpsilon : Sym → Bool) (table : List Sym)
    (b : Compression S K Sym) : Prop extends Aligned A key isEpsilon table b where
  waiting : ∀ s ∈ b.frontier, b.rowOf (key s) = [] ∧ b.finalOf (key s) = false
  done : ∀ k ∈ b.keys, (∃ s ∈ b.frontier, key s = k) ∨
    ∃ s, key s = k ∧ A.Reachable s ∧ RowOk A key b s (A.next s) ∧ b.finalOf k = A.final s
  initialMet : ∀ s ∈ A.initial, key s ∈ b.keys
  initialStates : b.result.initialStates = A.initial.map fun s => b.stateId (key s)

/-- the tables after the final flag of `s` has been set -/
def withFinal (A : Automaton S Sym) (b : Compression S K Sym) (k : K) (s : S) : Compression S K Sym :=
  { b with
    result := if A.final s then { b.result with final := b.result.final.set (b.keys.idxOf k) true } else b.result }

theorem withFinal_result (b : Compression S K Sym) (k : K) (s : S) : (withFinal A b k s).result =
    { b.result with final := if A.final s then b.result.final.set (b.keys.idxOf k) true else b.result.final } := by
  unfold withFinal
  cases A.final s <;> rfl

theorem Aligned.withFinal (h : Aligned A key isEpsilon table b) (k : K) (s : S) :
    Aligned A key isEpsilon table (withFinal A b k s) := by
  have hlen : (Compression.withFinal A b k s).result.final.length = b.keys.length := by
    rw [withFinal_result]
    cases A.final s
    · exact h.final
    · exact (List.length_set ..).trans h.final
  refine ⟨h.states, h.keysNodup, h.reachable, hlen, ?_, ?_, ?_, ?_, ?_, ?_, h.seen, h.frontier, h.frontierNodup, ?_⟩ <;>
    rw [withFinal_result]
  · exact h.transitions
  · exact h.symbolMap
  · exact h.symbolsNodup
  · exact h.symbols
  · exact h.table
  · exact h.epsilon
  · exact h.successorFilter

theorem finalOf_withFinal (h : Aligned A key isEpsilon table b) {k : K} (hk : k ∈ b.keys) (k' : K) (s : S) :
    (withFinal A b k s).finalOf k' = if k' = k then A.final s || b.finalOf k else b.finalOf k' := by
  have hkeys : (withFinal A b k s).keys = b.keys := rfl
  have hlt : b.keys.idxOf k < b.result.final.length := by
    rw [h.final]
    exact List.idxOf_lt_length_of_mem hk
  rw [finalOf, hkeys, withFinal_result]
  cases hf : A.final s with
  | false => by_cases heq : k' = k <;> simp [finalOf, heq]
  | true =>
    by_cases heq : k' = k
    · simp [heq, List.getD_eq_getElem?_getD, hlt]
    · have hne : b.keys.idxOf k ≠ b.keys.idxOf k' := fun h' => heq ((List.idxOf_inj hk).1 h').symm
      simp [finalOf, heq, List.getD_eq_getElem?_getD, List.getElem?_set_ne hne]

theorem rowOf_withFinal (b : Compression S K Sym) (k k' : K) (s : S) : (withFinal A b k s).rowOf k' = b.rowOf k' := by
  rw [rowOf, rowOf, withFinal_result]
  rfl

/-- the tables without the state that has been taken from the frontier -/
theorem Aligned.pop (h : Aligned A key isEpsilon table b) {s : S} {frontier : List S}
    (hperm : (s :: frontier).Perm b.frontier) : Aligned A key isEpsilon table { b with frontier := frontier } := by
  have hnodup : ((s :: frontier).map key).Nodup := (hperm.map key).nodup_iff.2 h.frontierNodup
  refine { h with
    frontier := fun t ht => h.frontier t (hperm.subset (List.mem_cons_of_mem _ ht))
    frontierNodup := ?_ }
  rw [List.map_cons] at hnodup
  exact (List.nodup_cons.1 hnodup).2

/-- what the loop body does with the state `s`, when the frontier is down to `rest` -/
structure Visited (A : Automaton S Sym) (key : S → K) (s : S) (rest : List S) (b b' : Compression S K Sym) :
    Prop where
  keys : b.keys <+: b'.keys
  initialStates : b'.result.initialStates = b.result.initialStates
  self : RowOk A key b' s (A.next s) ∧ b'.finalOf (key s) = A.final s
  other : ∀ k ∈ b.keys, k ≠ key s → b'.rowOf k = b.rowOf k ∧ b'.finalOf k = b.finalOf k
  symbols : b.result.symbolTranslation <+: b'.result.symbolTranslation
  fresh : ∀ k ∈ b'.keys, k ∉ b.keys → b'.rowOf k = [] ∧ b'.finalOf k = false
  waiting : ∀ t ∈ rest, t ∈ b'.frontier
  frontier : ∀ t ∈ b'.frontier, t ∈ rest ∨ key t ∉ b.keys
  pushed : ∀ k ∈ b'.keys, k ∈ b.keys ∨ ∃ t ∈ b'.frontier, key t = k
  count : b'.frontier.length + b.keys.length = rest.length + b'.keys.length

theorem visit_visited (h : Aligned A key isEpsilon table b) (hfits : Fits A key table) {s : S} {frontier : List S}
    (hperm : (s :: frontier).Perm b.frontier) (hrow : b.rowOf (key s) = []) (hfinal : b.finalOf (key s) = false) :
    ∃ b', visit A key isEpsilon { b with frontier := frontier } s = some b' ∧ Aligned A key isEpsilon table b' ∧
      Visited A key s frontier b b' := by
  obtain ⟨hs, hk⟩ := h.frontier s (hperm.subset List.mem_cons_self)
  have h0 := h.pop hperm
  have h1 := h0.withFinal (key s) s
  have hrow1 : (withFinal A { b with frontier := frontier } (key s) s).rowOf (key s) = [] :=
    (rowOf_withFinal ..).trans hrow
  obtain ⟨b2, heq2, h2, hg2, hrow2⟩ := foldl_visitSymbol hfits hs (A.next s) (fun _ hx => hx) h1 hk (rowOk_nil hrow1)
  have hfinal2 : ∀ k ∈ b.keys, b2.finalOf k = if k = key s then A.final s else b.finalOf k := by
    intro k hk'
    rw [hg2.finalOf_eq hk', finalOf_withFinal h0 hk]
    by_cases heq : k = key s
    · have hfalse : finalOf { b with frontier := frontier } (key s) = false := hfinal
      rw [if_pos heq, if_pos heq, hfalse, Bool.or_false]
    · rw [if_neg heq, if_neg heq]
      rfl
  have hvisit : visit A key isEpsilon { b with frontier := frontier } s = some b2 := by
    have hlookup : b.states.lookup (key s) = some (b.stateId (key s)) := by rw [h.lookup_states, if_pos hk]
    have hid : (b.stateId (key s)).toNat = b.keys.idxOf (key s) := h.toNat_stateId hfits hk
    simp only [visit, hlookup, hid, Option.some.injEq]
    exact heq2
  refine ⟨b2, hvisit, h2, hg2.keys, ?_, ⟨hrow2, ?_⟩, fun k hk' hne => ⟨?_, ?_⟩, ?_, fun k _ hnew => ?_, hg2.waiting,
    hg2.frontier, hg2.pushed, hg2.count⟩
  · rw [hg2.initialStates, withFinal_result]
  · rw [hfinal2 _ hk, if_pos rfl]
  · rw [hg2.rowOf_eq hk' (by simpa using hne), rowOf_withFinal]
    rfl
  · rw [hfinal2 k hk', if_neg hne]
  · have hsymbols := hg2.symbols
    rw [withFinal_result] at hsymbols
    exact hsymbols
  · have hlen : b.keys.length ≤ b2.keys.idxOf k := length_le_idxOf hg2.keys hnew
    have hne : b2.keys.idxOf k ≠ b.keys.idxOf (key s) := (lt_of_lt_of_le (List.idxOf_lt_length_of_mem hk) hlen).ne'
    constructor
    · rw [rowOf, hg2.row _ (by rintro k' ⟨⟩; exact hne), List.getD_eq_getElem?_getD,
        List.getElem?_eq_none (h1.transitions.trans_le hlen), Option.getD_none]
    · rw [finalOf, hg2.final, List.getD_eq_getElem?_getD, List.getElem?_eq_none (h1.final.trans_le hlen),
        Option.getD_none]

/-- **One state.** -/
theorem visit_spec (h : Explored A key isEpsilon table b) (hfits : Fits A key table) {s : S} {frontier : List S}
    (hperm : (s :: frontier).Perm b.frontier) :
    ∃ b', visit A key isEpsilon { b with frontier := frontier } s = some b' ∧ Explored A key isEpsilon table b' ∧
      b'.frontier.length + b.keys.length < b.frontier.length + b'.keys.length := by
  have hsb : s ∈ b.frontier := hperm.subset List.mem_cons_self
  obtain ⟨hrow, hfinal⟩ := h.waiting s hsb
  obtain ⟨b', hvisit, h', hv⟩ := visit_visited h.toAligned hfits hperm hrow hfinal
  -- a state of the frontier that was there before has another key
  have hother : ∀ t ∈ frontier, key t ≠ key s := by
    intro t ht heq
    have hnodup : ((s :: frontier).map key).Nodup := (hperm.map key).nodup_iff.2 h.frontierNodup
    rw [List.map_cons] at hnodup
    exact (List.nodup_cons.1 hnodup).1 (heq ▸ List.mem_map_of_mem ht)
  refine ⟨b', hvisit, { h' with waiting := ?_, done := ?_, initialMet := ?_, initialStates := ?_ }, ?_⟩
  · intro t ht
    rcases hv.frontier t ht with hold | hnew
    · have htb : t ∈ b.frontier := hperm.subset (List.mem_cons_of_mem _ hold)
      obtain ⟨hr, hf⟩ := hv.other _ (h.frontier t htb).2 (hother t hold)
      rw [hr, hf]
      exact h.waiting t htb
    · exact hv.fresh _ (h'.frontier t ht).2 hnew
  · intro k hk
    rcases hv.pushed k hk with hold | hnew
    · by_cases heq : k = key s
      · exact .inr ⟨s, heq.symm, (h.frontier s hsb).1, hv.self.1, heq ▸ hv.self.2⟩
      · obtain ⟨hr, hf⟩ := hv.other k hold heq
        rcases h.done k hold with ⟨t, ht, rfl⟩ | ⟨t, rfl, ht, hrowt, hfint⟩
        · rcases List.mem_cons.1 (hperm.symm.subset ht) with rfl | ht
          · exact absurd rfl heq
          · exact .inl ⟨t, hv.waiting t ht, rfl⟩
        · exact .inr ⟨t, rfl, ht, hrowt.grown hv.keys hv.symbols hr, hf.trans hfint⟩
    · exact .inl hnew
  · exact fun t ht => hv.keys.subset (h.initialMet t ht)
  · rw [hv.initialStates, h.initialStates]
    exact List.map_congr_left fun t ht => (position_extend hv.keys (h.initialMet t ht)).symm
  · have hcount := hv.count
    have hlen : b.frontier.length = frontier.length + 1 := hperm.length_eq.symm
    omega

/-! ## The loops -/

/-- **The main loop.** It ends with every state explored: the frontier grows only when a state is new, and there are no
more than 2^32. -/
theorem explore_spec (queue : FrontierQueue S) (hfits : Fits A key table) (n : ℕ)
    (h : Explored A key isEpsilon table b) (hn : b.frontier.length + (2 ^ 32 - b.keys.length) = n) :
    ∃ b' bound, (∀ fuel, bound ≤ fuel → explore A key isEpsilon queue fuel b = some b') ∧
      Explored A key isEpsilon table b' ∧ b'.frontier = [] := by
  induction n using Nat.strong_induction_on generalizing b with
  | _ n ih =>
    cases hf : b.frontier with
    | nil =>
      refine ⟨b, 1, fun fuel hfuel => ?_, h, hf⟩
      obtain ⟨fuel, rfl⟩ : ∃ k, fuel = k + 1 := ⟨fuel - 1, by omega⟩
      simp only [explore, hf]
    | cons first rest =>
      have hperm : ((queue.pop first rest).1 :: (queue.pop first rest).2).Perm b.frontier :=
        hf ▸ queue.perm first rest
      obtain ⟨b1, hvisit, h1, hlt⟩ := visit_spec h hfits hperm
      have hle := h1.keys_le hfits
      have hle0 := h.keys_le hfits
      obtain ⟨b2, bound, hrun, h2, hnil⟩ := ih _ (by omega) h1 rfl
      refine ⟨b2, bound + 1, fun fuel hfuel => ?_, h2, hnil⟩
      obtain ⟨fuel, rfl⟩ : ∃ k, fuel = k + 1 := ⟨fuel - 1, by omega⟩
      simp only [explore, hf, hvisit]
      exact hrun fuel (by omega)

/-- the invariant of the loop over the initial states `l` -/
structure Started (A : Automaton S Sym) (key : S → K) (isEpsilon : Sym → Bool) (table : List Sym) (l : List S)
    (b : Compression S K Sym) : Prop extends Aligned A key isEpsilon table b where
  keys : b.keys = l.map key
  row : ∀ i, b.result.transitions.getD i [] = []
  noFinal : ∀ i, b.result.final.getD i false = false
  waits : ∀ s ∈ l, s ∈ b.frontier
  initialStates : b.result.initialStates = l.map fun s => b.stateId (key s)

/-- the symbol table of another compressed automaton: no symbol twice, and a flag for each -/
structure TableOk (isEpsilon : Sym → Bool) (c : CompressedAutomaton Sym) : Prop where
  nodup : c.symbolTranslation.Nodup
  epsilon : c.epsilon = c.symbolTranslation.map isEpsilon

theorem foldl_insertNew {l : List Sym} (hl : l.Nodup) :
    (numbered UInt16.ofNat l).foldl (fun m p => insertNew p.1 p.2 m) [] = numbered UInt16.ofNat l := by
  induction l using List.reverseRecOn with
  | nil => rfl
  | append_singleton l a ih =>
    rw [← List.concat_eq_append, List.nodup_concat] at hl
    have happ : append a l = l ++ [a] := if_neg hl.1
    rw [numbered_concat, List.foldl_append, ih hl.2, List.foldl_cons, List.foldl_nil, insertNew_numbered, happ,
      numbered_concat]

theorem started_start {c : CompressedAutomaton Sym} (hc : TableOk isEpsilon c) :
    Started A key isEpsilon c.symbolTranslation [] (start S K c) := by
  refine ⟨⟨rfl, List.nodup_nil, nofun, rfl, rfl, ?_, hc.nodup, fun x hx => .inl hx, List.prefix_rfl, hc.epsilon,
    fun k => Iff.rfl, nofun, List.nodup_nil, rfl⟩, rfl, fun i => rfl, fun i => rfl, nofun, rfl⟩
  exact foldl_insertNew hc.nodup

theorem Started.addInitial {l : List S} (h : Started A key isEpsilon table l b) {s : S} (hs : A.Reachable s)
    (hnew : key s ∉ l.map key) : Started A key isEpsilon table (l ++ [s]) (addInitial key b s) := by
  rw [← h.keys] at hnew
  have hseen : key s ∉ b.seen := fun hs => hnew ((h.seen _).1 hs)
  have hlookup : b.states.lookup (key s) = none := by rw [h.lookup_states, if_neg hnew]
  have heq : Compression.addInitial key b s =
      { pushState key b s with
        result := { (pushState key b s).result with
          initialStates := b.result.initialStates ++ [(pushState key b s).stateId (key s)] } } := by
    have hid : UInt32.ofNat b.states.length = (pushState key b s).stateId (key s) := by
      rw [stateId, keys_pushState, position, List.idxOf_append, if_neg hnew, List.idxOf_cons_self, Nat.zero_add,
        h.length_states]
    simp only [Compression.addInitial, insertNew, hlookup, Option.isSome_none, Bool.false_eq_true, if_false,
      List.insert_of_not_mem hseen, ← hid]
    rfl
  have hpush := h.toAligned.pushState hs hnew
  have hgrown : Grown key none b (pushState key b s) := grown_pushState b hnew
  rw [heq]
  refine { hpush with keys := ?_, row := ?_, noFinal := ?_, waits := ?_, initialStates := ?_ }
  · calc (pushState key b s).keys = b.keys ++ [key s] := keys_pushState b s
      _ = (l ++ [s]).map key := by rw [h.keys, List.map_append, List.map_singleton]
  · exact fun i => (hgrown.row i fun k hk => absurd hk.symm (Option.some_ne_none k)).trans (h.row i)
  · exact fun i => (hgrown.final i).trans (h.noFinal i)
  · intro t ht
    rcases List.mem_append.1 ht with ht | ht
    · exact hgrown.waiting t (h.waits t ht)
    · exact List.mem_singleton.1 ht ▸ List.mem_cons_self
  · have hold : (l.map fun t => (pushState key b s).stateId (key t)) = l.map fun t => b.stateId (key t) := by
      refine List.map_congr_left fun t ht => hgrown.stateId_eq ?_
      rw [h.keys]
      exact List.mem_map_of_mem ht
    calc b.result.initialStates ++ [(pushState key b s).stateId (key s)]
        = (l.map fun t => (pushState key b s).stateId (key t)) ++ [(pushState key b s).stateId (key s)] := by
          rw [h.initialStates, hold]
      _ = (l ++ [s]).map fun t => (pushState key b s).stateId (key t) := by rw [List.map_append, List.map_singleton]

theorem started_initial {c : CompressedAutomaton Sym} (hc : TableOk isEpsilon c) (l : List S)
    (hl : ∀ s ∈ l, A.Reachable s) (hnodup : (l.map key).Nodup) :
    Started A key isEpsilon c.symbolTranslation l (l.foldl (addInitial key) (start S K c)) := by
  induction l using List.reverseRecOn with
  | nil => exact started_start hc
  | append_singleton l s ih =>
    rw [List.map_append, List.map_singleton, ← List.concat_eq_append, List.nodup_concat] at hnodup
    rw [List.foldl_append]
    exact (ih (fun t ht => hl t (List.mem_append_left _ ht)) hnodup.2).addInitial
      (hl s (List.mem_append_right _ (List.mem_singleton_self s))) hnodup.1

theorem Started.explored (h : Started A key isEpsilon table A.initial b) : Explored A key isEpsilon table b := by
  refine { h.toAligned with waiting := ?_, done := ?_, initialMet := ?_, initialStates := h.initialStates }
  · exact fun s _ => ⟨h.row _, h.noFinal _⟩
  · intro k hk
    rw [h.keys] at hk
    obtain ⟨s, hs, rfl⟩ := List.mem_map.1 hk
    exact .inl ⟨s, h.waits s hs, rfl⟩
  · intro s hs
    rw [h.keys]
    exact List.mem_map_of_mem hs

end Compression

end Liss
