/-
`wrapper_automaton` in `abstraction/compressed_automaton.h`: the automaton that is explored on demand, with the symbols
of a compressed one.

The wrapper holds references to two of the three symbol tables of the compressed automaton, the map and the
translation, and adds to them what the compressed automaton does not know. It knows nothing of the third, the epsilon
table. Both ways of adding a symbol cut the size of the table to a `com_symbol`.

- `numbers_run`: after any insertions the translation lists the symbols met, and the map numbers them;
- `mutuallyInverse_iff`: map and translation are inverse to each other exactly up to 65536 symbols;
- `synchronised_iff`: the tables agree after calls of `int_next_symbols` exactly if these meet no new symbol.
-/
import Liss.Abstraction.Compression
import Liss.Abstraction.StateEquality
import Liss.Abstraction.Steps

set_option linter.unusedSectionVars false

namespace Liss

open Liss.Numbering

variable {S K Sym : Type*} [DecidableEq K] [DecidableEq Sym]

/-- `Limi::inclusion_result` -/
structure InclusionResult (Sym : Type*) where
  included : Bool
  boundHit : Bool
  maxBound : ℕ
  counterExample : List Sym
deriving DecidableEq, Repr

namespace CompressedAutomaton

/-- `add_symbol` -/
def addSymbol (c : CompressedAutomaton Sym) (symbol : Sym) : CompressedAutomaton Sym × ComSymbol :=
  let s := UInt16.ofNat c.symbolTranslation.length
  ({ c with
      symbolTranslation := c.symbolTranslation ++ [symbol]
      symbolMap := insertNew symbol s c.symbolMap }, s)

/-- the loop body of `int_next_symbols` -/
def comSymbol (c : CompressedAutomaton Sym) (s : Sym) : CompressedAutomaton Sym × ComSymbol :=
  match c.symbolMap.lookup s with
  | none => c.addSymbol s
  | some sy => (c, sy)

/-- `int_next_symbols`; `c` owns the tables -/
def wrapperNextSymbols (inner : Automaton S Sym) (c : CompressedAutomaton Sym) (state : S) :
    CompressedAutomaton Sym × List ComSymbol :=
  (inner.next state).foldl (fun p s => ((p.1.comSymbol s).1, p.2 ++ [(p.1.comSymbol s).2])) (c, [])

/-- `translate_result`; `none` beyond the end of the table -/
def translateResult (c : CompressedAutomaton Sym) (oldres : InclusionResult ComSymbol) : Option (InclusionResult Sym) :=
  (oldres.counterExample.mapM fun s => c.symbolTranslation[s.toNat]?).map fun w =>
    { included := oldres.included, boundHit := oldres.boundHit, maxBound := oldres.maxBound, counterExample := w }

/-! ## Insertions -/

/-- what is done to the tables -/
inductive TableStep (Sym : Type*) where
  /-- `from_concurrent_automaton` meets a symbol -/
  | construct (sy : Sym)
  /-- a wrapper meets a symbol -/
  | request (sy : Sym)
  /-- `from_concurrent_automaton` takes over the tables of its second argument -/
  | copy

def TableStep.symbol : TableStep Sym → Option Sym
  | construct sy => some sy
  | request sy => some sy
  | copy => none

/-- one insertion of `from_concurrent_automaton` -/
def construct (isEpsilon : Sym → Bool) (c : CompressedAutomaton Sym) (sy : Sym) : CompressedAutomaton Sym :=
  (Compression.addSymbol isEpsilon c sy).1

def step (isEpsilon : Sym → Bool) (c : CompressedAutomaton Sym) : TableStep Sym → CompressedAutomaton Sym
  | .construct sy => construct isEpsilon c sy
  | .request sy => (c.comSymbol sy).1
  | .copy => (Compression.start Unit Unit c).result

def run (isEpsilon : Sym → Bool) (steps : List (TableStep Sym)) : CompressedAutomaton Sym :=
  steps.foldl (step isEpsilon) {}

/-- the symbols met -/
def inserted (steps : List (TableStep Sym)) : List Sym := steps.filterMap TableStep.symbol

/-- the map numbers the translation -/
structure Numbers (c : CompressedAutomaton Sym) : Prop where
  nodup : c.symbolTranslation.Nodup
  map : c.symbolMap = numbered UInt16.ofNat c.symbolTranslation

variable {isEpsilon : Sym → Bool} {c d : CompressedAutomaton Sym}

theorem numbers_empty : Numbers ({} : CompressedAutomaton Sym) := ⟨List.nodup_nil, rfl⟩

theorem Numbers.insert_map (h : Numbers c) (sy : Sym) :
    insertNew sy (UInt16.ofNat c.symbolMap.length) c.symbolMap =
      numbered UInt16.ofNat (append sy c.symbolTranslation) := by
  rw [h.map, length_numbered, insertNew_numbered]

theorem Numbers.lookup_isNone (h : Numbers c) (sy : Sym) :
    (c.symbolMap.lookup sy).isNone = !decide (sy ∈ c.symbolTranslation) := by
  rw [h.map, lookup_numbered]
  by_cases hold : sy ∈ c.symbolTranslation
  · simp [hold]
  · simp [hold]

/-- the tables after `from_concurrent_automaton` has met a symbol -/
theorem construct_tables (isEpsilon : Sym → Bool) (h : Numbers c) (sy : Sym) :
    (construct isEpsilon c sy).symbolTranslation = append sy c.symbolTranslation ∧
      (construct isEpsilon c sy).symbolMap = numbered UInt16.ofNat (append sy c.symbolTranslation) := by
  simp only [construct, Compression.addSymbol, h.insert_map, h.lookup_isNone]
  by_cases hold : sy ∈ c.symbolTranslation
  · cases isEpsilon sy <;> simp [hold, append]
  · cases isEpsilon sy <;> simp [hold, append]

/-- the tables after a wrapper has met a symbol -/
theorem comSymbol_tables (h : Numbers c) (sy : Sym) :
    (c.comSymbol sy).1.symbolTranslation = append sy c.symbolTranslation ∧
      (c.comSymbol sy).1.symbolMap = numbered UInt16.ofNat (append sy c.symbolTranslation) ∧
      (c.comSymbol sy).1.epsilon = c.epsilon := by
  unfold comSymbol
  rw [h.map, lookup_numbered]
  by_cases hold : sy ∈ c.symbolTranslation
  · rw [if_pos hold, append, if_pos hold]
    exact ⟨rfl, h.map, rfl⟩
  · have hmap : insertNew sy (UInt16.ofNat c.symbolTranslation.length) c.symbolMap =
        numbered UInt16.ofNat (append sy c.symbolTranslation) := by
      rw [h.map, insertNew_numbered]
    rw [if_neg hold]
    exact ⟨(if_neg hold).symm, hmap, rfl⟩

/-- the tables of a copy -/
theorem start_tables (h : Numbers c) : (Compression.start Unit Unit c).result.symbolMap = c.symbolMap := by
  rw [h.map]
  exact Compression.foldl_insertNew h.nodup

/-- **One insertion.** -/
theorem numbers_step (isEpsilon : Sym → Bool) (h : Numbers c) (st : TableStep Sym) : Numbers (step isEpsilon c st) ∧
    (step isEpsilon c st).symbolTranslation = st.symbol.toList.foldl (fun l sy => append sy l) c.symbolTranslation := by
  cases st with
  | construct sy =>
    obtain ⟨htrans, hmap⟩ := construct_tables isEpsilon h sy
    refine ⟨⟨?_, ?_⟩, htrans⟩
    · show (construct isEpsilon c sy).symbolTranslation.Nodup
      rw [htrans]
      exact nodup_append h.nodup
    · show (construct isEpsilon c sy).symbolMap = _
      rw [hmap, ← htrans]
      rfl
  | request sy =>
    obtain ⟨htrans, hmap, -⟩ := comSymbol_tables h sy
    refine ⟨⟨?_, ?_⟩, htrans⟩
    · show (c.comSymbol sy).1.symbolTranslation.Nodup
      rw [htrans]
      exact nodup_append h.nodup
    · show (c.comSymbol sy).1.symbolMap = _
      rw [hmap, ← htrans]
      rfl
  | copy => exact ⟨⟨h.nodup, (start_tables h).trans h.map⟩, rfl⟩

/-- the symbols of a list, each where it comes first -/
def firsts (l : List Sym) : List Sym := l.foldl (fun l sy => append sy l) []

/-- **All insertions.** -/
theorem numbers_run (isEpsilon : Sym → Bool) (steps : List (TableStep Sym)) :
    Numbers (run isEpsilon steps) ∧ (run isEpsilon steps).symbolTranslation = firsts (inserted steps) := by
  induction steps using List.reverseRecOn with
  | nil => exact ⟨numbers_empty, rfl⟩
  | append_singleton steps st ih =>
    obtain ⟨hn, htrans⟩ := ih
    have hrun : run isEpsilon (steps ++ [st]) = step isEpsilon (run isEpsilon steps) st := by
      rw [run, List.foldl_append]
      rfl
    obtain ⟨hn', htrans'⟩ := numbers_step isEpsilon hn st
    rw [hrun]
    refine ⟨hn', ?_⟩
    rw [htrans', htrans, firsts, firsts, inserted, inserted, List.filterMap_append, List.foldl_append]
    cases st <;> rfl

theorem mem_firsts {l : List Sym} {sy : Sym} : sy ∈ firsts l ↔ sy ∈ l := by
  induction l using List.reverseRecOn with
  | nil => exact Iff.rfl
  | append_singleton l a ih =>
    rw [firsts, List.foldl_append]
    change sy ∈ append a (firsts l) ↔ _
    rw [mem_append, ih, List.mem_append, List.mem_singleton]

theorem nodup_firsts (l : List Sym) : (firsts l).Nodup := by
  induction l using List.reverseRecOn with
  | nil => exact List.nodup_nil
  | append_singleton l a ih =>
    rw [firsts, List.foldl_append]
    exact nodup_append ih

theorem length_firsts (l : List Sym) : (firsts l).length = l.toFinset.card := by
  rw [← List.toFinset_card_of_nodup (nodup_firsts l)]
  congr 1
  ext sy
  rw [List.mem_toFinset, List.mem_toFinset, mem_firsts]

/-! ## Identifiers and symbols -/

/-- the symbols met have identifiers of their own, an identifier is translated to its symbol, and a counter-example to
the word that it stands for -/
structure MutuallyInverse (c : CompressedAutomaton Sym) (met : List Sym) : Prop where
  known : ∀ sy ∈ met, ∃ id, c.symbolMap.lookup sy = some id
  inverse : ∀ sy id, c.symbolMap.lookup sy = some id ↔ c.symbolTranslation[id.toNat]? = some sy
  result : ∀ (r : InclusionResult ComSymbol) (w : List Sym),
    (w.mapM fun sy => c.symbolMap.lookup sy) = some r.counterExample →
      c.translateResult r = some { r with counterExample := w }

/-- a word is translated symbol by symbol -/
theorem mapM_inverse {f : Sym → Option ComSymbol} {g : ComSymbol → Option Sym}
    (hfg : ∀ sy id, f sy = some id → g id = some sy) {w : List Sym} {v : List ComSymbol} (h : w.mapM f = some v) :
    v.mapM g = some w := by
  induction w generalizing v with
  | nil =>
    rw [List.mapM_nil] at h
    obtain rfl := Option.some.inj h
    rfl
  | cons sy w ih =>
    rw [List.mapM_cons] at h
    cases hf : f sy with
    | none => simp [hf] at h
    | some id =>
      cases hw : w.mapM f with
      | none => simp [hf, hw] at h
      | some v' =>
        obtain rfl : id :: v' = v := by simpa [hf, hw] using h
        rw [List.mapM_cons, hfg sy id hf, ih hw]
        rfl

theorem inverse_of_length (h : Numbers c) (hle : c.symbolTranslation.length ≤ 2 ^ 16) (sy : Sym) (id : ComSymbol) :
    c.symbolMap.lookup sy = some id ↔ c.symbolTranslation[id.toNat]? = some sy := by
  rw [h.map, lookup_numbered]
  constructor
  · intro hid
    split_ifs at hid with hmem
    rw [← Option.some.inj hid, faithful_uint16.index hle hmem]
    exact List.getElem?_idxOf hmem
  · intro hid
    obtain ⟨hlt, heq⟩ := List.getElem?_eq_some_iff.1 hid
    have hmem : sy ∈ c.symbolTranslation := heq ▸ List.getElem_mem hlt
    rw [if_pos hmem, position, ← heq, List.Nodup.idxOf_getElem h.nodup, UInt16.ofNat_toNat]

/-- symbol 65536 has the identifier of the first one -/
theorem not_inverse_of_length (h : Numbers c) (hlt : 2 ^ 16 < c.symbolTranslation.length) :
    ¬∀ sy id, c.symbolMap.lookup sy = some id ↔ c.symbolTranslation[id.toNat]? = some sy := by
  intro hinv
  have hpos : 0 < c.symbolTranslation.length := by omega
  have hlookup : c.symbolMap.lookup c.symbolTranslation[2 ^ 16] = some 0 := by
    rw [h.map, lookup_numbered, if_pos (List.getElem_mem hlt), position, List.Nodup.idxOf_getElem h.nodup]
    rfl
  have hzero := (hinv _ _).1 hlookup
  rw [show (0 : ComSymbol).toNat = 0 from rfl, List.getElem?_eq_getElem hpos] at hzero
  have := (List.Nodup.getElem_inj_iff h.nodup).1 (Option.some.inj hzero)
  omega

/-- **Identifiers.** -/
theorem mutuallyInverse_iff (isEpsilon : Sym → Bool) (steps : List (TableStep Sym)) :
    MutuallyInverse (run isEpsilon steps) (inserted steps) ↔ (inserted steps).toFinset.card ≤ 2 ^ 16 := by
  obtain ⟨hn, htrans⟩ := numbers_run isEpsilon steps
  have hlen : (run isEpsilon steps).symbolTranslation.length = (inserted steps).toFinset.card := by
    rw [htrans, length_firsts]
  constructor
  · intro h
    by_contra hlt
    exact not_inverse_of_length hn (by omega) h.inverse
  · intro hle
    have hinv := inverse_of_length hn (by omega)
    refine ⟨fun sy hsy => ?_, hinv, fun r w hw => ?_⟩
    · rw [hn.map, lookup_numbered, htrans, if_pos (mem_firsts.2 hsy)]
      exact ⟨_, rfl⟩
    · rw [translateResult, mapM_inverse (fun sy id => (hinv sy id).1) hw]
      rfl

/-! ### More symbols than identifiers -/

/-- the write at the `i`-th position of a program with threads of 32767 states -/
def nthSymbol (i : ℕ) : Symbol := { operation := .write, loc := ⟨i / 32767, i % 32767 + 1⟩ }

theorem nthSymbol_injective : Function.Injective nthSymbol := by
  intro i j hij
  have hthread : i / 32767 = j / 32767 := congrArg (fun s => s.loc.thread) hij
  have hstate : i % 32767 + 1 = j % 32767 + 1 := congrArg (fun s => s.loc.state) hij
  omega

/-- a wrapper meets `n` symbols -/
def requests (n : ℕ) : List (TableStep Symbol) := (List.range n).map fun i => .request (nthSymbol i)

theorem inserted_requests (n : ℕ) : inserted (requests n) = (List.range n).map nthSymbol := by
  rw [inserted, requests, List.filterMap_map]
  exact congrFun List.filterMap_eq_map (List.range n)

theorem requests_length (isEpsilon : Symbol → Bool) (n : ℕ) :
    (run isEpsilon (requests n)).symbolTranslation.length = n := by
  have hnodup : (inserted (requests n)).Nodup := by
    rw [inserted_requests]
    exact List.nodup_range.map nthSymbol_injective
  rw [(numbers_run isEpsilon (requests n)).2, length_firsts, List.toFinset_card_of_nodup hnodup, inserted_requests,
    List.length_map, List.length_range]

/-- the first symbol and number 65536 have one identifier -/
theorem requests_not_inverse : ¬∀ (isEpsilon : Symbol → Bool) (steps : List (TableStep Symbol)),
    MutuallyInverse (run isEpsilon steps) (inserted steps) := by
  intro hall
  have hlen := requests_length Symbol.isEpsilon (2 ^ 16 + 1)
  have hn := (numbers_run Symbol.isEpsilon (requests (2 ^ 16 + 1))).1
  apply not_inverse_of_length hn
  · rw [hlen]
    exact Nat.lt_succ_self _
  · exact (hall Symbol.isEpsilon (requests (2 ^ 16 + 1))).inverse

/-! ## The three tables -/

/-- the wrapper's calls of `int_next_symbols` for some states -/
def wrapperCalls (inner : Automaton S Sym) (c : CompressedAutomaton Sym) (states : List S) : CompressedAutomaton Sym :=
  states.foldl (fun c s => (wrapperNextSymbols inner c s).1) c

/-- the three tables have one size, and the flag of each symbol is its own -/
structure Synchronised (isEpsilon : Sym → Bool) (c : CompressedAutomaton Sym) : Prop where
  translation : c.symbolTranslation.length = c.symbolMap.length
  epsilon : c.epsilon.length = c.symbolMap.length
  flag : ∀ (id : ComSymbol) (sy : Sym), c.symbolTranslation[id.toNat]? = some sy →
    id.toNat < c.epsilon.length ∧ c.intIsEpsilon id = isEpsilon sy

/-- an epsilon symbol shares its identifier with no other symbol; with up to 65536 symbols none shares it with any -/
def NoClash (isEpsilon : Sym → Bool) (c : CompressedAutomaton Sym) : Prop :=
  ∀ j sy sy', c.symbolTranslation[j]? = some sy → isEpsilon sy = true →
    c.symbolTranslation[j % 2 ^ 16]? = some sy' → isEpsilon sy' = true

/-- an automaton that `from_concurrent_automaton` has built -/
inductive Built (isEpsilon : Sym → Bool) : CompressedAutomaton Sym → Prop
  | empty : Built isEpsilon {}
  | build {S K : Type} [DecidableEq K] {A : Automaton S Sym} {key : S → K} {queue : FrontierQueue S}
      {c c' : CompressedAutomaton Sym} {fuel : ℕ} (h : Built isEpsilon c)
      (hc' : fromConcurrentAutomaton A key isEpsilon queue c fuel = some c') : Built isEpsilon c'

/-- the epsilon table: the flag of an identifier is set if one of its symbols is an epsilon symbol -/
structure Flagged (isEpsilon : Sym → Bool) (c : CompressedAutomaton Sym) : Prop extends Numbers c where
  length : c.epsilon.length = c.symbolTranslation.length
  flag : ∀ i, c.epsilon.getD i false = true ↔
    ∃ j sy, c.symbolTranslation[j]? = some sy ∧ j % 2 ^ 16 = i ∧ isEpsilon sy = true

/-- `d` has the tables of `c` -/
structure SameTables (c d : CompressedAutomaton Sym) : Prop where
  symbolMap : d.symbolMap = c.symbolMap
  symbolTranslation : d.symbolTranslation = c.symbolTranslation
  epsilon : d.epsilon = c.epsilon

theorem SameTables.trans {e : CompressedAutomaton Sym} (h : SameTables c d) (h' : SameTables d e) : SameTables c e :=
  ⟨h'.symbolMap.trans h.symbolMap, h'.symbolTranslation.trans h.symbolTranslation, h'.epsilon.trans h.epsilon⟩

theorem Flagged.congr (h : Flagged isEpsilon c) (hs : SameTables c d) : Flagged isEpsilon d := by
  refine ⟨⟨?_, ?_⟩, ?_, ?_⟩
  · rw [hs.symbolTranslation]
    exact h.nodup
  · rw [hs.symbolMap, hs.symbolTranslation]
    exact h.map
  · rw [hs.epsilon, hs.symbolTranslation]
    exact h.length
  · rw [hs.epsilon, hs.symbolTranslation]
    exact h.flag

theorem getD_set (l : List Bool) {k : ℕ} (hk : k < l.length) (i : ℕ) :
    (l.set k true).getD i false = true ↔ l.getD i false = true ∨ k = i := by
  rw [List.getD_eq_getElem?_getD, List.getElem?_set, List.getD_eq_getElem?_getD]
  by_cases hi : k = i
  · simp [hi, hi ▸ hk]
  · simp [hi]

theorem getD_concat_false (l : List Bool) (i : ℕ) : (l ++ [false]).getD i false = l.getD i false := by
  rw [List.getD_eq_getElem?_getD, List.getD_eq_getElem?_getD, List.getElem?_append]
  split_ifs with hi
  · rfl
  · rw [List.getElem?_eq_none (not_lt.1 hi), List.getElem?_singleton]
    split_ifs
    · rfl
    · rfl

theorem getElem?_append_iff {l : List Sym} {sy x : Sym} {j : ℕ} :
    (append sy l)[j]? = some x ↔ l[j]? = some x ∨ sy ∉ l ∧ j = l.length ∧ x = sy := by
  unfold append
  by_cases hold : sy ∈ l
  · rw [if_pos hold]
    simp [hold]
  · rw [if_neg hold, List.getElem?_append]
    split_ifs with hj
    · simp [Nat.ne_of_lt hj]
    · rw [List.getElem?_eq_none (not_lt.1 hj), List.getElem?_singleton]
      split_ifs with h0
      · simp [hold, show j = l.length by omega, eq_comm]
      · simp [show j ≠ l.length by omega]

/-- the epsilon table after a symbol: a new symbol has a flag, and that of its identifier is set -/
theorem construct_epsilon (h : Flagged isEpsilon c) (sy : Sym) :
    (construct isEpsilon c sy).epsilon.length = (append sy c.symbolTranslation).length ∧
      ∀ i, (construct isEpsilon c sy).epsilon.getD i false = true ↔ c.epsilon.getD i false = true ∨
        isEpsilon sy = true ∧ (append sy c.symbolTranslation).idxOf sy % 2 ^ 16 = i := by
  set e := if sy ∈ c.symbolTranslation then c.epsilon else c.epsilon ++ [false] with he
  have hlen : e.length = (append sy c.symbolTranslation).length := by
    rw [he, append]
    split_ifs
    · exact h.length
    · rw [List.length_append, List.length_append, h.length]
      rfl
  have hget : ∀ i, e.getD i false = c.epsilon.getD i false := by
    intro i
    rw [he]
    split_ifs
    · rfl
    · exact getD_concat_false _ _
  have hmem : sy ∈ append sy c.symbolTranslation := mem_append.2 (.inr rfl)
  have heps : (construct isEpsilon c sy).epsilon =
      if isEpsilon sy then e.set ((append sy c.symbolTranslation).idxOf sy % 2 ^ 16) true else e := by
    have hid : (((numbered UInt16.ofNat (append sy c.symbolTranslation)).lookup sy).getD 0).toNat =
        (append sy c.symbolTranslation).idxOf sy % 2 ^ 16 := by
      rw [lookup_numbered, if_pos hmem, Option.getD_some, position, UInt16.toNat_ofNat']
    simp only [construct, Compression.addSymbol, h.insert_map, h.lookup_isNone, hid, he]
    by_cases hold : sy ∈ c.symbolTranslation
    · cases isEpsilon sy <;> simp [hold]
    · cases isEpsilon sy <;> simp [hold]
  rw [heps]
  cases hsy : isEpsilon sy with
  | false =>
    refine ⟨hlen, fun i => ?_⟩
    rw [if_neg (by simp), hget]
    simp
  | true =>
    have hidx : (append sy c.symbolTranslation).idxOf sy % 2 ^ 16 < e.length := by
      rw [hlen]
      exact Nat.lt_of_le_of_lt (Nat.mod_le _ _) (List.idxOf_lt_length_of_mem hmem)
    refine ⟨?_, fun i => ?_⟩
    · rw [if_pos rfl, List.length_set]
      exact hlen
    · rw [if_pos rfl, getD_set _ hidx, hget]
      simp

theorem Flagged.construct (h : Flagged isEpsilon c) (sy : Sym) : Flagged isEpsilon (construct isEpsilon c sy) := by
  obtain ⟨hn, -⟩ := numbers_step isEpsilon h.toNumbers (.construct sy)
  obtain ⟨htrans, -⟩ := construct_tables isEpsilon h.toNumbers sy
  obtain ⟨hlen, hflag⟩ := construct_epsilon h sy
  refine ⟨hn, by rw [hlen, htrans], fun i => ?_⟩
  rw [hflag, h.flag, htrans]
  have hmem : sy ∈ append sy c.symbolTranslation := mem_append.2 (.inr rfl)
  constructor
  · intro hh
    rcases hh with ⟨j, x, hj, hi, hx⟩ | ⟨hsy, hi⟩
    · exact ⟨j, x, getElem?_append_iff.2 (.inl hj), hi, hx⟩
    · exact ⟨_, sy, List.getElem?_idxOf hmem, hi, hsy⟩
  · intro hh
    obtain ⟨j, x, hj, hi, hx⟩ := hh
    rcases getElem?_append_iff.1 hj with hj | ⟨hnew, rfl, rfl⟩
    · exact .inl ⟨j, x, hj, hi, hx⟩
    · refine .inr ⟨hx, ?_⟩
      rw [append, if_neg hnew, List.idxOf_append, if_neg hnew, List.idxOf_cons_self, Nat.zero_add]
      exact hi

/-! ## `from_concurrent_automaton` -/

section

variable {A : Automaton S Sym} {key : S → K}

theorem SameTables.refl (c : CompressedAutomaton Sym) : SameTables c c := ⟨rfl, rfl, rfl⟩

theorem sameTables_addInitial (b : Compression S K Sym) (l : List S) :
    SameTables b.result (l.foldl (Compression.addInitial key) b).result := by
  induction l generalizing b with
  | nil => exact .refl _
  | cons s l ih =>
    have hone : SameTables b.result (Compression.addInitial key b s).result := ⟨rfl, rfl, rfl⟩
    exact hone.trans (ih _)

/-- states leave the symbol tables alone -/
theorem sameTables_addSuccessor (key : S → K) (p : Compression S K Sym × List ComState) (l : List S) :
    SameTables p.1.result (l.foldl (Compression.addSuccessor key) p).1.result := by
  induction l generalizing p with
  | nil => exact .refl _
  | cons s l ih =>
    apply SameTables.trans ?_ (ih (Compression.addSuccessor key p s))
    simp only [Compression.addSuccessor]
    split_ifs
    · exact ⟨rfl, rfl, rfl⟩
    · exact .refl _

/-- an insertion looks at the tables only -/
theorem SameTables.construct (h : SameTables c d) (sy : Sym) :
    SameTables (construct isEpsilon c sy) (construct isEpsilon d sy) := by
  obtain ⟨h1, h2, h3⟩ := h
  unfold CompressedAutomaton.construct Compression.addSymbol
  rw [h1, h2, h3]
  dsimp only
  split_ifs
  · exact ⟨rfl, rfl, rfl⟩
  · exact ⟨rfl, rfl, rfl⟩
  · exact ⟨rfl, rfl, rfl⟩
  · exact ⟨rfl, rfl, rfl⟩

theorem SameTables.constructs (h : SameTables c d) (l : List Sym) :
    SameTables (l.foldl (CompressedAutomaton.construct isEpsilon) c)
      (l.foldl (CompressedAutomaton.construct isEpsilon) d) := by
  induction l generalizing c d with
  | nil => exact h
  | cons sy l ih => exact ih (h.construct sy)

theorem sameTables_visitSymbol (b : Compression S K Sym) (s : S) (sid : ComState) (sy : Sym) :
    SameTables (construct isEpsilon b.result sy) (Compression.visitSymbol A key isEpsilon s sid b sy).result := by
  have hsucc := sameTables_addSuccessor key
    ({ b with result := (Compression.addSymbol isEpsilon b.result sy).1 }, []) (A.succ s sy)
  simp only [Compression.visitSymbol]
  split_ifs
  · exact hsucc.trans ⟨rfl, rfl, rfl⟩
  · exact hsucc

theorem sameTables_visit {b b' : Compression S K Sym} {s : S}
    (hv : Compression.visit A key isEpsilon b s = some b') :
    SameTables ((A.next s).foldl (construct isEpsilon) b.result) b'.result := by
  have hfold : ∀ (sid : ComState) (l : List Sym) (b : Compression S K Sym),
      SameTables (l.foldl (construct isEpsilon) b.result)
        (l.foldl (Compression.visitSymbol A key isEpsilon s sid) b).result := by
    intro sid l
    induction l with
    | nil => exact fun b => .refl _
    | cons sy l ih =>
      intro b
      exact ((sameTables_visitSymbol b s sid sy).constructs l).trans (ih _)
  unfold Compression.visit at hv
  cases hsid : b.states.lookup (key s) with
  | none => simp [hsid] at hv
  | some sid =>
    rw [hsid] at hv
    obtain rfl := Option.some.inj hv
    refine SameTables.trans (SameTables.constructs ?_ (A.next s)) (hfold sid _ _)
    dsimp only
    split_ifs
    · exact ⟨rfl, rfl, rfl⟩
    · exact .refl _

theorem sameTables_explore {queue : FrontierQueue S} {fuel : ℕ} {b b' : Compression S K Sym}
    (hb : Compression.explore A key isEpsilon queue fuel b = some b') :
    ∃ l : List Sym, SameTables (l.foldl (construct isEpsilon) b.result) b'.result := by
  induction fuel generalizing b with
  | zero => simp [Compression.explore] at hb
  | succ fuel ih =>
    rw [Compression.explore] at hb
    cases hf : b.frontier with
    | nil =>
      rw [hf] at hb
      obtain rfl := Option.some.inj hb
      exact ⟨[], .refl _⟩
    | cons first rest =>
      rw [hf] at hb
      dsimp only at hb
      cases hv : Compression.visit A key isEpsilon { b with frontier := (queue.pop first rest).2 }
          (queue.pop first rest).1 with
      | none => simp [hv] at hb
      | some b1 =>
        rw [hv] at hb
        obtain ⟨l, hl⟩ := ih hb
        refine ⟨A.next (queue.pop first rest).1 ++ l, ?_⟩
        rw [List.foldl_append]
        exact ((sameTables_visit hv).constructs l).trans hl

/-- the construction is a sequence of insertions into a copy of the tables that it is given -/
theorem sameTables_fromConcurrentAutomaton {queue : FrontierQueue S} {fuel : ℕ} {c c' : CompressedAutomaton Sym}
    (hc' : fromConcurrentAutomaton A key isEpsilon queue c fuel = some c') :
    ∃ l : List Sym, SameTables (l.foldl (construct isEpsilon) (Compression.start Unit Unit c).result) c' := by
  rw [fromConcurrentAutomaton, Option.map_eq_some_iff] at hc'
  obtain ⟨b, hb, rfl⟩ := hc'
  obtain ⟨l, hl⟩ := sameTables_explore hb
  have hstart : SameTables (Compression.start Unit Unit c).result (Compression.start S K c).result := ⟨rfl, rfl, rfl⟩
  exact ⟨l, ((hstart.trans (sameTables_addInitial _ A.initial)).constructs l).trans hl⟩

/-- **Histories.** Constructions and calls of wrappers, in whatever order, are runs of insertions. -/
theorem run_fromConcurrentAutomaton {queue : FrontierQueue S} {fuel : ℕ} {steps : List (TableStep Sym)}
    {c c' : CompressedAutomaton Sym} (hc : SameTables (run isEpsilon steps) c)
    (hc' : fromConcurrentAutomaton A key isEpsilon queue c fuel = some c') :
    ∃ steps', SameTables (run isEpsilon (steps ++ steps')) c' := by
  obtain ⟨l, hl⟩ := sameTables_fromConcurrentAutomaton hc'
  have hcopy : SameTables (step isEpsilon (run isEpsilon steps) .copy) (Compression.start Unit Unit c).result := by
    refine ⟨?_, hc.symbolTranslation, hc.epsilon⟩
    unfold step Compression.start
    rw [hc.symbolTranslation]
  refine ⟨.copy :: l.map .construct, ?_⟩
  rw [run, List.foldl_append, List.foldl_cons, List.foldl_map]
  exact (hcopy.constructs l).trans hl

theorem run_wrapperNextSymbols {steps : List (TableStep Sym)} {c : CompressedAutomaton Sym}
    (hc : SameTables (run isEpsilon steps) c) (inner : Automaton S Sym) (s : S) :
    SameTables (run isEpsilon (steps ++ (inner.next s).map .request)) (wrapperNextSymbols inner c s).1 := by
  have hone : ∀ {c d : CompressedAutomaton Sym}, SameTables c d → ∀ sy,
      SameTables (c.comSymbol sy).1 (d.comSymbol sy).1 := by
    intro c d h sy
    unfold comSymbol addSymbol
    rw [h.symbolMap, h.symbolTranslation]
    cases c.symbolMap.lookup sy with
    | none => exact ⟨rfl, rfl, h.epsilon⟩
    | some id => exact h
  have hfold : ∀ (l : List Sym) (c d : CompressedAutomaton Sym) (ids : List ComSymbol), SameTables c d →
      SameTables ((l.map TableStep.request).foldl (step isEpsilon) c)
        (l.foldl (fun p s => ((p.1.comSymbol s).1, p.2 ++ [(p.1.comSymbol s).2])) (d, ids)).1 := by
    intro l
    induction l with
    | nil => exact fun _ _ _ h => h
    | cons sy l ih => exact fun c d ids h => ih _ _ _ (hone h sy)
  rw [run, List.foldl_append]
  exact hfold _ _ _ _ hc

/-- **The tables of a compressed automaton.** -/
theorem Built.flagged (h : Built isEpsilon c) : Flagged isEpsilon c := by
  induction h with
  | empty => exact ⟨numbers_empty, rfl, fun i => by simp⟩
  | build h hc' ih =>
    obtain ⟨l, hl⟩ := sameTables_fromConcurrentAutomaton hc'
    have hfold : ∀ (l : List Sym) (c : CompressedAutomaton Sym), Flagged isEpsilon c →
        Flagged isEpsilon (l.foldl (construct isEpsilon) c) := by
      intro l
      induction l with
      | nil => exact fun _ h => h
      | cons sy l ih => exact fun c h => ih _ (h.construct sy)
    exact (hfold l _ (ih.congr ⟨start_tables ih.toNumbers, rfl, rfl⟩)).congr hl

end

/-! ## The wrapper -/

/-- up to 65536 symbols an identifier is that of one symbol -/
theorem noClash_of_length (hle : c.symbolTranslation.length ≤ 2 ^ 16) : NoClash isEpsilon c := by
  intro j sy sy' hj hsy hj'
  have hlt : j < c.symbolTranslation.length := (List.getElem?_eq_some_iff.1 hj).1
  rw [Nat.mod_eq_of_lt (by omega), hj] at hj'
  rw [← Option.some.inj hj']
  exact hsy

/-- what the wrapper leaves alone, and what it adds -/
structure Wrapped (c d : CompressedAutomaton Sym) : Prop extends Numbers d where
  epsilon : d.epsilon = c.epsilon
  old : c.symbolTranslation <+: d.symbolTranslation

theorem Wrapped.comSymbol (h : Wrapped c d) (sy : Sym) :
    Wrapped c (d.comSymbol sy).1 ∧ sy ∈ (d.comSymbol sy).1.symbolTranslation ∧
      d.symbolTranslation <+: (d.comSymbol sy).1.symbolTranslation := by
  obtain ⟨htrans, -, heps⟩ := comSymbol_tables h.toNumbers sy
  have hpre := prefix_append sy d.symbolTranslation
  rw [← htrans] at hpre
  refine ⟨⟨(numbers_step (fun _ => false) h.toNumbers (.request sy)).1, heps.trans h.epsilon,
    h.old.trans hpre⟩, ?_, hpre⟩
  rw [htrans]
  exact mem_append.2 (.inr rfl)

theorem Wrapped.symbols (h : Wrapped c d) (l : List Sym) (ids : List ComSymbol) :
    let d' := (l.foldl (fun p s => ((p.1.comSymbol s).1, p.2 ++ [(p.1.comSymbol s).2])) (d, ids)).1
    Wrapped c d' ∧ (∀ sy ∈ l, sy ∈ d'.symbolTranslation) ∧ d.symbolTranslation <+: d'.symbolTranslation := by
  induction l generalizing d ids with
  | nil => exact ⟨h, by simp, List.prefix_rfl⟩
  | cons sy l ih =>
    obtain ⟨h1, hsy, hpre⟩ := h.comSymbol sy
    obtain ⟨h2, hl, hpre'⟩ := ih h1 (ids ++ [(d.comSymbol sy).2])
    refine ⟨h2, fun x hx => ?_, hpre.trans hpre'⟩
    rcases List.mem_cons.1 hx with rfl | hx
    · exact hpre'.subset hsy
    · exact hl x hx

/-- **The calls of a wrapper.** -/
theorem Wrapped.calls (h : Wrapped c d) (inner : Automaton S Sym) (states : List S) :
    Wrapped c (wrapperCalls inner d states) ∧
      ∀ s ∈ states, ∀ sy ∈ inner.next s, sy ∈ (wrapperCalls inner d states).symbolTranslation := by
  suffices hall : Wrapped c (wrapperCalls inner d states) ∧
      (∀ s ∈ states, ∀ sy ∈ inner.next s, sy ∈ (wrapperCalls inner d states).symbolTranslation) ∧
      d.symbolTranslation <+: (wrapperCalls inner d states).symbolTranslation from ⟨hall.1, hall.2.1⟩
  induction states generalizing d with
  | nil => exact ⟨h, by simp, List.prefix_rfl⟩
  | cons s states ih =>
    obtain ⟨h1, hs, hpre⟩ := h.symbols (inner.next s) []
    obtain ⟨h2, hstates, hpre'⟩ := ih h1
    refine ⟨h2, fun t ht sy hsy => ?_, hpre.trans hpre'⟩
    rcases List.mem_cons.1 ht with rfl | ht
    · exact hpre'.subset (hs sy hsy)
    · exact hstates t ht sy hsy

/-- calls that meet no new symbol change nothing -/
theorem wrapperCalls_known (h : Numbers c) (inner : Automaton S Sym) {states : List S}
    (hknown : ∀ s ∈ states, ∀ sy ∈ inner.next s, sy ∈ c.symbolTranslation) : wrapperCalls inner c states = c := by
  have hone : ∀ sy ∈ c.symbolTranslation, (c.comSymbol sy).1 = c := by
    intro sy hsy
    rw [comSymbol, h.map, lookup_numbered, if_pos hsy]
  have hsymbols : ∀ (l : List Sym) (ids : List ComSymbol), (∀ sy ∈ l, sy ∈ c.symbolTranslation) →
      (l.foldl (fun p s => ((p.1.comSymbol s).1, p.2 ++ [(p.1.comSymbol s).2])) (c, ids)).1 = c := by
    intro l
    induction l with
    | nil => exact fun _ _ => rfl
    | cons sy l ih =>
      intro ids hl
      rw [List.foldl_cons]
      dsimp only
      rw [hone sy (hl sy List.mem_cons_self)]
      exact ih _ fun x hx => hl x (List.mem_cons_of_mem _ hx)
  induction states with
  | nil => rfl
  | cons s states ih =>
    have hs := hsymbols (inner.next s) [] (hknown s List.mem_cons_self)
    calc wrapperCalls inner c (s :: states) = wrapperCalls inner (wrapperNextSymbols inner c s).1 states := rfl
      _ = wrapperCalls inner c states := by rw [wrapperNextSymbols, hs]
      _ = c := ih fun t ht => hknown t (List.mem_cons_of_mem _ ht)

/-- the flags of a compressed automaton are right up to symbols that share an identifier -/
theorem Flagged.flags_iff (h : Flagged isEpsilon c) :
    (∀ (id : ComSymbol) (sy : Sym), c.symbolTranslation[id.toNat]? = some sy →
      id.toNat < c.epsilon.length ∧ c.intIsEpsilon id = isEpsilon sy) ↔ NoClash isEpsilon c := by
  constructor
  · intro hflag j sy sy' hj hsy hj'
    have hid : (UInt16.ofNat j).toNat = j % 2 ^ 16 := UInt16.toNat_ofNat'
    rw [← hid] at hj'
    rw [← (hflag _ sy' hj').2]
    exact (h.flag _).2 ⟨j, sy, hj, hid.symm, hsy⟩
  · intro hclash id sy hid
    refine ⟨?_, ?_⟩
    · rw [h.length]
      exact (List.getElem?_eq_some_iff.1 hid).1
    · rw [Bool.eq_iff_iff]
      have hlt : id.toNat % 2 ^ 16 = id.toNat := Nat.mod_eq_of_lt id.toNat_lt
      constructor
      · intro hset
        obtain ⟨j, x, hj, hji, hx⟩ := (h.flag _).1 hset
        exact hclash j x sy hj hx (hji ▸ hid)
      · intro hsy
        exact (h.flag _).2 ⟨id.toNat, sy, hid, hlt, hsy⟩

/-- **The tables while the wrapper runs.** -/
theorem synchronised_iff (hc : Built isEpsilon c) (inner : Automaton S Sym) (states : List S) :
    Synchronised isEpsilon (wrapperCalls inner c states) ↔
      (∀ s ∈ states, ∀ sy ∈ inner.next s, sy ∈ c.symbolTranslation) ∧ NoClash isEpsilon c := by
  have hf := hc.flagged
  have hw : Wrapped c c := ⟨hf.toNumbers, rfl, List.prefix_rfl⟩
  obtain ⟨hcalls, hmet⟩ := hw.calls inner states
  constructor
  · intro h
    have hsame : c.symbolTranslation = (wrapperCalls inner c states).symbolTranslation := by
      apply hcalls.old.eq_of_length
      rw [h.translation, ← h.epsilon, hcalls.epsilon, hf.length]
    have hknown : ∀ s ∈ states, ∀ sy ∈ inner.next s, sy ∈ c.symbolTranslation := by
      intro s hs sy hsy
      rw [hsame]
      exact hmet s hs sy hsy
    refine ⟨hknown, hf.flags_iff.1 ?_⟩
    rw [wrapperCalls_known hf.toNumbers inner hknown] at h
    exact h.flag
  · intro hh
    obtain ⟨hknown, hclash⟩ := hh
    rw [wrapperCalls_known hf.toNumbers inner hknown]
    have hlen : c.symbolTranslation.length = c.symbolMap.length := by rw [hf.map, length_numbered]
    exact ⟨hlen, hf.length.trans hlen, hf.flags_iff.2 hclash⟩

/-! ### A symbol that only the preemptive automaton meets -/

/-- `notify(c); reset(c);` and `wait(c); x=1;` -/
def pulse : Program :=
  Program.twoThreads ⟨1, 0, 1⟩ (Program.straight 0 [(.notify, 0), (.reset, 0)])
    (Program.straight 1 [(.wait, 0), (.write, 0)]) 40 (by decide) (by decide)
    (Program.straight_wellFormed (by simp [Symbol.known])) (Program.straight_wellFormed (by simp [Symbol.known]))

def pulseSequential : Automaton ConcurrentState Symbol := (ConcurrentAutomaton.ofProgram pulse false false).automaton

def pulsePreemptive : Automaton ConcurrentState Symbol := (ConcurrentAutomaton.ofProgram pulse true false).automaton

def pulseStart : ConcurrentState := (ConcurrentAutomaton.ofProgram pulse true false).startState

/-- without preemption the condition is reset before the second thread can pass -/
def pulseCompressed : CompressedAutomaton Symbol :=
  (fromConcurrentAutomaton pulseSequential ConcurrentState.eraseReward Symbol.isEpsilon
    (FrontierQueue.ofReward fun s => s.reward) {} 20).get (by decide)

theorem pulse_compressed : fromConcurrentAutomaton pulseSequential ConcurrentState.eraseReward Symbol.isEpsilon
    (FrontierQueue.ofReward fun s => s.reward) {} 20 = some pulseCompressed := by simp [pulseCompressed]

/-- the tables agree as long as the wrapper has seen the initial state only -/
theorem pulse_synchronised : Built Symbol.isEpsilon pulseCompressed ∧
    Synchronised Symbol.isEpsilon (wrapperCalls pulsePreemptive pulseCompressed [pulseStart]) := by
  have hbuilt : Built Symbol.isEpsilon pulseCompressed := .build .empty pulse_compressed
  refine ⟨hbuilt, (synchronised_iff hbuilt pulsePreemptive [pulseStart]).2 ⟨?_, ?_⟩⟩
  · decide
  · apply noClash_of_length
    calc pulseCompressed.symbolTranslation.length = 3 := by decide
      _ ≤ 2 ^ 16 := by norm_num

/-- the second thread has passed the wait -/
def pulsePassed : ConcurrentState :=
  ((pulsePreemptive.trace pulseStart [{ operation := .notify, loc := ⟨0, 3⟩ }, { operation := .wait, loc := ⟨1, 3⟩ }]).get
    (by decide)).2

/-- its write has no entry in the epsilon table -/
theorem pulse_not_synchronised : ¬∀ (p : Program) (fuel : ℕ) (c : CompressedAutomaton Symbol)
    (states : List ConcurrentState),
      fromConcurrentAutomaton (ConcurrentAutomaton.ofProgram p false false).automaton ConcurrentState.eraseReward
        Symbol.isEpsilon (FrontierQueue.ofReward fun s => s.reward) {} fuel = some c →
      Synchronised Symbol.isEpsilon
        (wrapperCalls (ConcurrentAutomaton.ofProgram p true false).automaton c states) := by
  intro hall
  have hlen := (hall pulse 20 pulseCompressed [pulsePassed] pulse_compressed).epsilon
  have hepsilon : (wrapperCalls pulsePreemptive pulseCompressed [pulsePassed]).epsilon.length = 3 := by decide
  have hmap : (wrapperCalls pulsePreemptive pulseCompressed [pulsePassed]).symbolMap.length = 4 := by decide
  exact absurd (hepsilon.symm.trans (hlen.trans hmap)) (by decide)

end CompressedAutomaton

end Liss
