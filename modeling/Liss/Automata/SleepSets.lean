/-
The search with sleep sets expands the same states as the search without, if every reachable state is reached by a word
that leads there in any order.

Such a word is open for a sleep set if no symbol that can come first in it is asleep. From a state that has been
expanded with a sleep set for which a word is open, some symbol that can come first has been taken, and the first one
of these that was taken leads to an item for whose sleep set the rest of the word is open again. This is kept by every
round, also when a state is met again and its sleep set shrinks. What is asleep stays offered, since only independent
symbols are taken meanwhile.

- `searched_step`, `covered_step`: one round of the loop;
- `run_total`: the search ends;
- `expanded_iff`: it expands the reachable states;
- `expanded_eq`: both searches expand the same states.
-/
import Liss.Automata.PerfTest
import Liss.Lib.Commutation

namespace Liss.PerfTest

open Automaton

variable {S K L Sym : Type*} [DecidableEq K] [DecidableEq L]
  {A : Automaton S Sym} {key : S → K} {label : Sym → L} {indep : Sym → Sym → Bool} {order : ℕ → SymbolOrder Sym}

set_option linter.unusedSectionVars false

/-! ## Sets of symbols -/

theorem contains_iff {set : List Sym} {sigma : Sym} : contains label set sigma = true ↔ label sigma ∈ set.map label :=
  decide_eq_true_iff

theorem labels_insertSymbol {set : List Sym} {sigma : Sym} {x : L} :
    x ∈ (insertSymbol label set sigma).map label ↔ x ∈ set.map label ∨ x = label sigma := by
  unfold insertSymbol
  split_ifs with h
  · rw [contains_iff] at h
    constructor
    · exact .inl
    · intro hx
      rcases hx with hx | rfl
      · exact hx
      · exact h
  · rw [List.map_append, List.mem_append, List.map_singleton, List.mem_singleton]

theorem mem_insertSymbol {set : List Sym} {sigma tau : Sym} (h : tau ∈ insertSymbol label set sigma) :
    tau ∈ set ∨ tau = sigma := by
  unfold insertSymbol at h
  split_ifs at h
  · exact .inl h
  · simpa using h

theorem nodup_insertSymbol {set : List Sym} (h : (set.map label).Nodup) (sigma : Sym) :
    ((insertSymbol label set sigma).map label).Nodup := by
  unfold insertSymbol
  split_ifs with hc
  · exact h
  · rw [contains_iff] at hc
    rw [List.map_append, List.map_singleton]
    exact h.append (List.nodup_singleton _) (by simpa using hc)

theorem labels_insertAll (set l : List Sym) {x : L} :
    x ∈ (l.foldl (insertSymbol label) set).map label ↔ x ∈ set.map label ∨ x ∈ l.map label := by
  induction l generalizing set with
  | nil => simp
  | cons a l ih =>
    rw [List.foldl_cons, ih, labels_insertSymbol, List.map_cons, List.mem_cons, or_assoc]

theorem mem_insertAll {set l : List Sym} {tau : Sym} (h : tau ∈ l.foldl (insertSymbol label) set) :
    tau ∈ set ∨ tau ∈ l := by
  induction l generalizing set with
  | nil => exact .inl h
  | cons a l ih =>
    rcases ih h with h | h
    · rcases mem_insertSymbol h with h | rfl
      · exact .inl h
      · exact .inr List.mem_cons_self
    · exact .inr (List.mem_cons_of_mem a h)

theorem nodup_insertAll {set l : List Sym} (h : (set.map label).Nodup) :
    ((l.foldl (insertSymbol label) set).map label).Nodup := by
  induction l generalizing set with
  | nil => exact h
  | cons a l ih => exact ih (nodup_insertSymbol h a)

theorem mem_setRemove {set other : List Sym} {tau : Sym} :
    tau ∈ setRemove label set other ↔ tau ∈ set ∧ label tau ∉ other.map label := by
  rw [setRemove, List.mem_filter, Bool.not_eq_true', Bool.eq_false_iff, Ne, contains_iff]

theorem mem_setIntersect {set other : List Sym} {tau : Sym} :
    tau ∈ setIntersect label set other ↔ tau ∈ set ∧ label tau ∈ other.map label := by
  rw [setIntersect, List.mem_filter, contains_iff]

/-! ## The loop over the symbols -/

omit [DecidableEq K] in
/-- what is pushed for a symbol: its successors, with the symbols that sleep by then and are independent of it -/
theorem mem_pushed {s : S} (l : List Sym) (p : List Sym × List (FrontierItem S Sym)) {item : FrontierItem S Sym} :
    item ∈ (l.foldl (visitSymbol A label indep s) p).2 ↔ item ∈ p.2 ∨ ∃ l1 sigma l2, l = l1 ++ sigma :: l2 ∧
      item.s ∈ A.succ s sigma ∧
        item.sleepSet = (l1.foldl (insertSymbol label) p.1).filter fun tau => indep tau sigma := by
  have hpush : ∀ (succ : List S) (sleep : List Sym) (frontier : List (FrontierItem S Sym)),
      item ∈ succ.foldl (fun frontier state => ⟨state, sleep⟩ :: frontier) frontier ↔
        item ∈ frontier ∨ item.s ∈ succ ∧ item.sleepSet = sleep := by
    intro succ
    induction succ with
    | nil => simp
    | cons t succ ih =>
      intro sleep frontier
      obtain ⟨s', sleep'⟩ := item
      rw [List.foldl_cons, ih, List.mem_cons, List.mem_cons, FrontierItem.mk.injEq]
      tauto
  induction l generalizing p with
  | nil => simp
  | cons a l ih =>
    rw [List.foldl_cons]
    refine (ih (visitSymbol A label indep s p a)).trans ?_
    rw [visitSymbol, hpush, or_assoc]
    refine or_congr_right ?_
    constructor
    · intro h
      rcases h with ⟨hs, hsleep⟩ | ⟨l1, sigma, l2, rfl, hs, hsleep⟩
      · exact ⟨[], a, l, rfl, hs, hsleep⟩
      · exact ⟨a :: l1, sigma, l2, rfl, hs, hsleep⟩
    · intro h
      obtain ⟨l1, sigma, l2, heq, hs, hsleep⟩ := h
      cases l1 with
      | nil =>
        obtain ⟨rfl, rfl⟩ := List.cons.inj heq
        exact .inl ⟨hs, hsleep⟩
      | cons b l1 =>
        obtain ⟨rfl, rfl⟩ := List.cons.inj heq
        exact .inr ⟨l1, sigma, l2, rfl, hs, hsleep⟩

/-- what the two calls of the set functions give -/
structure Called (A : Automaton S Sym) (key : S → K) (label : Sym → L) (seen : K → Option (List Sym))
    (current : FrontierItem S Sym) (symbols sleepSet : List Sym) : Prop where
  sleep : ∀ tau ∈ sleepSet, tau ∈ current.sleepSet
  nodup : (current.sleepSet.map label).Nodup → (sleepSet.map label).Nodup
  new : seen (key current.s) = none → (∀ tau ∈ symbols, tau ∈ A.next current.s) ∧
    ∀ x ∈ (A.next current.s).map label, x ∉ sleepSet.map label → x ∈ symbols.map label
  again : ∀ stored, seen (key current.s) = some stored → (∀ tau ∈ symbols, tau ∈ stored) ∧
    (∀ x ∈ sleepSet.map label, x ∈ stored.map label) ∧ (∀ tau ∈ symbols, label tau ∉ sleepSet.map label) ∧
    ∀ x ∈ stored.map label, x ∉ sleepSet.map label → x ∈ symbols.map label

variable (A key label) in
theorem called (seen : K → Option (List Sym)) (current : FrontierItem S Sym) :
    Called A key label seen current (nextSymbols A key label seen current).1
      (nextSymbols A key label seen current).2 := by
  unfold nextSymbols
  cases hseen : seen (key current.s) with
  | none =>
    refine ⟨fun tau h => h, fun h => h, fun _ => ⟨fun tau htau => ?_, fun x hx hnot => ?_⟩, fun stored h => ?_⟩
    · exact (mem_insertAll (mem_setRemove.1 htau).1).resolve_left (by simp)
    · obtain ⟨tau, htau, rfl⟩ := List.mem_map.1 ((labels_insertAll [] _).2 (.inr hx))
      exact List.mem_map_of_mem (mem_setRemove.2 ⟨htau, hnot⟩)
    · rw [hseen] at h
      cases h
  | some stored =>
    have hlabels : ∀ x, x ∈ (setIntersect label current.sleepSet stored).map label ↔
        x ∈ current.sleepSet.map label ∧ x ∈ stored.map label := by
      intro x
      constructor
      · intro hx
        obtain ⟨tau, htau, rfl⟩ := List.mem_map.1 hx
        obtain ⟨h1, h2⟩ := mem_setIntersect.1 htau
        exact ⟨List.mem_map_of_mem h1, h2⟩
      · intro hx
        obtain ⟨tau, htau, rfl⟩ := List.mem_map.1 hx.1
        exact List.mem_map_of_mem (mem_setIntersect.2 ⟨htau, hx.2⟩)
    refine ⟨fun tau h => (mem_setIntersect.1 h).1, fun h => h.sublist ?_, fun h => ?_, fun stored' h => ?_⟩
    · exact (List.filter_sublist).map label
    · rw [hseen] at h
      cases h
    · rw [hseen] at h
      obtain rfl := Option.some.inj h
      refine ⟨fun tau htau => (mem_setRemove.1 htau).1, fun x hx => ((hlabels x).1 hx).2, fun tau htau hx => ?_,
        fun x hx hnot => ?_⟩
      · exact (mem_setRemove.1 htau).2 ((hlabels _).1 hx).1
      · obtain ⟨tau, htau, rfl⟩ := List.mem_map.1 hx
        refine List.mem_map_of_mem (mem_setRemove.2 ⟨htau, fun hsleep => hnot ?_⟩)
        exact (hlabels _).2 ⟨hsleep, hx⟩

/-! ## One round -/

theorem expand_seen (b : Explored S K Sym) (current : FrontierItem S Sym) :
    (expand A key label indep order b current).1.seen =
      Function.update b.seen (key current.s) (some (nextSymbols A key label b.seen current).2) := rfl

theorem expand_expanded (b : Explored S K Sym) (current : FrontierItem S Sym) :
    (expand A key label indep order b current).1.expanded = b.expanded ++ [current.s] := rfl

theorem expand_pushed (b : Explored S K Sym) (current : FrontierItem S Sym) :
    (expand A key label indep order b current).2 =
      (((order b.expanded.length).visit (nextSymbols A key label b.seen current).1).foldl
        (visitSymbol A label indep current.s) ((nextSymbols A key label b.seen current).2, [])).2 := rfl

/-! ## Reachable states -/

/-- an independent symbol stays offered -/
def Persistent (A : Automaton S Sym) (indep : Sym → Sym → Bool) : Prop :=
  ∀ t : Trans S Sym, A.Reachable t.src → A.Step t → ∀ tau ∈ A.next t.src, indep tau t.sym = true → tau ∈ A.next t.dst

/-- what sleeps is offered, and nothing sleeps twice -/
structure Asleep (A : Automaton S Sym) (label : Sym → L) (s : S) (sleepSet : List Sym) : Prop where
  offered : ∀ tau ∈ sleepSet, tau ∈ A.next s
  nodup : (sleepSet.map label).Nodup

/-- the invariant of the loop -/
structure Searched (A : Automaton S Sym) (key : S → K) (label : Sym → L) (b : Explored S K Sym)
    (frontier : List (FrontierItem S Sym)) : Prop where
  pending : ∀ item ∈ frontier, A.Reachable item.s ∧ Asleep A label item.s item.sleepSet
  expanded : ∀ s ∈ b.expanded, A.Reachable s
  known : ∀ k, (b.seen k).isSome = true ↔ k ∈ b.expanded.map key
  asleep : ∀ s, A.Reachable s → ∀ stored, b.seen (key s) = some stored → Asleep A label s stored

theorem searched_start : Searched A key label {} (A.initial.map fun s => { s := s }) := by
  refine ⟨fun item hitem => ?_, by simp, by simp, fun s _ stored h => by cases h⟩
  obtain ⟨s, hs, rfl⟩ := List.mem_map.1 hitem
  exact ⟨.initial hs, by simp, List.nodup_nil⟩

/-- the symbols of a round are offered -/
theorem Searched.symbols_offered {b : Explored S K Sym} {current : FrontierItem S Sym}
    {frontier : List (FrontierItem S Sym)} (h : Searched A key label b (current :: frontier)) :
    ∀ tau ∈ (nextSymbols A key label b.seen current).1, tau ∈ A.next current.s := by
  have hcalled := called A key label b.seen current
  obtain ⟨hreach, -⟩ := h.pending current List.mem_cons_self
  intro tau htau
  cases hseen : b.seen (key current.s) with
  | none => exact (hcalled.new hseen).1 tau htau
  | some stored => exact (h.asleep current.s hreach stored hseen).offered tau ((hcalled.again stored hseen).1 tau htau)

/-- **One round.** -/
theorem searched_step (hr : A.Respects key) (hp : Persistent A indep) (b : Explored S K Sym)
    (current : FrontierItem S Sym) (frontier : List (FrontierItem S Sym))
    (h : Searched A key label b (current :: frontier)) :
    Searched A key label (expand A key label indep order b current).1
      ((expand A key label indep order b current).2 ++ frontier) := by
  have hcalled := called A key label b.seen current
  have hoffered := h.symbols_offered
  obtain ⟨hreach, hasleep⟩ := h.pending current List.mem_cons_self
  rw [expand_pushed]
  generalize (nextSymbols A key label b.seen current).1 = symbols at hcalled hoffered ⊢
  refine ⟨fun item hitem => ?_, fun s hs => ?_, fun k => ?_, fun s hs stored hstored => ?_⟩
  · rcases List.mem_append.1 hitem with hitem | hitem
    · obtain ⟨l1, sigma, l2, hl, hs, hsleep⟩ := ((mem_pushed _ _).1 hitem).resolve_left List.not_mem_nil
      have hvisit : ∀ tau, tau ∈ (order b.expanded.length).visit symbols → tau ∈ A.next current.s :=
        fun tau htau => hoffered tau (((order b.expanded.length).perm symbols).mem_iff.1 htau)
      have hstep : A.Step ⟨current.s, sigma, item.s⟩ := ⟨hvisit sigma (by simp [hl]), hs⟩
      refine ⟨hreach.step hstep, fun tau htau => ?_, ?_⟩
      · rw [hsleep, List.mem_filter] at htau
        have hnext : tau ∈ A.next current.s := by
          rcases mem_insertAll htau.1 with htau | htau
          · exact hasleep.offered tau (hcalled.sleep tau htau)
          · exact hvisit tau (by simp [hl, htau])
        exact hp _ hreach hstep tau hnext htau.2
      · rw [hsleep]
        exact (nodup_insertAll (hcalled.nodup hasleep.nodup)).sublist (List.filter_sublist.map label)
    · exact h.pending item (List.mem_cons_of_mem current hitem)
  · rcases List.mem_append.1 hs with hs | hs
    · exact h.expanded s hs
    · rw [List.mem_singleton.1 hs]
      exact hreach
  · rw [expand_seen, expand_expanded, List.map_append, List.mem_append, List.map_singleton, List.mem_singleton,
      ← h.known]
    by_cases hk : k = key current.s
    · rw [hk, Function.update_self]
      simp
    · rw [Function.update_of_ne hk]
      simp [hk]
  · rw [expand_seen] at hstored
    by_cases hk : key s = key current.s
    · rw [hk, Function.update_self] at hstored
      obtain rfl := Option.some.inj hstored
      refine ⟨fun tau htau => ?_, hcalled.nodup hasleep.nodup⟩
      rw [hr.next s current.s hk]
      exact hasleep.offered tau (hcalled.sleep tau htau)
    · rw [Function.update_of_ne hk] at hstored
      exact h.asleep s hs stored hstored

/-! ## Termination -/

/-- what a key still costs -/
def cost (bound : ℕ) : Option (List Sym) → ℕ
  | none => bound + 1
  | some stored => stored.length

theorem exists_bound (hr : A.Respects key) (hfin : A.FiniteKeys key) :
    ∃ bound, ∀ s, A.Reachable s → (A.next s).length ≤ bound := by
  obtain ⟨univ, huniv⟩ := hfin.exists_list
  -- the states with one key offer equally many symbols
  have hlist : ∀ keys : List K, ∃ bound, ∀ s, key s ∈ keys → (A.next s).length ≤ bound := by
    intro keys
    induction keys with
    | nil => exact ⟨0, by simp⟩
    | cons k keys ih =>
      obtain ⟨bound, hbound⟩ := ih
      by_cases hk : ∃ s, key s = k
      · obtain ⟨s0, rfl⟩ := hk
        refine ⟨max (A.next s0).length bound, fun s hs => ?_⟩
        rcases List.mem_cons.1 hs with heq | hs
        · rw [hr.next s s0 heq]
          exact Nat.le_max_left _ _
        · exact (hbound s hs).trans (Nat.le_max_right _ _)
      · refine ⟨bound, fun s hs => hbound s ?_⟩
        exact (List.mem_cons.1 hs).resolve_left fun heq => hk ⟨s, heq⟩
  obtain ⟨bound, hbound⟩ := hlist univ
  exact ⟨bound, fun s hs => hbound s (huniv s hs)⟩

theorem length_le_of_labels {l l' : List Sym} (hl : (l.map label).Nodup) (h : ∀ x ∈ l.map label, x ∈ l'.map label) :
    l.length ≤ l'.length := by
  have hsub := (hl.subperm h).length_le
  rwa [List.length_map, List.length_map] at hsub

theorem length_lt_of_labels {l l' : List Sym} (hl : (l.map label).Nodup) (h : ∀ x ∈ l.map label, x ∈ l'.map label)
    {tau : Sym} (htau : tau ∈ l') (hnot : label tau ∉ l.map label) : l.length < l'.length := by
  have hcons : ((tau :: l).map label).Nodup := by
    rw [List.map_cons]
    exact List.nodup_cons.2 ⟨hnot, hl⟩
  have hsub : ∀ x ∈ (tau :: l).map label, x ∈ l'.map label := by
    intro x hx
    rcases List.mem_cons.1 hx with rfl | hx
    · exact List.mem_map_of_mem htau
    · exact h x hx
  exact length_le_of_labels hcons hsub

variable (indep order) in
/-- the key of the round costs less, or nothing is pushed -/
theorem cost_expand {bound : ℕ} (hbound : ∀ s, A.Reachable s → (A.next s).length ≤ bound) {b : Explored S K Sym}
    {current : FrontierItem S Sym} {frontier : List (FrontierItem S Sym)}
    (h : Searched A key label b (current :: frontier)) :
    cost bound ((expand A key label indep order b current).1.seen (key current.s)) <
        cost bound (b.seen (key current.s)) ∨
      cost bound ((expand A key label indep order b current).1.seen (key current.s)) ≤
        cost bound (b.seen (key current.s)) ∧ (expand A key label indep order b current).2 = [] := by
  have hcalled := called A key label b.seen current
  obtain ⟨hreach, hasleep⟩ := h.pending current List.mem_cons_self
  rw [expand_seen, expand_pushed, Function.update_self]
  have hnodup := hcalled.nodup hasleep.nodup
  generalize (nextSymbols A key label b.seen current).1 = symbols at hcalled ⊢
  generalize (nextSymbols A key label b.seen current).2 = sleepSet at hcalled hnodup ⊢
  cases hseen : b.seen (key current.s) with
  | none =>
    left
    have hle : sleepSet.length ≤ (A.next current.s).length := by
      apply length_le_of_labels hnodup
      intro x hx
      obtain ⟨tau, htau, rfl⟩ := List.mem_map.1 hx
      exact List.mem_map_of_mem (hasleep.offered tau (hcalled.sleep tau htau))
    exact Nat.lt_succ_of_le (hle.trans (hbound current.s hreach))
  | some stored =>
    obtain ⟨hmem, hsub, hawake, -⟩ := hcalled.again stored hseen
    cases hsymbols : symbols with
    | nil =>
      right
      refine ⟨length_le_of_labels hnodup hsub, ?_⟩
      rw [List.eq_nil_of_length_eq_zero (((order b.expanded.length).perm []).length_eq)]
      rfl
    | cons tau rest =>
      left
      have htau : tau ∈ symbols := hsymbols ▸ List.mem_cons_self
      exact length_lt_of_labels hnodup hsub (hmem tau htau) (hawake tau htau)

variable (label order) in
/-- **The search ends.** -/
theorem run_total (hr : A.Respects key) (hp : Persistent A indep) (hfin : A.FiniteKeys key) :
    ∃ bound, ∀ fuel ≥ bound, ∃ r, run A key label indep order fuel = some r := by
  obtain ⟨bound, hbound⟩ := exists_bound hr hfin
  obtain ⟨univ, huniv⟩ := hfin.exists_list
  apply Stack.run_total (Searched A key label) (fun b => ∑ k ∈ univ.toFinset, cost bound (b.seen k)) ?_ searched_start
  intro b current frontier h
  refine ⟨searched_step hr hp b current frontier h, ?_⟩
  have hkey : key current.s ∈ univ.toFinset :=
    List.mem_toFinset.2 (huniv current.s (h.pending current List.mem_cons_self).1)
  have hother : ∀ k, k ≠ key current.s → (expand A key label indep order b current).1.seen k = b.seen k :=
    fun k hk => Function.update_of_ne hk _ _
  have hrest : ∀ k ∈ univ.toFinset, k ≠ key current.s →
      cost bound ((expand A key label indep order b current).1.seen k) = cost bound (b.seen k) :=
    fun k _ hk => by rw [hother k hk]
  have hle : ∀ k ∈ univ.toFinset, cost bound ((expand A key label indep order b current).1.seen (key current.s)) ≤
      cost bound (b.seen (key current.s)) →
      cost bound ((expand A key label indep order b current).1.seen k) ≤ cost bound (b.seen k) := by
    intro k hk hcur
    by_cases heq : k = key current.s
    · rw [heq]
      exact hcur
    · exact (hrest k hk heq).le
  rcases cost_expand indep order hbound h with hlt | ⟨hcur, hnil⟩
  · exact .inl (Finset.sum_lt_sum (fun k hk => hle k hk hlt.le) ⟨_, hkey, hlt⟩)
  · exact .inr ⟨Finset.sum_le_sum fun k hk => hle k hk hcur, hnil⟩

/-! ## Open words -/

variable [DecidableEq Sym]

/-- symbols with the same label are interchangeable -/
structure RespectsLabel (A : Automaton S Sym) (key : S → K) (label : Sym → L) (indep : Sym → Sym → Bool) : Prop where
  step : ∀ t : Trans S Sym, A.Reachable t.src → A.Step t → ∀ tau, label t.sym = label tau → tau ∈ A.next t.src →
    ∃ y, A.Step ⟨t.src, tau, y⟩ ∧ key y = key t.dst
  indep : ∀ a a' b b', label a = label a' → label b = label b' → indep a b = indep a' b'

/-- nothing that can come first is asleep -/
def Open (label : Sym → L) (indep : Sym → Sym → Bool) (sleepSet w : List Sym) : Prop :=
  ∀ a, Initial indep a w → label a ∉ sleepSet.map label

theorem Open.mono {l l' w : List Sym} (h : Open label indep l w) (hsub : ∀ x ∈ l'.map label, x ∈ l.map label) :
    Open label indep l' w := fun a ha hx => h a ha (hsub _ hx)

theorem open_nil (w : List Sym) : Open label indep [] w := fun _ _ h => by simp at h

/-- the first element with a property -/
theorem exists_first {P : Sym → Prop} {l : List Sym} (h : ∃ a ∈ l, P a) :
    ∃ l1 a l2, l = l1 ++ a :: l2 ∧ P a ∧ ∀ b ∈ l1, ¬P b := by
  classical
  induction l with
  | nil => simp at h
  | cons b l ih =>
    by_cases hb : P b
    · exact ⟨[], b, l, rfl, hb, by simp⟩
    · obtain ⟨a, ha, hPa⟩ := h
      rcases List.mem_cons.1 ha with rfl | ha
      · exact absurd hPa hb
      · obtain ⟨l1, a', l2, rfl, hP, hl1⟩ := ih ⟨a, ha, hPa⟩
        refine ⟨b :: l1, a', l2, rfl, hP, fun c hc => ?_⟩
        rcases List.mem_cons.1 hc with rfl | hc
        · exact hb
        · exact hl1 c hc

/-- the rest of a word, from an item -/
structure Leads (A : Automaton S Sym) (key : S → K) (label : Sym → L) (indep : Sym → Sym → Bool)
    (item : FrontierItem S Sym) (n : ℕ) (k : K) : Prop where
  reachable : A.Reachable item.s
  word : ∃ w, AnyOrder A key indep item.s w k ∧ w.length < n ∧ Open label indep item.sleepSet w

/-- **The first symbol that is taken.** If a symbol that can come first in an open word is taken, an item is pushed from
which the rest of the word is open. -/
theorem leads_of_visited (hr : A.Respects key) (hl : RespectsLabel A key label indep) {s : S} {w : List Sym} {k : K}
    (hs : A.Reachable s) (hw : AnyOrder A key indep s w k) {sleepSet symbols : List Sym}
    (hopen : Open label indep sleepSet w) (hsymbols : ∀ tau ∈ symbols, tau ∈ A.next s)
    (hfirst : ∃ sigma ∈ symbols, ∃ a, Initial indep a w ∧ label a = label sigma) :
    ∃ item ∈ (symbols.foldl (visitSymbol A label indep s) (sleepSet, [])).2,
      Leads A key label indep item w.length k := by
  obtain ⟨l1, sigma, l2, heq, ⟨a, ha, hlabel⟩, hl1⟩ := exists_first hfirst
  obtain ⟨x, hx, hrest⟩ := hw.front ha
  -- the successor of the symbol that is taken
  have hsigma : sigma ∈ symbols := by
    rw [heq]
    exact List.mem_append_right _ List.mem_cons_self
  obtain ⟨y, hstep, hkey⟩ := hl.step ⟨s, a, x⟩ hs hx sigma hlabel (hsymbols sigma hsigma)
  refine ⟨⟨y, (l1.foldl (insertSymbol label) sleepSet).filter fun tau => indep tau sigma⟩, ?_, hs.step hstep,
    w.erase a, hrest.respects hr hkey, ?_, fun c hc => ?_⟩
  · exact (mem_pushed _ _).2 (.inr ⟨l1, sigma, l2, heq, hstep.2, rfl⟩)
  · have hlength := length_erase_of_initial ha
    omega
  · intro hsleep
    obtain ⟨tau, htau, hc'⟩ := List.mem_map.1 hsleep
    rw [List.mem_filter] at htau
    have hca : indep c a = true := by
      rw [hl.indep c tau a sigma hc'.symm hlabel]
      exact htau.2
    have hcw := initial_of_erase ha hc hca
    rcases mem_insertAll htau.1 with htau | htau
    · exact hopen c hcw (hc' ▸ List.mem_map_of_mem htau)
    · exact hl1 tau htau ⟨c, hcw, hc'.symm⟩

/-! ## Covered words -/

/-- the state is about to be expanded with this sleep set, or has been with a smaller one -/
def Node (key : S → K) (label : Sym → L) (b : Explored S K Sym) (frontier : List (FrontierItem S Sym))
    (item : FrontierItem S Sym) : Prop :=
  item ∈ frontier ∨ ∃ stored, b.seen (key item.s) = some stored ∧
    ∀ x ∈ stored.map label, x ∈ item.sleepSet.map label

/-- the invariant of the loop: an open word from a state that has been expanded goes on from some node -/
structure Covered (A : Automaton S Sym) (key : S → K) (label : Sym → L) (indep : Sym → Sym → Bool)
    (b : Explored S K Sym) (frontier : List (FrontierItem S Sym)) : Prop where
  initial : ∀ s ∈ A.initial, Node key label b frontier { s := s }
  advance : ∀ s, A.Reachable s → ∀ stored, b.seen (key s) = some stored → ∀ w k, AnyOrder A key indep s w k → w ≠ [] →
    Open label indep stored w → ∃ item, Node key label b frontier item ∧ Leads A key label indep item w.length k

theorem covered_start : Covered A key label indep {} (A.initial.map fun s => { s := s }) :=
  ⟨fun s hs => .inl (List.mem_map_of_mem hs), fun s _ stored h => by cases h⟩

/-- nodes stay nodes -/
theorem node_step {b : Explored S K Sym} {current : FrontierItem S Sym} {frontier : List (FrontierItem S Sym)}
    {item : FrontierItem S Sym} (h : Node key label b (current :: frontier) item) :
    Node key label (expand A key label indep order b current).1
      ((expand A key label indep order b current).2 ++ frontier) item := by
  have hcalled := called A key label b.seen current
  rcases h with h | ⟨stored, hstored, hsub⟩
  · rcases List.mem_cons.1 h with rfl | h
    · refine .inr ⟨_, by rw [expand_seen, Function.update_self], fun x hx => ?_⟩
      obtain ⟨tau, htau, rfl⟩ := List.mem_map.1 hx
      exact List.mem_map_of_mem (hcalled.sleep tau htau)
    · exact .inl (List.mem_append_right _ h)
  · by_cases hk : key item.s = key current.s
    · refine .inr ⟨_, by rw [expand_seen, hk, Function.update_self], fun x hx => ?_⟩
      rw [hk] at hstored
      exact hsub x ((hcalled.again stored hstored).2.1 x hx)
    · exact .inr ⟨stored, by rw [expand_seen, Function.update_of_ne hk]; exact hstored, hsub⟩

/-- **One round.** -/
theorem covered_step (hr : A.Respects key) (hl : RespectsLabel A key label indep) (b : Explored S K Sym)
    (current : FrontierItem S Sym) (frontier : List (FrontierItem S Sym))
    (hb : Searched A key label b (current :: frontier)) (h : Covered A key label indep b (current :: frontier)) :
    Covered A key label indep (expand A key label indep order b current).1
      ((expand A key label indep order b current).2 ++ frontier) := by
  refine ⟨fun s hs => node_step (h.initial s hs), fun s hs stored hstored w k hw hne hopen => ?_⟩
  -- what went on from a node before still does
  have hold : (∃ item, Node key label b (current :: frontier) item ∧ Leads A key label indep item w.length k) →
      ∃ item, Node key label (expand A key label indep order b current).1
        ((expand A key label indep order b current).2 ++ frontier) item ∧
        Leads A key label indep item w.length k := by
    intro hitem
    obtain ⟨item, hnode, hleads⟩ := hitem
    exact ⟨item, node_step hnode, hleads⟩
  rw [expand_seen] at hstored
  by_cases hk : key s = key current.s
  · rw [hk, Function.update_self] at hstored
    obtain rfl := Option.some.inj hstored
    have hcalled := called A key label b.seen current
    have hoffered := hb.symbols_offered
    obtain ⟨hreach, -⟩ := hb.pending current List.mem_cons_self
    have hw' : AnyOrder A key indep current.s w k := hw.respects hr hk.symm
    -- a symbol that can come first, among the labels of the symbols of this round
    have htaken : (∃ a, Initial indep a w ∧ label a ∈ (nextSymbols A key label b.seen current).1.map label) →
        ∃ item, Node key label (expand A key label indep order b current).1
          ((expand A key label indep order b current).2 ++ frontier) item ∧
          Leads A key label indep item w.length k := by
      intro hfirst
      obtain ⟨a, ha, hlabel⟩ := hfirst
      obtain ⟨sigma, hsigma, hlabel⟩ := List.mem_map.1 hlabel
      have hperm := (order b.expanded.length).perm (nextSymbols A key label b.seen current).1
      obtain ⟨item, hitem, hleads⟩ := leads_of_visited hr hl hreach hw' hopen
        (fun tau htau => hoffered tau (hperm.mem_iff.1 htau)) ⟨sigma, hperm.mem_iff.2 hsigma, a, ha, hlabel.symm⟩
      exact ⟨item, .inl (List.mem_append_left _ hitem), hleads⟩
    cases hseen : b.seen (key current.s) with
    | none =>
      obtain ⟨a, ha⟩ := initial_head indep hne
      obtain ⟨x, hx, -⟩ := hw'.front ha
      exact htaken ⟨a, ha, (hcalled.new hseen).2 _ (List.mem_map_of_mem hx.1) (hopen a ha)⟩
    | some stored =>
      by_cases hawake : Open label indep stored w
      · exact hold (h.advance current.s hreach stored hseen w k hw' hne hawake)
      · -- a symbol that can come first was asleep when the state was met before, and is awake now
        simp only [Open, not_forall, not_not, exists_prop] at hawake
        obtain ⟨a, ha, hstored⟩ := hawake
        exact htaken ⟨a, ha, (hcalled.again stored hseen).2.2.2 _ hstored (hopen a ha)⟩
  · rw [Function.update_of_ne hk] at hstored
    exact hold (h.advance s hs stored hstored w k hw hne hopen)

/-- an open word from a node of a finished search ends in a state that has been seen -/
theorem Covered.seen {b : Explored S K Sym} (h : Covered A key label indep b []) {n : ℕ} {item : FrontierItem S Sym}
    {k : K} (hnode : Node key label b [] item) (hleads : Leads A key label indep item n k) :
    (b.seen k).isSome = true := by
  induction n using Nat.strong_induction_on generalizing item with
  | _ n ih =>
    obtain ⟨hreach, w, hw, hlt, hopen⟩ := hleads
    obtain ⟨stored, hstored, hsub⟩ := hnode.resolve_left List.not_mem_nil
    by_cases hne : w = []
    · rw [← hw.eq_of_nil hne, hstored]
      rfl
    · obtain ⟨next, hnext, hrest⟩ := h.advance item.s hreach stored hstored w k hw hne (hopen.mono hsub)
      exact ih _ hlt hnext hrest

/-- **The search with sleep sets expands the reachable states.** -/
theorem expanded_iff (hr : A.Respects key) (hp : Persistent A indep) (hl : RespectsLabel A key label indep)
    (hre : Reorderable A key indep) {fuel : ℕ} {r : Explored S K Sym}
    (h : run A key label indep order fuel = some r) (k : K) :
    k ∈ r.expanded.map key ↔ ∃ s, A.Reachable s ∧ key s = k := by
  have hsearched : Searched A key label r [] :=
    Stack.run_inv (Searched A key label) (searched_step hr hp) searched_start h
  have hcovered : Searched A key label r [] ∧ Covered A key label indep r [] :=
    Stack.run_inv (fun b frontier => Searched A key label b frontier ∧ Covered A key label indep b frontier)
      (fun b current frontier hi => ⟨searched_step hr hp b current frontier hi.1,
        covered_step hr hl b current frontier hi.1 hi.2⟩) ⟨searched_start, covered_start⟩ h
  constructor
  · intro hk
    obtain ⟨s, hs, rfl⟩ := List.mem_map.1 hk
    exact ⟨s, hsearched.expanded s hs, rfl⟩
  · intro hk
    obtain ⟨u, hu, rfl⟩ := hk
    obtain ⟨s, hs, w, hw⟩ := hre u hu
    rw [← hsearched.known]
    exact hcovered.2.seen (hcovered.2.initial s hs) ⟨.initial hs, w, hw, Nat.lt_succ_self _, open_nil w⟩

/-- **Both searches expand the same states.** -/
theorem expanded_eq (hr : A.Respects key) (hp : Persistent A indep) (hl : RespectsLabel A key label indep)
    (hre : Reorderable A key indep) {fuel fuel' : ℕ} {r : Explored S K Sym} {r' : ExploredOld S K}
    (h : run A key label indep order fuel = some r) (h' : runOld A key fuel' = some r') (k : K) :
    k ∈ r.expanded.map key ↔ k ∈ r'.expanded.map key := by
  rw [expanded_iff hr hp hl hre h, old_expanded_iff hr h']

end Liss.PerfTest
