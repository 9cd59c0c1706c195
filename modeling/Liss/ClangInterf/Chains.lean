/-
The states that a traversal adds, and the links between them.

Whatever is traversed, new states come after the old ones, no old state gets a new predecessor, and the last state added
is the end of the chain. The states are a chain if each is linked to the one before it alone; they are not as soon as an
assignment adds more than one state for its left side, since only the last of them is linked to the states before.

- `Extends`, `Chain`, `Lost`: what a traversal does, with the rules for one traversal after another;
- `addState_traversed`, `joinInner_traversed`: one new state, and the splice of the inner visitor;
- `traverseStmt_traversed`: a traversal makes a chain or loses a state, by the left sides of the assignments.
-/
import Liss.Cfg.Constructed
import Liss.ClangInterf.StatementVisitor

namespace Liss

namespace StatementVisitor

open AbstractCfg

variable {u v w : StatementVisitor} {k : VisitContext}

def size (v : StatementVisitor) : ℕ := v.thread.states.length

/-- start and end of a visitor are both there or both not -/
structure Valid (v : StatementVisitor) : Prop where
  constructed : v.thread.Constructed
  lt : v.endState < v.size
  startLt : v.startState < v.size
  progress : v.startState = noState ↔ v.endState = noState

/-- `w` is `v` with new states -/
structure Extends (v w : StatementVisitor) : Prop where
  constructed : w.thread.Constructed
  le : v.size ≤ w.size
  kept : ∀ x y, y < v.size → (w.thread.HasEdge x y ↔ v.thread.HasEdge x y)
  same : w.size = v.size → w.startState = v.startState ∧ w.endState = v.endState
  last : v.size < w.size → w.endState + 1 = w.size
  start : v.endState ≠ noState → w.startState = v.startState
  first : v.size < w.size → v.endState = noState → v.size ≤ w.startState ∧ w.startState < w.size

/-- each new state is linked to the one before it, and to no other -/
structure Chain (v w : StatementVisitor) : Prop where
  link : ∀ x y, v.size ≤ y → y < w.size →
    (w.thread.HasEdge x y ↔ x ≠ noState ∧ x = if y = v.size then v.endState else y - 1)
  first : v.size < w.size → v.endState = noState → w.startState = v.size

/-- a new state has no predecessor, and is neither the first nor the last -/
def Lost (v w : StatementVisitor) : Prop :=
  ∃ y, v.size ≤ y ∧ y + 1 < w.size ∧ (∀ x, ¬w.thread.HasEdge x y) ∧ y ≠ w.startState

/-- the traversal of something that has `count` states and is a chain if `single` -/
structure Traversed (v w : StatementVisitor) (count : ℕ) (single : Bool) : Prop where
  ext : Extends v w
  count : w.size = v.size + count
  chain : single = true → Chain v w
  lost : single = false → Lost v w

/-! ## One traversal after another -/

theorem Valid.size_pos (h : v.Valid) : 0 < v.size := Nat.zero_lt_of_lt h.lt

theorem Extends.refl (hv : v.thread.Constructed) : Extends v v :=
  ⟨hv, le_refl _, fun _ _ _ => Iff.rfl, fun _ => ⟨rfl, rfl⟩, fun h => absurd h (lt_irrefl _), fun _ => rfl,
    fun h => absurd h (lt_irrefl _)⟩

theorem Valid.extends (hv : v.Valid) (h : Extends v w) : w.Valid := by
  have hpos := hv.size_pos
  have hstartLt := hv.startLt
  rcases Nat.lt_or_eq_of_le h.le with hlt | heq
  · have hlast := h.last hlt
    have hend : w.endState ≠ noState := by
      simp only [noState]
      omega
    by_cases hv0 : v.endState = noState
    · obtain ⟨h1, h2⟩ := h.first hlt hv0
      refine ⟨h.constructed, by omega, h2, iff_of_false ?_ hend⟩
      simp only [noState]
      omega
    · have hstart := h.start hv0
      exact ⟨h.constructed, by omega, by omega, iff_of_false (fun h0 => hv0 (hv.progress.1 (hstart ▸ h0))) hend⟩
  · obtain ⟨hstart, hend⟩ := h.same heq.symm
    exact ⟨h.constructed, by rw [hend, ← heq]; exact hv.lt, by rw [hstart, ← heq]; exact hstartLt,
      by rw [hstart, hend]; exact hv.progress⟩

theorem Extends.trans (hv : v.Valid) (h : Extends v u) (h' : Extends u w) : Extends v w := by
  have hu := hv.extends h
  have hpos := hv.size_pos
  refine ⟨h'.constructed, h.le.trans h'.le, fun x y hy => ?_, fun hsize => ?_, fun hlt => ?_, fun hend => ?_,
    fun hlt hend => ?_⟩
  · exact (h'.kept x y (Nat.lt_of_lt_of_le hy h.le)).trans (h.kept x y hy)
  · have h1 := h.le
    have h2 := h'.le
    obtain ⟨hs, he⟩ := h.same (by omega)
    obtain ⟨hs', he'⟩ := h'.same (by omega)
    exact ⟨hs'.trans hs, he'.trans he⟩
  · rcases Nat.lt_or_eq_of_le h'.le with hlt' | heq
    · exact h'.last hlt'
    · rw [(h'.same heq.symm).2, h.last (by omega), heq]
  · have hend' : u.endState ≠ noState := fun h0 => hend (hv.progress.1 ((h.start hend).symm.trans (hu.progress.2 h0)))
    exact (h'.start hend').trans (h.start hend)
  · rcases Nat.lt_or_eq_of_le h.le with hlt' | heq
    · have hlast := h.last hlt'
      have hend' : u.endState ≠ noState := by
        simp only [noState]
        omega
      rw [h'.start hend']
      have hle' := h'.le
      obtain ⟨h1, h2⟩ := h.first hlt' hend
      exact ⟨h1, by omega⟩
    · rw [heq]
      exact h'.first (by omega) ((h.same heq.symm).2.trans hend)

theorem Chain.trans (hv : v.Valid) (h : Extends v u) (h' : Extends u w) (hc : Chain v u) (hc' : Chain u w) :
    Chain v w := by
  have hpos := hv.size_pos
  refine ⟨fun x y hle hlt => ?_, fun hlt hend => ?_⟩
  · by_cases hy : y < u.size
    · exact (h'.kept x y hy).trans (hc.link x y hle hy)
    · rw [hc'.link x y (by omega) hlt]
      -- the first state of the second part is linked to the end of the first
      rcases Nat.lt_or_eq_of_le h.le with hlt' | heq
      · have hlast := h.last hlt'
        have hne : y ≠ v.size := by omega
        rw [if_neg hne]
        split_ifs with hyu
        · rw [hyu, show u.endState = u.size - 1 by omega]
        · rfl
      · rw [(h.same heq.symm).2, heq]
  · rcases Nat.lt_or_eq_of_le h.le with hlt' | heq
    · have hlast := h.last hlt'
      have hend' : u.endState ≠ noState := by
        simp only [noState]
        omega
      rw [h'.start hend']
      exact hc.first hlt' hend
    · rw [heq]
      exact hc'.first (by omega) ((h.same heq.symm).2.trans hend)

theorem Lost.left (hv : v.Valid) (h : Extends v u) (h' : Extends u w) (hl : Lost v u) : Lost v w := by
  obtain ⟨y, hle, hlt, hnone, hne⟩ := hl
  have hend : u.endState ≠ noState := by
    have := h.last (by omega)
    have := hv.size_pos
    simp only [noState]
    omega
  refine ⟨y, hle, Nat.lt_of_lt_of_le hlt h'.le, fun x hx => hnone x ((h'.kept x y (by omega)).1 hx), ?_⟩
  rw [h'.start hend]
  exact hne

theorem Lost.right (h : Extends v u) (hl : Lost u w) : Lost v w := by
  obtain ⟨y, hle, hlt, hnone, hne⟩ := hl
  exact ⟨y, h.le.trans hle, hlt, hnone, hne⟩

theorem Traversed.refl (hv : v.thread.Constructed) : Traversed v v 0 true := by
  refine ⟨.refl hv, rfl, fun _ => ⟨fun x y hle hlt => ?_, fun h => absurd h (lt_irrefl _)⟩, fun h => by simp at h⟩
  omega

/-- **One after another.** -/
theorem Traversed.trans (hv : v.Valid) {m n : ℕ} {s t : Bool} (h : Traversed v u m s) (h' : Traversed u w n t) :
    Traversed v w (m + n) (s && t) := by
  refine ⟨h.ext.trans hv h'.ext, by rw [h'.count, h.count, Nat.add_assoc], fun hst => ?_, fun hst => ?_⟩
  · rw [Bool.and_eq_true] at hst
    exact (h.chain hst.1).trans hv h.ext h'.ext (h'.chain hst.2)
  · cases hs : s with
    | false => exact (h.lost hs).left hv h.ext h'.ext
    | true => exact (h'.lost (by simpa [hs] using hst)).right h.ext

/-- what a traversal does not look at -/
theorem Traversed.congr {v' w' : StatementVisitor} {n : ℕ} {s : Bool} (h : Traversed v w n s)
    (hv : v'.thread = v.thread ∧ v'.startState = v.startState ∧ v'.endState = v.endState)
    (hw : w'.thread = w.thread ∧ w'.startState = w.startState ∧ w'.endState = w.endState) : Traversed v' w' n s := by
  obtain ⟨thread, store, startState, endState, lastNondet⟩ := v
  obtain ⟨thread', store', startState', endState', lastNondet'⟩ := v'
  obtain ⟨threadW, storeW, startStateW, endStateW, lastNondetW⟩ := w
  obtain ⟨threadW', storeW', startStateW', endStateW', lastNondetW'⟩ := w'
  obtain ⟨rfl, rfl, rfl⟩ := hv
  obtain ⟨rfl, rfl, rfl⟩ := hw
  obtain ⟨⟨h1, h2, h3, h4, h5, h6, h7⟩, hcount, hchain, hlost⟩ := h
  exact ⟨⟨h1, h2, h3, h4, h5, h6, h7⟩, hcount, fun hs => ⟨(hchain hs).link, (hchain hs).first⟩, hlost⟩

/-! ## One state -/

theorem modifyState_congr {c : AbstractCfg} {id : ℕ} {f g : State → State} (h : f (c.getState id) = g (c.getState id)) :
    c.modifyState id f = c.modifyState id g := by
  unfold modifyState
  congr 1
  apply List.ext_getElem?
  intro i
  rw [List.getElem?_modify, List.getElem?_modify]
  cases hi : c.states[i]? with
  | none => rfl
  | some s =>
    by_cases hid : id = i
    · subst hid
      obtain ⟨hlt, rfl⟩ := List.getElem?_eq_some_iff.1 hi
      rw [getState, List.getD_eq_getElem _ _ hlt] at h
      simp [h]
    · simp [hid]

/-- places for locks -/
theorem constructed_setLocks {c : AbstractCfg} (hc : c.Constructed) (id : ℕ) (before after : State → Option ℕ) :
    (c.modifyState id fun s => { s with lockBefore := before s, lockAfter := after s }).Constructed := by
  have := hc.setFields id (c.getState id).final (c.getState id).nonDet (c.getState id).returnState
    (before (c.getState id)) (after (c.getState id))
  rwa [modifyState_congr (g := fun s => { s with lockBefore := before s, lockAfter := after s }) rfl] at this

theorem hasEdge_joinLocks (prev next : ℕ) (c : AbstractCfg) (x y : ℕ) :
    (joinLocks prev next c).HasEdge x y ↔ c.HasEdge x y := by
  unfold joinLocks
  split_ifs
  · exact Iff.rfl
  · exact Iff.rfl

theorem length_joinLocks (prev next : ℕ) (c : AbstractCfg) :
    (joinLocks prev next c).states.length = c.states.length := by
  unfold joinLocks
  split_ifs
  · rw [length_states_modifyState, length_states_modifyState]
  · rfl

theorem constructed_joinLocks (prev next : ℕ) {c : AbstractCfg} (hc : c.Constructed) :
    (joinLocks prev next c).Constructed := by
  unfold joinLocks
  split_ifs
  · exact constructed_setLocks (constructed_setLocks hc prev State.lockBefore fun _ => none) next (fun _ => none)
      State.lockAfter
  · exact hc

/-- **A successor.** -/
theorem addSuccessor_spec (hc : v.thread.Constructed) (hend : v.endState < v.size) {next : ℕ} (hnext : next ≠ noState)
    (hlt : next < v.size) :
    (v.addSuccessor next).thread.Constructed ∧ (v.addSuccessor next).size = v.size ∧
      (∀ x y, (v.addSuccessor next).thread.HasEdge x y ↔
        v.thread.HasEdge x y ∨ v.endState ≠ noState ∧ v.endState = x ∧ next = y) ∧
      (v.addSuccessor next).endState = next ∧
      (v.addSuccessor next).startState = if v.endState = noState then next else v.startState := by
  unfold addSuccessor
  by_cases h : v.endState = noState
  · rw [if_neg (not_not.2 h), if_pos h]
    exact ⟨hc, rfl, fun x y => by simp [h], rfl, rfl⟩
  · rw [if_pos h, if_neg h]
    refine ⟨constructed_joinLocks _ _ (hc.addEdge ⟨hnext, hlt⟩ _ _ _ _), length_joinLocks _ _ _, fun x y => ?_, rfl,
      rfl⟩
    have hsrc : v.endState < v.thread.edges.length := by
      rw [hc.proper.ranged.sized]
      exact hend
    rw [hasEdge_joinLocks, hasEdge_addEdge hsrc]
    simp [h]

/-- `c` is `v.thread` with one state more -/
structure OneMore (v : StatementVisitor) (c : AbstractCfg) : Prop where
  constructed : c.Constructed
  size : c.states.length = v.size + 1
  hasEdge : ∀ x y, c.HasEdge x y ↔ v.thread.HasEdge x y

theorem hasEdge_append (c : AbstractCfg) (s : State) (x y : ℕ) :
    ({ c with states := c.states ++ [s], edges := c.edges ++ [[]] } : AbstractCfg).HasEdge x y ↔ c.HasEdge x y := by
  unfold HasEdge
  rw [getSuccessors_append]

theorem oneMore_addState (hv : v.Valid) {symbol : Symbol} (hop : symbol.operation ≠ .tag) {c : AbstractCfg}
    (h : v.thread.addState symbol = some c) : OneMore v c := by
  have hc := hv.constructed.addState symbol hop h
  unfold AbstractCfg.addState at h
  split_ifs at h
  obtain rfl := Option.some.inj h
  exact ⟨hc, by simp [size], hasEdge_append _ _⟩

theorem oneMore_addDummyState (hv : v.Valid) {c : AbstractCfg} (h : v.thread.addDummyState = some c) : OneMore v c := by
  have hc := hv.constructed.addDummyState h
  unfold addDummyState at h
  split_ifs at h
  obtain rfl := Option.some.inj h
  exact ⟨hc, by simp [size], hasEdge_append _ _⟩

/-- **One state.** -/
theorem addState_traversed (hv : v.Valid) {id : ℕ} {added : Option AbstractCfg}
    (hadded : ∀ c, added = some c → OneMore v c) (h : addState k id v added = .ok w) : Traversed v w 1 true := by
  unfold addState at h
  cases added with
  | none => simp at h
  | some c =>
    obtain rfl := Except.ok.inj h
    obtain ⟨hc, hsize, hedge⟩ := hadded c rfl
    have hpos := hv.size_pos
    have hlt := hv.lt
    set b := lockLocations k id v.thread.states.length { v with thread := c } with hb
    have hbsize : b.size = v.size + 1 := by
      rw [hb, size, lockLocations, length_states_modifyState]
      exact hsize
    have hbc : b.thread.Constructed := constructed_setLocks hc _ (fun _ => (k.place id).1) fun _ => (k.place id).2
    have hne : v.size ≠ noState := Nat.ne_of_gt hpos
    obtain ⟨hcon, hsz, hlink, hend, hstart⟩ := addSuccessor_spec hbc (show v.endState < b.size by omega) hne
      (show v.size < b.size by omega)
    have hwedge : ∀ x y, (b.addSuccessor v.size).thread.HasEdge x y ↔
        v.thread.HasEdge x y ∨ v.endState ≠ noState ∧ v.endState = x ∧ v.size = y := by
      intro x y
      rw [hlink x y, ← hedge x y]
      exact Iff.rfl
    have hwstart : (b.addSuccessor v.size).startState = if v.endState = noState then v.size else v.startState := hstart
    have hwsize : (b.addSuccessor v.size).size = v.size + 1 := hsz.trans hbsize
    show Traversed v (b.addSuccessor v.size) 1 true
    refine ⟨⟨hcon, by rw [hwsize]; omega, fun x y hy => ?_, fun heq => by rw [hwsize] at heq; omega, fun _ => ?_,
      fun h0 => by rw [hwstart, if_neg h0], fun _ h0 => by rw [hwstart, if_pos h0]; omega⟩, hwsize,
      fun _ => ⟨fun x y hle hy => ?_, fun _ h0 => by rw [hwstart, if_pos h0]⟩, fun h => by simp at h⟩
    · rw [hwedge, or_iff_left fun h => by omega]
    · rw [hend, hwsize]
    · -- no edge led to the new state before
      obtain rfl : y = v.size := by omega
      have hnone : ¬v.thread.HasEdge x v.size := by
        intro ⟨e, he, hd⟩
        have := (hv.constructed.proper.ranged.target x e he).2
        rw [hd] at this
        exact lt_irrefl _ this
      rw [hwedge, or_iff_right hnone, if_pos rfl]
      constructor
      · intro ⟨h0, hx, _⟩
        exact ⟨hx ▸ h0, hx.symm⟩
      · intro ⟨h0, hx⟩
        exact ⟨hx ▸ h0, hx.symm, rfl⟩

/-! ## The left side of an assignment -/

theorem Valid.inner (hv : v.Valid) : v.inner.Valid := ⟨hv.constructed, hv.size_pos, hv.size_pos, Iff.rfl⟩

/-- the inner visitor has added nothing -/
theorem joinInner_none {s : Bool} (h : Traversed v.inner u 0 s) : Traversed v (v.joinInner u) 0 s := by
  obtain ⟨⟨hcon, hle, hkept, hsame, -, -, -⟩, hcount, -, hlost⟩ := h
  have hcount : u.size = v.size := hcount
  have hstart : u.startState = noState := (hsame hcount).1
  unfold joinInner progress
  simp only [hstart, bne_self_eq_false, Bool.false_eq_true, if_false]
  set w : StatementVisitor := { v with thread := u.thread, identifierStore := u.identifierStore }
  have hsize : w.size = v.size := hcount
  refine ⟨⟨hcon, hle, hkept, fun _ => ⟨rfl, rfl⟩, fun h => by omega, fun _ => rfl, fun h => by omega⟩, hcount,
    fun _ => ⟨fun x y h1 h2 => by omega, fun h => by omega⟩, fun hs => ?_⟩
  obtain ⟨y, h1, h2, -⟩ := hlost hs
  change v.size ≤ y at h1
  omega

/-- the inner visitor has added states: the last of them is linked -/
theorem joinInner_some (hv : v.Valid) (h : Extends v.inner u) (hnew : v.size < u.size) :
    Extends v (v.joinInner u) ∧ (v.joinInner u).size = u.size ∧
      (∀ x y, (v.joinInner u).thread.HasEdge x y ↔
        u.thread.HasEdge x y ∨ v.endState ≠ noState ∧ v.endState = x ∧ u.endState = y) ∧
      (v.joinInner u).startState = if v.endState = noState then u.endState else v.startState := by
  have hlt := hv.lt
  have hend : u.endState + 1 = u.size := h.last hnew
  have hend0 : u.endState ≠ noState := by
    simp only [noState]
    omega
  have hprogress : u.startState ≠ noState := by
    have hpos := hv.size_pos
    have : v.size ≤ u.startState := (h.first hnew rfl).1
    simp only [noState]
    omega
  unfold joinInner progress
  rw [if_pos (bne_iff_ne.2 hprogress)]
  set b : StatementVisitor := { v with thread := u.thread, identifierStore := u.identifierStore }
  obtain ⟨hwcon, hwsize, hwedge, hwend, hwstart⟩ := addSuccessor_spec (v := b) h.constructed
    (show v.endState < u.size by omega) hend0 (show u.endState < u.size by omega)
  have hwsize : (b.addSuccessor u.endState).size = u.size := hwsize
  have hwstart : (b.addSuccessor u.endState).startState =
      if v.endState = noState then u.endState else v.startState := hwstart
  refine ⟨⟨hwcon, by omega, fun x y hy => ?_, fun h => by omega, fun _ => by rw [hwend, hwsize, hend],
    fun h0 => by rw [hwstart, if_neg h0], fun _ h0 => ?_⟩, hwsize, hwedge, hwstart⟩
  · rw [hwedge, or_iff_left fun h => by omega]
    exact h.kept x y hy
  · rw [hwstart, if_pos h0]
    omega

/-- **The splice.** The left side must have one state. -/
theorem joinInner_traversed (hv : v.Valid) {n : ℕ} {s : Bool} (h : Traversed v.inner u n s) :
    Traversed v (v.joinInner u) n (s && decide (n ≤ 1)) := by
  have hcount : u.size = v.size + n := h.count
  by_cases hn : n = 0
  · subst hn
    simpa using joinInner_none h
  have hnew : v.size < u.size := by omega
  have hend : u.endState + 1 = u.size := h.ext.last hnew
  obtain ⟨hext, hwsize, hwedge, hwstart⟩ := joinInner_some hv h.ext hnew
  -- a state that the inner visitor left without predecessor stays so, unless it is the last one
  have hstays : ∀ y, v.size ≤ y → y + 1 < u.size → (∀ x, ¬u.thread.HasEdge x y) → Lost v (v.joinInner u) := by
    intro y h1 h2 hnone
    refine ⟨y, h1, by omega, fun x hx => ?_, ?_⟩
    · rcases (hwedge x y).1 hx with hx | hx
      · exact hnone x hx
      · omega
    · have hstartLt := hv.startLt
      rw [hwstart]
      split_ifs
      · omega
      · omega
  have hfresh : ∀ x, Chain v.inner u → ¬u.thread.HasEdge x v.size := by
    intro x hc hx
    obtain ⟨h0, h1⟩ := (hc.link x v.size (le_refl _) hnew).1 hx
    exact h0 (h1.trans (if_pos rfl))
  refine ⟨hext, hwsize.trans hcount, fun hs => ?_, fun hs => ?_⟩
  · rw [Bool.and_eq_true, decide_eq_true_eq] at hs
    have hone : u.endState = v.size := by omega
    refine ⟨fun x y h1 h2 => ?_, fun _ h0 => by rw [hwstart, if_pos h0, hone]⟩
    obtain rfl : y = v.size := by omega
    rw [hwedge, or_iff_right (hfresh x (h.chain hs.1)), if_pos rfl, hone]
    constructor
    · intro ⟨h0, hx, _⟩
      exact ⟨hx ▸ h0, hx.symm⟩
    · intro ⟨h0, hx⟩
      exact ⟨hx ▸ h0, hx.symm, rfl⟩
  · cases hs' : s with
    | false =>
      obtain ⟨y, h1, h2, hnone, -⟩ := h.lost hs'
      exact hstays y h1 h2 hnone
    | true =>
      have hmany : ¬n ≤ 1 := by simpa [hs'] using hs
      exact hstays v.size (le_refl _) (by omega) fun x => hfresh x (h.chain hs')

/-! ## The traversal -/

/-- the visitor takes the reference as an access -/
def isAccess : Decl → Bool
  | .var name isParm isLocal _ => !(isParm || isLocal) && name != "nondet"
  | .other => false

mutual

/-- the number of states for an expression -/
def stateCount (k : VisitContext) (e : Expr) : ℕ :=
  if e.id ∈ k.seenStmt then 0
  else match e with
    | .artificial _ => 1
    | .declRefExpr _ decl => if isAccess decl then 1 else 0
    | .binAssign _ lhs rhs => stateCount k rhs + stateCount k lhs
    | .other _ children => stateCounts k children

def stateCounts (k : VisitContext) (es : List Expr) : ℕ :=
  match es with
  | [] => 0
  | e :: es => stateCount k e + stateCounts k es

end

mutual

/-- no assignment in the expression has several states for its left side -/
def singleTargets (k : VisitContext) (e : Expr) : Bool :=
  if e.id ∈ k.seenStmt then true
  else match e with
    | .artificial _ => true
    | .declRefExpr _ _ => true
    | .binAssign _ lhs rhs => singleTargets k rhs && (singleTargets k lhs && decide (stateCount k lhs ≤ 1))
    | .other _ children => singleTargetsAll k children

def singleTargetsAll (k : VisitContext) (es : List Expr) : Bool :=
  match es with
  | [] => true
  | e :: es => singleTargets k e && singleTargetsAll k es

end

/-- what has been seen already has no states -/
theorem skipped {e : Expr} (h : e.id ∈ k.seenStmt) : stateCount k e = 0 ∧ singleTargets k e = true := by
  cases e with
  | declRefExpr => rw [stateCount, singleTargets, if_pos h, if_pos h]; exact ⟨rfl, rfl⟩
  | binAssign => rw [stateCount, singleTargets, if_pos h, if_pos h]; exact ⟨rfl, rfl⟩
  | artificial => rw [stateCount, singleTargets, if_pos h, if_pos h]; exact ⟨rfl, rfl⟩
  | other => rw [stateCount, singleTargets, if_pos h, if_pos h]; exact ⟨rfl, rfl⟩

theorem exists_ok {x : Except FrontError StatementVisitor} (h : x.isOk = true) : ∃ w, x = .ok w := by
  cases x with
  | error => cases h
  | ok w => exact ⟨w, rfl⟩

theorem bind_ok {α β : Type} {x : Except FrontError α} {f : α → Except FrontError β} {b : β} (h : (x >>= f) = .ok b) :
    ∃ a, x = .ok a ∧ f a = .ok b := by
  cases x with
  | error e => cases h
  | ok a => exact ⟨a, rfl, h⟩

/-- the right side, and then the left side by the inner visitor -/
theorem traverseBinAssign_ok {writer : Bool} {lhs rhs : Expr} (h : traverseBinAssign k writer lhs rhs v = .ok w) :
    ∃ u x, traverseStmt k writer rhs v = .ok u ∧ traverseStmt k true lhs u.inner = .ok x ∧ w = u.joinInner x := by
  obtain ⟨u, hu, h⟩ := bind_ok h
  obtain ⟨x, hx, h⟩ := bind_ok h
  exact ⟨u, x, hu, hx, (Except.ok.inj h).symm⟩

/-- an access is one state, any other reference none -/
theorem visitDeclRefExpr_traversed (hv : v.Valid) {writer : Bool} {id : ℕ} {decl : Decl}
    (h : visitDeclRefExpr k writer id decl v = .ok w) : Traversed v w (if isAccess decl then 1 else 0) true := by
  unfold visitDeclRefExpr at h
  cases decl with
  | other =>
    obtain rfl := Except.ok.inj h
    exact .refl hv.constructed
  | var name isParm isLocal typeName =>
    dsimp only at h
    by_cases h1 : (isParm || isLocal) = true
    · rw [if_pos h1] at h
      obtain rfl := Except.ok.inj h
      simpa [isAccess, h1] using Traversed.refl hv.constructed
    rw [if_neg h1] at h
    by_cases h2 : name = "nondet"
    · rw [if_pos h2] at h
      obtain rfl := Except.ok.inj h
      have hcount : (if isAccess (.var name isParm isLocal typeName) then 1 else 0) = 0 := by simp [isAccess, h2]
      rw [hcount]
      exact (Traversed.refl hv.constructed).congr ⟨rfl, rfl, rfl⟩ ⟨rfl, rfl, rfl⟩
    rw [if_neg h2] at h
    by_cases h3 : typeName = "lock_t" ∨ typeName = "conditional_t"
    · rw [if_pos h3] at h
      simp at h
    rw [if_neg h3] at h
    obtain ⟨⟨var, store⟩, -, h⟩ := bind_ok h
    have hop : (if writer then OpClass.write else .read) ≠ .tag := by
      cases writer
      · decide
      · decide
    have hcount : (if isAccess (.var name isParm isLocal typeName) then 1 else 0) = 1 := by simp [isAccess, h1, h2]
    rw [hcount]
    have hvs : Valid { v with identifierStore := store } := ⟨hv.constructed, hv.lt, hv.startLt, hv.progress⟩
    exact (addState_traversed hvs (fun c hc => oneMore_addState hvs hop hc) h).congr ⟨rfl, rfl, rfl⟩ ⟨rfl, rfl, rfl⟩

mutual

/-- **A traversal.** By induction on the expression. -/
theorem traverseStmt_traversed {v w : StatementVisitor} (hv : v.Valid) {writer : Bool} {e : Expr}
    (h : traverseStmt k writer e v = .ok w) : Traversed v w (stateCount k e) (singleTargets k e) := by
  have hv' : Valid { v with lastNondet := false } := ⟨hv.constructed, hv.lt, hv.startLt, hv.progress⟩
  suffices Traversed { v with lastNondet := false } w (stateCount k e) (singleTargets k e) from
    this.congr ⟨rfl, rfl, rfl⟩ ⟨rfl, rfl, rfl⟩
  by_cases hseen : e.id ∈ k.seenStmt
  · rw [traverseStmt_seen hseen] at h
    obtain rfl := Except.ok.inj h
    obtain ⟨hcount, hsingle⟩ := skipped hseen
    rw [hcount, hsingle]
    exact .refl hv'.constructed
  · match e with
    | .artificial id =>
      rw [traverseStmt_artificial hseen] at h
      rw [stateCount, singleTargets, if_neg hseen, if_neg hseen]
      exact addState_traversed hv' (fun c hc => oneMore_addDummyState hv' hc) h
    | .declRefExpr id decl =>
      rw [traverseStmt_declRefExpr hseen] at h
      rw [stateCount, singleTargets, if_neg hseen, if_neg hseen]
      exact visitDeclRefExpr_traversed hv' h
    | .binAssign id lhs rhs =>
      rw [traverseStmt_binAssign hseen] at h
      rw [stateCount, singleTargets, if_neg hseen, if_neg hseen]
      obtain ⟨u, x, hu, hx, rfl⟩ := traverseBinAssign_ok h
      have h1 := traverseStmt_traversed hv' hu
      have hvu := hv'.extends h1.ext
      exact h1.trans hv' (joinInner_traversed hvu (traverseStmt_traversed hvu.inner hx))
    | .other id children =>
      rw [traverseStmt_other hseen] at h
      rw [stateCount, singleTargets, if_neg hseen, if_neg hseen]
      exact traverseChildren_traversed hv' h

theorem traverseChildren_traversed {v w : StatementVisitor} (hv : v.Valid) {writer : Bool} {es : List Expr}
    (h : traverseChildren k writer es v = .ok w) : Traversed v w (stateCounts k es) (singleTargetsAll k es) := by
  match es with
  | [] =>
    rw [traverseChildren] at h
    obtain rfl := Except.ok.inj h
    exact .refl hv.constructed
  | e :: es =>
    rw [traverseChildren] at h
    obtain ⟨u, hu, hw⟩ := bind_ok h
    have h1 := traverseStmt_traversed hv hu
    have h2 := traverseChildren_traversed (hv.extends h1.ext) hw
    exact h1.trans hv h2

end

end StatementVisitor

end Liss
