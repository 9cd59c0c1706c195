/-
A CFG that is being built, and the pieces that are appended to it.

Whatever the visitors do, states are only added, their actions stay, and so do the names behind the numbers. What a
visitor appends is a piece: it is entered at one state, left at another, and no old state leads into it until it is
linked.

- `Draft.addState`, `Draft.addDummyState`, `Draft.addEdge`, `Draft.insert`, `Grows.modifyState`: the steps;
- `Grows.reads`: what is read at an old state stays;
- `appended_state`: one state.
-/
import Liss.ClangInterf.Accesses
import Liss.ClangInterf.Meaning

namespace Liss

namespace FrontEnd

open AbstractCfg StatementVisitor

variable {c d e : AbstractCfg} {s t r : IdentifierStore}

/-- what holds of a CFG and its store at any time -/
structure Draft (c : AbstractCfg) (s : IdentifierStore) : Prop where
  constructed : c.Constructed
  costless : c.EveryEdge fun _ e => e.cost = 0
  unfinished : ∀ y, (c.getState y).final = false
  consistent : s.Consistent
  named : ∀ y a, (c.getState y).action = some a → s.nameOf a ≠ none

/-- what is left of a draft by everything that comes later -/
structure Grows (c : AbstractCfg) (s : IdentifierStore) (d : AbstractCfg) (t : IdentifierStore) : Prop where
  draft : Draft d t
  threadId : d.threadId = c.threadId
  le : c.states.length ≤ d.states.length
  action : ∀ y < c.states.length, (d.getState y).action = (c.getState y).action
  unlocked : ∀ y < c.states.length, (c.getState y).lockable = false → (d.getState y).lockable = false
  names : ∀ a, s.nameOf a ≠ none → t.nameOf a = s.nameOf a

theorem Draft.refl (h : Draft c s) : Grows c s c s :=
  ⟨h, rfl, le_refl _, fun _ _ => rfl, fun _ _ h => h, fun _ _ => rfl⟩

theorem Grows.trans (h : Grows c s d t) (h' : Grows d t e r) : Grows c s e r :=
  ⟨h'.draft, h'.threadId.trans h.threadId, h.le.trans h'.le,
    fun y hy => (h'.action y (Nat.lt_of_lt_of_le hy h.le)).trans (h.action y hy),
    fun y hy hlock => h'.unlocked y (Nat.lt_of_lt_of_le hy h.le) (h.unlocked y hy hlock),
    fun a ha => (h'.names a ((h.names a ha) ▸ ha)).trans (h.names a ha)⟩

/-- **Old states.** -/
theorem Grows.reads (hd : Draft c s) (h : Grows c s d t) {y : ℕ} (hy : y < c.states.length) :
    d.reads t y = c.reads s y := by
  rw [AbstractCfg.reads, AbstractCfg.reads, h.action y hy]
  cases ha : (c.getState y).action with
  | none => rfl
  | some a =>
    have hname := h.names a (hd.named y a ha)
    simp [IdentifierStore.event, hname]

/-- no state leads to a state that is not there, and one that is not there leads nowhere -/
theorem Draft.hasEdge_lt (h : Draft c s) {x y : ℕ} (hxy : c.HasEdge x y) :
    x < c.states.length ∧ y < c.states.length ∧ y ≠ noState := by
  obtain ⟨e, he, rfl⟩ := hxy
  have htarget := h.constructed.proper.ranged.target x e he
  refine ⟨?_, htarget.2, htarget.1⟩
  by_contra hx
  rw [getSuccessors, List.getD_eq_default _ _ (by rw [h.constructed.proper.ranged.sized]; exact not_lt.1 hx)] at he
  simp at he

/-! ## Steps -/

theorem graph_eq (haction : ∀ y, (d.getState y).action = (c.getState y).action)
    (hedge : ∀ x y, d.HasEdge x y ↔ c.HasEdge x y) : d.graph s = c.graph s := by
  unfold AbstractCfg.graph
  congr 1
  · funext x y
    exact propext (hedge x y)
  · funext y
    rw [AbstractCfg.reads, AbstractCfg.reads, haction]

/-- the fields of a state that the visitors set -/
theorem constructed_modifyState (hc : c.Constructed) (id : ℕ) {f : State → State}
    (hf : ∀ s, f s = { s with final := (f s).final, nonDet := (f s).nonDet, returnState := (f s).returnState,
                              lockBefore := (f s).lockBefore, lockAfter := (f s).lockAfter }) :
    (c.modifyState id f).Constructed := by
  have h := hc.setFields id (f (c.getState id)).final (f (c.getState id)).nonDet (f (c.getState id)).returnState
    (f (c.getState id)).lockBefore (f (c.getState id)).lockAfter
  rwa [modifyState_congr (g := f) (hf (c.getState id)).symm] at h

theorem final_modifyState (c : AbstractCfg) (id : ℕ) {f : State → State} (hf : ∀ s, (f s).final = s.final) (y : ℕ) :
    ((c.modifyState id f).getState y).final = (c.getState y).final := by
  simp only [getState, modifyState, List.getD_eq_getElem?_getD, List.getElem?_modify]
  cases c.states[y]? with
  | none => rfl
  | some s =>
    by_cases hid : id = y
    · simp [hid, hf]
    · simp [hid]

theorem lockable_modifyState (c : AbstractCfg) {id y : ℕ} {f : State → State}
    (hf : id ≠ y ∨ ∀ s, s.lockable = false → (f s).lockable = false) (h : (c.getState y).lockable = false) :
    ((c.modifyState id f).getState y).lockable = false := by
  simp only [getState, modifyState, List.getD_eq_getElem?_getD, List.getElem?_modify] at h ⊢
  cases hy : c.states[y]? with
  | none => rfl
  | some s =>
    rw [hy] at h
    show (if id = y then f s else s).lockable = false
    by_cases hid : id = y
    · rw [if_pos hid]
      exact hf.resolve_left (not_not.2 hid) s h
    · rw [if_neg hid]
      exact h

/-- a field of a state; a place for a lock can be set in a new one -/
theorem Grows.modifyState (h : Grows c s d t) (id : ℕ) {f : State → State}
    (hf : ∀ s, f s = { s with nonDet := (f s).nonDet, returnState := (f s).returnState,
                              lockBefore := (f s).lockBefore, lockAfter := (f s).lockAfter })
    (hlock : c.states.length ≤ id ∨ ∀ s, s.lockable = false → (f s).lockable = false) :
    Grows c s (d.modifyState id f) t ∧ (d.modifyState id f).graph t = d.graph t := by
  have haction : ∀ s, (f s).action = s.action := fun s => by rw [hf s]
  have hfinal : ∀ s, (f s).final = s.final := fun s => by rw [hf s]
  have hact := action_modifyState d id haction
  have hfields : ∀ s, f s = { s with final := (f s).final, nonDet := (f s).nonDet, returnState := (f s).returnState,
                                     lockBefore := (f s).lockBefore, lockAfter := (f s).lockAfter } := by
    intro s
    rw [hfinal s]
    exact hf s
  have hd := h.draft
  refine ⟨⟨⟨constructed_modifyState hd.constructed id hfields, hd.costless, fun y => ?_, hd.consistent, fun y a ha => ?_⟩,
    h.threadId, h.le.trans (length_states_modifyState d id f).ge, fun y hy => (hact y).trans (h.action y hy),
    fun y hy hy' => lockable_modifyState d ?_ (h.unlocked y hy hy'), h.names⟩, graph_eq hact fun _ _ => Iff.rfl⟩
  · rw [final_modifyState d id hfinal]
    exact hd.unfinished y
  · exact hd.named y a ((hact y).symm.trans ha)
  · exact hlock.imp_left fun hle => by omega

theorem Draft.joinLocks (h : Draft c s) (prev next : ℕ) :
    Grows c s (joinLocks prev next c) s ∧ (joinLocks prev next c).graph s = c.graph s := by
  unfold StatementVisitor.joinLocks
  split_ifs
  · obtain ⟨h1, heq1⟩ := h.refl.modifyState prev (f := fun s => { s with lockAfter := none }) (fun _ => rfl)
      (.inr fun s hs => by simp only [State.lockable, Bool.or_eq_false_iff] at hs ⊢; exact ⟨hs.1, rfl⟩)
    obtain ⟨h2, heq2⟩ := h1.modifyState next (f := fun s => { s with lockBefore := none }) (fun _ => rfl)
      (.inr fun s hs => by simp only [State.lockable, Bool.or_eq_false_iff] at hs ⊢; exact ⟨rfl, hs.2⟩)
    exact ⟨h2, heq2.trans heq1⟩
  · exact ⟨h.refl, rfl⟩

/-- an edge -/
theorem Draft.addEdge (h : Draft c s) {src dst : ℕ} (hsrc : src < c.states.length)
    (hdst : dst ≠ noState ∧ dst < c.states.length) (backEdge : Bool) :
    Grows c s (c.addEdge src dst backEdge) s ∧
      ∀ x y, (c.addEdge src dst backEdge).HasEdge x y ↔ c.HasEdge x y ∨ src = x ∧ dst = y := by
  have hlt : src < c.edges.length := by
    rw [h.constructed.proper.ranged.sized]
    exact hsrc
  refine ⟨⟨⟨h.constructed.addEdge hdst src backEdge true 0, h.costless.addEdge rfl fun _ _ he => he, h.unfinished,
    h.consistent, h.named⟩, rfl, le_refl _, fun _ _ => rfl, fun _ _ h => h, fun _ _ => rfl⟩, fun x y => hasEdge_addEdge hlt⟩

theorem Draft.concat (h : Draft c s) {st : State} {a : Option Symbol} (hst : st.action = a ∧ st.final = false)
    (hc : ({ c with states := c.states ++ [st], edges := c.edges ++ [[]] } : AbstractCfg).Constructed)
    (ha : ∀ b, a = some b → s.nameOf b ≠ none) :
    Grows c s { c with states := c.states ++ [st], edges := c.edges ++ [[]] } s := by
  refine ⟨⟨hc, everyEdge_append h.costless st, fun y => ?_, h.consistent, fun y b hb => ?_⟩, rfl, by simp,
    fun y hy => ?_, fun y hy hlock => ?_, fun _ _ => rfl⟩
  · rw [getState_concat]
    split_ifs
    · exact hst.2
    · exact h.unfinished y
  · rw [getState_concat] at hb
    split_ifs at hb
    · exact ha b (hst.1.symm.trans hb)
    · exact h.named y b hb
  · rw [getState_concat, if_neg (Nat.ne_of_lt hy)]
  · rw [getState_concat, if_neg (Nat.ne_of_lt hy)]
    exact hlock

/-- `d` is `c` with one state more, whose action is `a` -/
structure NewState (c : AbstractCfg) (s : IdentifierStore) (d : AbstractCfg) (a : Option Symbol) : Prop where
  grows : Grows c s d s
  size : d.states.length = c.states.length + 1
  edge : ∀ x y, d.HasEdge x y ↔ c.HasEdge x y
  action : (d.getState c.states.length).action = a
  unlocked : (d.getState c.states.length).lockable = false

theorem Draft.addState (h : Draft c s) {symbol : Symbol} (hop : symbol.operation ≠ .tag)
    (hname : s.nameOf symbol ≠ none) (hadd : c.addState symbol = some d) :
    NewState c s d (some { symbol with loc := ⟨c.threadId, c.states.length⟩ }) := by
  have hd := h.constructed.addState symbol hop hadd
  unfold AbstractCfg.addState at hadd
  split_ifs at hadd
  obtain rfl := Option.some.inj hadd
  refine ⟨h.concat ⟨rfl, rfl⟩ hd fun b hb => ?_, by simp, hasEdge_append c _, ?_, ?_⟩
  · obtain rfl := Option.some.inj hb
    exact hname
  · rw [getState_concat, if_pos rfl]
    rfl
  · rw [getState_concat, if_pos rfl]
    rfl

theorem Draft.addDummyState (h : Draft c s) (hadd : c.addDummyState = some d) : NewState c s d none := by
  have hd := h.constructed.addDummyState hadd
  unfold AbstractCfg.addDummyState at hadd
  split_ifs at hadd
  obtain rfl := Option.some.inj hadd
  refine ⟨h.concat (a := none) ⟨rfl, rfl⟩ hd fun b hb => by simp at hb, by simp, hasEdge_append c _, ?_, ?_⟩
  · rw [getState_concat, if_pos rfl]
    rfl
  · rw [getState_concat, if_pos rfl]
    rfl

/-- a name -/
theorem Draft.insert (h : Draft c s) {i : IdentifierStore.Insertion} {var : ℕ} (hins : s.insert i = .ok (var, t)) :
    Grows c s c t ∧ (t.table i.category).names[var]? = some i.name := by
  have hfull : ¬s.Full i.category := by
    intro hfull
    rw [IdentifierStore.insert_full hfull] at hins
    cases hins
  have hafter : s.after i = t := by rw [IdentifierStore.after, hins]
  obtain ⟨hname, hkept⟩ := (IdentifierStore.stable_of_room h.consistent hfull).named var t hins
  have hnames : ∀ a, s.nameOf a ≠ none → t.nameOf a = s.nameOf a := by
    intro a ha
    unfold IdentifierStore.nameOf at ha ⊢
    cases hcategory : a.operation.category with
    | none => rfl
    | some category =>
      simp only [hcategory] at ha ⊢
      obtain ⟨name, hn⟩ := Option.ne_none_iff_exists'.1 ha
      rw [hn]
      exact hkept category name a.var hn
  refine ⟨⟨⟨h.constructed, h.costless, h.unfinished, hafter ▸ IdentifierStore.consistent_after h.consistent i,
    fun y a ha => ?_⟩, rfl, le_refl _, fun _ _ => rfl, fun _ _ h => h, hnames⟩, hname⟩
  rw [hnames a (h.named y a ha)]
  exact h.named y a ha

/-! ## Appended pieces -/

/-- `r` is a draft with a piece more, which reads `l` -/
structure Appended (c : AbstractCfg) (s : IdentifierStore) (r : Inlined) (l : Language Event) : Prop where
  grows : Grows c s r.thread r.identifierStore
  piece : (r.thread.graph r.identifierStore).Piece {y | c.states.length ≤ y ∧ y < r.thread.states.length} r.entryState
    r.exitState
  reads : (r.thread.graph r.identifierStore).arrivals r.entryState r.exitState = l
  last : ∀ y, ¬r.thread.HasEdge r.exitState y
  old : ∀ x < c.states.length, ∀ y, r.thread.HasEdge x y ↔ c.HasEdge x y

/-- **One state.** -/
theorem appended_state {a : Option Symbol} (hpos : Draft c s) (h : NewState c s d a) :
    Appended c s ⟨d, s, c.states.length, c.states.length⟩ {(a.map s.event).toList} := by
  have hset : {y | c.states.length ≤ y ∧ y < d.states.length} = {c.states.length} := by
    ext y
    have := h.size
    simp only [Set.mem_ofPred_eq, Set.mem_singleton_iff]
    omega
  refine ⟨h.grows, hset ▸ WordGraph.piece_single _ _, ?_, fun y hy => ?_, fun x _ y => h.edge x y⟩
  · rw [WordGraph.arrivals_self]
    show ({AbstractCfg.reads d s c.states.length} : Language Event) = _
    rw [AbstractCfg.reads, h.action]
  · exact lt_irrefl _ (hpos.hasEdge_lt ((h.edge _ _).1 hy)).1

/-- a field of a state -/
theorem Appended.modifyState {r : Inlined} {l : Language Event} (h : Appended c s r l) (id : ℕ) {f : State → State}
    (hf : ∀ s, f s = { s with nonDet := (f s).nonDet, returnState := (f s).returnState,
                              lockBefore := (f s).lockBefore, lockAfter := (f s).lockAfter })
    (hlock : c.states.length ≤ id ∨ ∀ s, s.lockable = false → (f s).lockable = false) :
    Appended c s { r with thread := r.thread.modifyState id f } l := by
  obtain ⟨hgrows, hgraph⟩ := h.grows.modifyState id hf hlock
  have hsize : (r.thread.modifyState id f).states.length = r.thread.states.length := length_states_modifyState _ _ _
  refine ⟨hgrows, ?_, ?_, h.last, h.old⟩
  · show WordGraph.Piece ((r.thread.modifyState id f).graph r.identifierStore) _ _ _
    rw [hgraph]
    simp only [hsize]
    exact h.piece
  · show WordGraph.arrivals ((r.thread.modifyState id f).graph r.identifierStore) _ _ = _
    rw [hgraph]
    exact h.reads

end FrontEnd

end Liss
