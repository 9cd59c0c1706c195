/-
What the states of a statement read.

A visitor links what it appends to the end of what it has built, so that one statement after another reads the product
of what they read. The left side of an assignment is built by a second visitor, whose last state is linked instead of
the first; that is the same state as long as there is one only.

- `Adds.trans`: one after another;
- `Appended.link`: an appended piece;
- `joinInner_adds`, `inlineCall_adds`: the left side of an assignment, and a call;
- `traverseStmt_adds`, `traverseElements_adds`: a statement and the statements of a block read what they mean.
-/
import Liss.ClangInterf.Drafts

namespace Liss

namespace FrontEnd

open AbstractCfg StatementVisitor

/-! ## Visitors -/

variable {u v w x : StatementVisitor} {l m : Language Event} {k : VisitContext}

def graphOf (v : StatementVisitor) : WordGraph ℕ Event := v.thread.graph v.identifierStore

/-- nothing leads on from the last state -/
structure Ready (v : StatementVisitor) : Prop where
  draft : Draft v.thread v.identifierStore
  lt : v.endState < v.size
  progress : v.startState = noState ↔ v.endState = noState
  last : v.endState ≠ noState → ∀ y, ¬v.thread.HasEdge v.endState y

/-- `w` is `v` with a piece that is linked to its end and reads `l` -/
structure Extended (v w : StatementVisitor) (first : ℕ) (l : Language Event) : Prop where
  piece : (graphOf w).Piece {y | v.size ≤ y ∧ y < w.size} first w.endState
  reads : (graphOf w).arrivals first w.endState = l
  last : ∀ y, ¬w.thread.HasEdge w.endState y
  old : ∀ x < v.size, ∀ y,
    w.thread.HasEdge x y ↔ v.thread.HasEdge x y ∨ v.endState ≠ noState ∧ v.endState = x ∧ first = y
  start : w.startState = if v.endState = noState then first else v.startState

/-- `w` has the states of `v` -/
structure Same (v w : StatementVisitor) : Prop where
  size : w.size = v.size
  edge : ∀ x y, w.thread.HasEdge x y ↔ v.thread.HasEdge x y
  startState : w.startState = v.startState
  endState : w.endState = v.endState

/-- `w` is `v` after something that reads `l` -/
structure Adds (v w : StatementVisitor) (l : Language Event) : Prop where
  grows : Grows v.thread v.identifierStore w.thread w.identifierStore
  new : Same v w ∧ l = 1 ∨ ∃ first, Extended v w first l

theorem Ready.size_pos (hv : Ready v) : 0 < v.size := Nat.zero_lt_of_lt hv.lt

theorem Extended.first_ne (hv : Ready v) {first : ℕ} (h : Extended v w first l) : first ≠ noState := by
  have hpos := hv.size_pos
  have hentry : v.size ≤ first := h.piece.entry.1
  simp only [noState]
  omega

theorem Extended.endState_ne (hv : Ready v) {first : ℕ} (h : Extended v w first l) : w.endState ≠ noState := by
  have hpos := hv.size_pos
  have hexit : v.size ≤ w.endState := h.piece.exit.1
  simp only [noState]
  omega

theorem Adds.ready (hv : Ready v) (h : Adds v w l) : Ready w := by
  rcases h.new with ⟨hsame, -⟩ | ⟨first, hext⟩
  · refine ⟨h.grows.draft, ?_, ?_, fun hne y hy => ?_⟩
    · rw [hsame.endState, hsame.size]
      exact hv.lt
    · rw [hsame.startState, hsame.endState]
      exact hv.progress
    · rw [hsame.endState] at hne hy
      exact hv.last hne y ((hsame.edge _ _).1 hy)
  · refine ⟨h.grows.draft, hext.piece.exit.2, iff_of_false ?_ (hext.endState_ne hv), fun _ => hext.last⟩
    rw [hext.start]
    split_ifs with hend
    · exact hext.first_ne hv
    · exact fun h0 => hend (hv.progress.1 h0)

theorem Adds.refl (hv : Ready v) : Adds v v 1 :=
  ⟨hv.draft.refl, .inl ⟨⟨rfl, fun _ _ => Iff.rfl, rfl, rfl⟩, rfl⟩⟩

/-- what was read before is not changed by what comes after its end -/
theorem Extended.agree {second : ℕ} (hu : Draft u.thread u.identifierStore)
    (hgrows : Grows u.thread u.identifierStore w.thread w.identifierStore) (h' : Extended u w second m) :
    WordGraph.Agree (graphOf u) (graphOf w) {y | v.size ≤ y ∧ y < u.size} u.endState := by
  refine ⟨fun y hy => ?_, fun x hx hne y => ?_⟩
  · show ({w.thread.reads w.identifierStore y} : Language Event) = {u.thread.reads u.identifierStore y}
    rw [hgrows.reads hu hy.2]
  · refine (h'.old x hx.2 y).trans ⟨fun hor => ?_, .inl⟩
    rcases hor with hor | ⟨-, hend, -⟩
    · exact hor
    · exact absurd hend.symm hne

/-- **One after another.** -/
theorem Adds.trans (hv : Ready v) (h : Adds v u l) (h' : Adds u w m) : Adds v w (l * m) := by
  have hu := h.ready hv
  refine ⟨h.grows.trans h'.grows, ?_⟩
  rcases h.new with ⟨hsame, rfl⟩ | ⟨first, hext⟩
  · rw [one_mul]
    rcases h'.new with ⟨hsame', rfl⟩ | ⟨second, hext'⟩
    · exact .inl ⟨⟨hsame'.size.trans hsame.size, fun x y => (hsame'.edge x y).trans (hsame.edge x y),
        hsame'.startState.trans hsame.startState, hsame'.endState.trans hsame.endState⟩, rfl⟩
    · refine .inr ⟨second, ?_, hext'.reads, hext'.last, fun x hx y => ?_, ?_⟩
      · rw [← hsame.size]
        exact hext'.piece
      · rw [hext'.old x (hsame.size ▸ hx) y, hsame.edge, hsame.endState]
      · rw [hext'.start, hsame.endState, hsame.startState]
  · rcases h'.new with ⟨hsame', rfl⟩ | ⟨second, hext'⟩
    · rw [mul_one]
      have hagree : WordGraph.Agree (graphOf u) (graphOf w) {y | v.size ≤ y ∧ y < u.size} u.endState := by
        refine ⟨fun y hy => ?_, fun x _ _ y => hsame'.edge x y⟩
        show ({w.thread.reads w.identifierStore y} : Language Event) = {u.thread.reads u.identifierStore y}
        rw [h'.grows.reads hu.draft hy.2]
      refine .inr ⟨first, ?_, ?_, fun y hy => ?_, fun x hx y => ?_, ?_⟩
      · rw [hsame'.size, hsame'.endState]
        exact hext.piece.congr hagree
      · rw [hsame'.endState, hext.piece.arrivals_congr hagree]
        exact hext.reads
      · rw [hsame'.endState] at hy
        exact hext.last y ((hsame'.edge _ _).1 hy)
      · rw [hsame'.edge]
        exact hext.old x hx y
      · rw [hsame'.startState]
        exact hext.start
    · right
      have hagree := Extended.agree (v := v) hu.draft h'.grows hext'
      have hend := hext.endState_ne hv
      have hset : {y | v.size ≤ y ∧ y < w.size} = {y | v.size ≤ y ∧ y < u.size} ∪ {y | u.size ≤ y ∧ y < w.size} := by
        ext y
        have h1 : v.size ≤ u.size := h.grows.le
        have h2 : u.size ≤ w.size := h'.grows.le
        simp only [Set.mem_union, Set.mem_ofPred_eq]
        omega
      have hlink : ∀ y, (graphOf w).edge u.endState y ↔ y = second := by
        intro y
        refine (hext'.old u.endState hext.piece.exit.2 y).trans ⟨fun hor => ?_, fun hy => .inr ⟨hend, rfl, hy.symm⟩⟩
        rcases hor with hor | ⟨-, -, hy⟩
        · exact absurd hor (hext.last y)
        · exact hy.symm
      have hout : w.endState ∉ {y | v.size ≤ y ∧ y < u.size} := fun hmem => by
        have h1 : w.endState < u.size := hmem.2
        have h2 : u.size ≤ w.endState := hext'.piece.exit.1
        omega
      obtain ⟨hpiece, hreads⟩ := (hext.piece.congr hagree).append hext'.piece hout hlink
      refine ⟨first, ?_, ?_, hext'.last, fun x hx y => ?_, ?_⟩
      · rw [hset]
        exact hpiece
      · rw [hreads, hext.piece.arrivals_congr hagree, hext.reads, hext'.reads]
      · rw [hext'.old x (Nat.lt_of_lt_of_le hx h.grows.le) y, ← hext.old x hx y]
        refine or_iff_left fun ⟨_, heq, _⟩ => ?_
        have hexit : v.size ≤ u.endState := hext.piece.exit.1
        omega
      · rw [hext'.start, if_neg hend]
        exact hext.start

/-- a field of a state -/
theorem Adds.modifyState (h : Adds v w l) (id : ℕ) {f : State → State}
    (hf : ∀ s, f s = { s with nonDet := (f s).nonDet, returnState := (f s).returnState,
                              lockBefore := (f s).lockBefore, lockAfter := (f s).lockAfter })
    (hlock : v.size ≤ id ∨ ∀ s, s.lockable = false → (f s).lockable = false) :
    Adds v { w with thread := w.thread.modifyState id f } l := by
  obtain ⟨hgrows, hgraph⟩ := h.grows.modifyState id hf hlock
  have hsize : StatementVisitor.size { w with thread := w.thread.modifyState id f } = w.size :=
    length_states_modifyState _ _ _
  have hgraph : graphOf { w with thread := w.thread.modifyState id f } = graphOf w := hgraph
  refine ⟨hgrows, ?_⟩
  rcases h.new with ⟨hsame, hl⟩ | ⟨first, hext⟩
  · exact .inl ⟨⟨hsize.trans hsame.size, hsame.edge, hsame.startState, hsame.endState⟩, hl⟩
  · refine .inr ⟨first, ?_, ?_, hext.last, hext.old, hext.start⟩
    · rw [hgraph, hsize]
      exact hext.piece
    · rw [hgraph]
      exact hext.reads

/-! ## Links -/

theorem grows_addSuccessor (hd : Draft v.thread v.identifierStore) (hend : v.endState < v.size) {next : ℕ}
    (hnext : next ≠ noState ∧ next < v.size) :
    Grows v.thread v.identifierStore (v.addSuccessor next).thread (v.addSuccessor next).identifierStore := by
  unfold addSuccessor
  split_ifs with h
  · have hedge := (hd.addEdge hend hnext false).1
    exact hedge.trans (hedge.draft.joinLocks v.endState next).1
  · exact hd.refl

/-- **An appended piece.** -/
theorem Appended.link (hv : Ready v) {r : Inlined} (h : Appended v.thread v.identifierStore r l) :
    Adds v (spliceCall v r) l := by
  have hpos := hv.size_pos
  have hlt := hv.lt
  set b : StatementVisitor := { v with thread := r.thread, identifierStore := r.identifierStore } with hb
  have hle : v.size ≤ b.size := h.grows.le
  have hentry : v.size ≤ r.entryState ∧ r.entryState < b.size := h.piece.entry
  have hexit : v.size ≤ r.exitState ∧ r.exitState < b.size := h.piece.exit
  have hnext : r.entryState ≠ noState ∧ r.entryState < b.size := by
    refine ⟨?_, hentry.2⟩
    simp only [noState]
    omega
  have hend : b.endState < b.size := Nat.lt_of_lt_of_le hlt hle
  have hgrows : Grows r.thread r.identifierStore (spliceCall v r).thread (spliceCall v r).identifierStore :=
    grows_addSuccessor (v := b) h.grows.draft hend hnext
  obtain ⟨-, hsize, hedge, -, hstart⟩ := addSuccessor_spec (v := b) h.grows.draft.constructed hend hnext.1 hnext.2
  have hedge : ∀ x y, (spliceCall v r).thread.HasEdge x y ↔
      r.thread.HasEdge x y ∨ v.endState ≠ noState ∧ v.endState = x ∧ r.entryState = y := hedge
  have hsize : (spliceCall v r).size = b.size := hsize
  have hagree : WordGraph.Agree (r.thread.graph r.identifierStore) (graphOf (spliceCall v r))
      {y | v.size ≤ y ∧ y < b.size} r.exitState := by
    refine ⟨fun y hy => ?_, fun x hx _ y => ?_⟩
    · show ({AbstractCfg.reads _ _ y} : Language Event) = {r.thread.reads r.identifierStore y}
      rw [hgrows.reads h.grows.draft hy.2]
    · refine (hedge x y).trans (or_iff_left fun hnew => ?_)
      have heq : v.endState = x := hnew.2.1
      have hx1 : v.size ≤ x := hx.1
      omega
  refine ⟨h.grows.trans hgrows, .inr ⟨r.entryState, ?_, ?_, fun y hy => ?_, fun x hx y => ?_, hstart⟩⟩
  · rw [hsize]
    exact h.piece.congr hagree
  · exact (h.piece.arrivals_congr hagree).trans h.reads
  · rcases (hedge r.exitState y).1 hy with hy | ⟨-, heq, -⟩
    · exact h.last y hy
    · omega
  · rw [hedge, h.old x hx y]

/-! ## One state -/

/-- a piece with one end -/
theorem spliceCall_eq (v : StatementVisitor) (c : AbstractCfg) (s : IdentifierStore) (n : ℕ) :
    spliceCall v ⟨c, s, n, n⟩ = addSuccessor { v with thread := c, identifierStore := s } n := by
  have hset : ∀ w : StatementVisitor, w.endState = n → { w with endState := n } = w := by
    rintro w rfl
    rfl
  refine hset _ ?_
  unfold addSuccessor
  split_ifs
  · rfl
  · rfl

theorem addState_adds (hv : Ready v) {id : ℕ} {c : AbstractCfg} {a : Option Symbol}
    (hnew : NewState v.thread v.identifierStore c a) (h : StatementVisitor.addState k id v (some c) = .ok w) :
    Adds v w {(a.map v.identifierStore.event).toList} := by
  have happended := (appended_state hv.draft hnew).modifyState v.size (f := fun s =>
    { s with lockBefore := (k.place id).1, lockAfter := (k.place id).2 }) (fun _ => rfl) (.inl (le_refl _))
  have heq : spliceCall v ⟨c.modifyState v.size fun s =>
      { s with lockBefore := (k.place id).1, lockAfter := (k.place id).2 }, v.identifierStore, v.size, v.size⟩ = w := by
    rw [← Except.ok.inj h]
    exact spliceCall_eq v _ _ _
  exact heq ▸ happended.link hv

theorem addPlain_adds (hv : Ready v) {id : ℕ} (h : addPlain k id v = .ok w) : Adds v w 1 := by
  unfold addPlain at h
  cases hadd : v.thread.addDummyState with
  | none => simp [hadd, StatementVisitor.addState] at h
  | some c =>
    rw [hadd] at h
    exact addState_adds hv (hv.draft.addDummyState hadd) h

/-- the state for a name with a number -/
theorem addNamed_adds (hv : Ready v) {id : ℕ} {i : IdentifierStore.Insertion} {var : ℕ} {store : IdentifierStore}
    (hins : v.identifierStore.insert i = .ok (var, store)) {a : Symbol} (hop : a.operation ≠ .tag)
    (hcategory : a.operation.category = some i.category) (hvar : a.var = var)
    (h : StatementVisitor.addState k id { v with identifierStore := store } (v.thread.addState a) = .ok w) :
    Adds v w {[⟨a.operation, some i.name, a.assume, a.synthesised⟩]} := by
  obtain ⟨hgrows, hname⟩ := hv.draft.insert hins
  have hstore : Adds v { v with identifierStore := store } 1 :=
    ⟨hgrows, .inl ⟨⟨rfl, fun _ _ => Iff.rfl, rfl, rfl⟩, rfl⟩⟩
  have hnameOf : store.nameOf a = some i.name := by
    unfold IdentifierStore.nameOf
    simp only [hcategory, hvar]
    exact hname
  cases hadd : v.thread.addState a with
  | none => simp [hadd, StatementVisitor.addState] at h
  | some c =>
    rw [hadd] at h
    have hnew := hgrows.draft.addState hop (by rw [hnameOf]; exact Option.some_ne_none _) hadd
    have hadds := hstore.trans hv (addState_adds (hstore.ready hv) hnew h)
    rw [one_mul] at hadds
    have hevent : store.event { a with loc := ⟨v.thread.threadId, v.thread.states.length⟩ } =
        ⟨a.operation, some i.name, a.assume, a.synthesised⟩ := by
      show (⟨a.operation, store.nameOf a, a.assume, a.synthesised⟩ : Event) = _
      rw [hnameOf]
    simpa [hevent] using hadds

/-- **References.** -/
theorem visitDeclRefExpr_adds (hv : Ready v) {writer : Bool} {id : ℕ} {decl : Decl}
    (h : visitDeclRefExpr k writer id decl v = .ok w) : Adds v w {accessEvents writer decl} := by
  unfold visitDeclRefExpr at h
  unfold accessEvents
  cases decl with
  | other =>
    obtain rfl := Except.ok.inj h
    exact .refl hv
  | var name isParm isLocal typeName =>
    dsimp only at h ⊢
    by_cases h1 : (isParm || isLocal) = true
    · rw [if_pos h1] at h ⊢
      obtain rfl := Except.ok.inj h
      exact .refl hv
    rw [if_neg h1] at h ⊢
    by_cases h2 : name = "nondet"
    · rw [if_pos h2] at h ⊢
      obtain rfl := Except.ok.inj h
      exact ⟨hv.draft.refl, .inl ⟨⟨rfl, fun _ _ => Iff.rfl, rfl, rfl⟩, rfl⟩⟩
    rw [if_neg h2] at h ⊢
    by_cases h3 : typeName = "lock_t" ∨ typeName = "conditional_t"
    · rw [if_pos h3] at h
      simp at h
    rw [if_neg h3] at h
    obtain ⟨⟨var, store⟩, hins, h⟩ := StatementVisitor.bind_ok h
    have hop : (if writer then OpClass.write else .read) ≠ .tag := by
      cases writer
      · decide
      · decide
    have hcategory : (if writer then OpClass.write else .read).category = some .var := by
      cases writer
      · rfl
      · rfl
    exact addNamed_adds hv (i := ⟨.var, name⟩) hins hop hcategory rfl h

/-- **Operations.** -/
theorem addSync_adds (hv : Ready v) {id : ℕ} {op : SyncOp} {varName : String}
    (hop : op.operation ≠ .tag ∧ op.operation.category = op.category ∧ (op.category = none → varName = ""))
    (h : addSync k id op varName v = .ok w) : Adds v w {[op.event varName]} := by
  obtain ⟨htag, hcategory, hempty⟩ := hop
  obtain ⟨⟨var, store⟩, hins, h⟩ := StatementVisitor.bind_ok h
  unfold insertArgument at hins
  cases hcat : op.category with
  | some category =>
    simp only [hcat] at hins
    exact addNamed_adds hv (i := ⟨category, varName⟩) hins htag (hcategory.trans hcat) rfl h
  | none =>
    simp only [hcat, Except.ok.injEq, Prod.mk.injEq] at hins
    obtain ⟨rfl, rfl⟩ := hins
    dsimp only at h
    set a : Symbol := { operation := op.operation, var := 0, loc := ⟨0, 0⟩, assume := op.assume,
                        synthesised := op.synthesised, flags := op.flags }
    have hnameOf : ∀ loc, v.identifierStore.nameOf { a with loc := loc } = some "" := by
      intro loc
      have hnone : op.operation.category = none := hcategory.trans hcat
      unfold IdentifierStore.nameOf
      simp only [a, hnone]
    cases hadd : v.thread.addState a with
    | none => simp [hadd, StatementVisitor.addState] at h
    | some c =>
      rw [hadd] at h
      have hnew := hv.draft.addState htag (by rw [hnameOf a.loc]; exact Option.some_ne_none _) hadd
      have hadds := addState_adds hv hnew h
      have hevent : v.identifierStore.event { a with loc := ⟨v.thread.threadId, v.thread.states.length⟩ } =
          op.event varName := by
        show (⟨op.operation, v.identifierStore.nameOf { a with loc := _ }, op.assume, op.synthesised⟩ : Event) = _
        rw [hnameOf, SyncOp.event, hempty hcat]
      simpa [hevent] using hadds

/-! ## The left side of an assignment -/

theorem Ready.inner (hv : Ready v) : Ready v.inner :=
  ⟨hv.draft, hv.size_pos, Iff.rfl, fun h => absurd rfl h⟩

/-- **The splice.** The left side must have one state. -/
theorem joinInner_adds (hv : Ready v) (h : Adds v.inner w l) (hone : w.size ≤ v.size + 1) :
    Adds v (v.joinInner w) l := by
  unfold joinInner
  rcases h.new with ⟨hsame, hl⟩ | ⟨first, hext⟩
  · have hprogress : w.progress = false := by
      unfold StatementVisitor.progress
      rw [hsame.startState]
      rfl
    simp only [hprogress, Bool.false_eq_true, if_false]
    exact ⟨h.grows, .inl ⟨⟨hsame.size, hsame.edge, rfl, rfl⟩, hl⟩⟩
  · have hentry : v.size ≤ first ∧ first < w.size := hext.piece.entry
    have hexit : v.size ≤ w.endState ∧ w.endState < w.size := hext.piece.exit
    obtain rfl : first = w.endState := by omega
    have hstart : w.startState = w.endState := hext.start
    have hprogress : w.progress = true := by
      unfold StatementVisitor.progress
      rw [hstart]
      exact bne_iff_ne.2 (hext.endState_ne hv.inner)
    simp only [hprogress, if_true]
    have happended : Appended v.thread v.identifierStore ⟨w.thread, w.identifierStore, w.endState, w.endState⟩ l := by
      refine ⟨h.grows, hext.piece, hext.reads, hext.last, fun x hx y => (hext.old x hx y).trans ?_⟩
      exact or_iff_left fun ⟨h0, _⟩ => h0 rfl
    exact spliceCall_eq v _ _ _ ▸ happended.link hv

/-! ## Calls -/

/-- `call` appends the body, which reads `m cfg` -/
def Inlines (call : Inliner) (m : ClangCfg → Language Event) (cfg : ClangCfg) : Prop :=
  ∀ c s r, Draft c s → call cfg c s = some (.ok r) → Appended c s r (m cfg)

/-- **A call.** -/
theorem inlineCall_adds (hv : Ready v) {call : Inliner} {m : ClangCfg → Language Event} {cfg : ClangCfg}
    (hcall : Inlines call m cfg) {id : ℕ} (h : inlineCall call k id cfg v = some (.ok w)) : Adds v w (m cfg) := by
  obtain ⟨v1, h1, h⟩ := Front.bind_ok h
  obtain ⟨r, hr, h⟩ := Front.bind_ok h
  obtain ⟨v2, h2, h⟩ := Front.bind_ok h
  have hcalled := addPlain_adds hv (Option.some.inj h1)
  have hv1 := hcalled.ready hv
  have hbody := (hcall _ _ r hv1.draft hr).link hv1
  have hreturned := addPlain_adds (hbody.ready hv1) (Option.some.inj h2)
  have hadds := (hcalled.trans hv hbody).trans hv hreturned
  rw [one_mul, mul_one] at hadds
  obtain rfl := Except.ok.inj (Option.some.inj h)
  exact hadds.modifyState v.thread.states.length (f := fun s =>
    { s with returnState := (spliceCall v1 r).thread.states.length }) (fun _ => rfl) (.inr fun _ h => h)

theorem mem_syncOps : ∀ p ∈ syncOps, p.2.operation ≠ .tag ∧ p.2.operation.category = p.2.category ∧
    p.2.category ≠ none := by decide

/-- the operation that a call stands for -/
theorem syncCall_spec {name : String} {argument : Option (String × String)} {op : SyncOp} {varName : String}
    (h : syncCall name argument = .ok (some (op, varName))) :
    op.operation ≠ .tag ∧ op.operation.category = op.category ∧ (op.category = none → varName = "") := by
  unfold syncCall at h
  split_ifs at h with hyield
  · obtain ⟨rfl, rfl⟩ := Prod.mk.inj (Option.some.inj (Except.ok.inj h))
    exact ⟨by decide, rfl, fun _ => rfl⟩
  · split at h
    · simp at h
    · split at h
      · simp at h
      · rename_i typeName op' hlookup
        split_ifs at h
        obtain ⟨rfl, rfl⟩ := Prod.mk.inj (Option.some.inj (Except.ok.inj h))
        obtain ⟨l1, l2, heq, -⟩ := List.lookup_eq_some_iff.1 hlookup
        obtain ⟨htag, hcategory, hsome⟩ := mem_syncOps (name, op') (by rw [heq]; simp)
        exact ⟨htag, hcategory, fun h0 => absurd h0 hsome⟩

theorem calleeSync_spec {u : TranslationUnit} {callee : Option ℕ} {argument : Option (String × String)} {op : SyncOp}
    {varName : String} (h : calleeSync u callee argument = .ok (some (op, varName))) :
    op.operation ≠ .tag ∧ op.operation.category = op.category ∧ (op.category = none → varName = "") := by
  cases callee with
  | none => simp [calleeSync] at h
  | some f => exact syncCall_spec h

/-! ## Statements -/

section

variable (unit : TranslationUnit)

mutual

/-- the bodies that the calls in a statement are replaced by -/
def stmtCallees (seen : List ℕ) (s : Stmt) : List ClangCfg :=
  if s.id ∈ seen then []
  else match s with
    | .artificial _ => []
    | .declRefExpr _ _ => []
    | .binAssign _ lhs rhs => stmtCallees seen rhs ++ stmtCallees seen lhs
    | .returnStmt _ children => childrenCallees seen children
    | .callExpr _ callee argument children =>
      match calleeSync unit callee argument with
      | .ok none => childrenCallees seen children ++ (calleeBody unit callee).toList
      | _ => []
    | .other _ children => childrenCallees seen children

def childrenCallees (seen : List ℕ) (l : List Stmt) : List ClangCfg :=
  match l with
  | [] => []
  | s :: l => stmtCallees seen s ++ childrenCallees seen l

end

/-- those in the statements of a block -/
def elementsCallees : List ℕ → List Stmt → List ClangCfg
  | _, [] => []
  | seen, s :: l => stmtCallees unit seen s ++ elementsCallees (s.id :: seen) l

mutual

/-- the number of states for a statement; that of a call that is replaced by a body is counted as 2 -/
def statesOf (seen : List ℕ) (s : Stmt) : ℕ :=
  if s.id ∈ seen then 0
  else match s with
    | .artificial _ => 1
    | .declRefExpr _ decl => if isAccess decl then 1 else 0
    | .binAssign _ lhs rhs => statesOf seen rhs + statesOf seen lhs
    | .returnStmt _ children => statesOfAll seen children + 1
    | .callExpr _ callee argument children =>
      match calleeSync unit callee argument with
      | .ok none => statesOfAll seen children + if (calleeBody unit callee).isSome then 2 else 0
      | _ => 1
    | .other _ children => statesOfAll seen children

def statesOfAll (seen : List ℕ) (l : List Stmt) : ℕ :=
  match l with
  | [] => 0
  | s :: l => statesOf seen s + statesOfAll seen l

end

mutual

/-- no assignment in the statement has several states for its left side -/
def singleSided (seen : List ℕ) (s : Stmt) : Bool :=
  if s.id ∈ seen then true
  else match s with
    | .artificial _ => true
    | .declRefExpr _ _ => true
    | .binAssign _ lhs rhs => singleSided seen rhs && (singleSided seen lhs && decide (statesOf unit seen lhs ≤ 1))
    | .returnStmt _ children => singleSidedAll seen children
    | .callExpr _ callee argument children =>
      match calleeSync unit callee argument with
      | .ok none => singleSidedAll seen children
      | _ => true
    | .other _ children => singleSidedAll seen children

def singleSidedAll (seen : List ℕ) (l : List Stmt) : Bool :=
  match l with
  | [] => true
  | s :: l => singleSided seen s && singleSidedAll seen l

end

end

variable {unit : TranslationUnit} {call : Inliner} {writer : Bool}

theorem size_addState {id : ℕ} {added : Option AbstractCfg}
    (hadded : ∀ c, added = some c → c.states.length = v.size + 1)
    (h : StatementVisitor.addState k id v added = .ok w) : w.size = v.size + 1 := by
  unfold StatementVisitor.addState at h
  cases added with
  | none => simp at h
  | some c =>
    obtain rfl := Except.ok.inj h
    rw [(alike_addSuccessor _ _).size, (alike_lockLocations k id _ _).size]
    exact hadded c rfl

theorem size_addPlain {id : ℕ} (h : addPlain k id v = .ok w) : w.size = v.size + 1 := by
  refine size_addState (fun c hc => ?_) h
  unfold addDummyState at hc
  split_ifs at hc
  obtain rfl := Option.some.inj hc
  simp [StatementVisitor.size]

theorem length_addState {c d : AbstractCfg} {symbol : Symbol} (h : c.addState symbol = some d) :
    d.states.length = c.states.length + 1 := by
  unfold AbstractCfg.addState at h
  split_ifs at h
  obtain rfl := Option.some.inj h
  simp

theorem size_visitDeclRefExpr {id : ℕ} {decl : Decl} (h : visitDeclRefExpr k writer id decl v = .ok w) :
    w.size = v.size + if isAccess decl then 1 else 0 := by
  unfold visitDeclRefExpr at h
  cases decl with
  | other =>
    obtain rfl := Except.ok.inj h
    rfl
  | var name isParm isLocal typeName =>
    dsimp only at h
    by_cases h1 : (isParm || isLocal) = true
    · rw [if_pos h1] at h
      obtain rfl := Except.ok.inj h
      simp [isAccess, h1]
    rw [if_neg h1] at h
    by_cases h2 : name = "nondet"
    · rw [if_pos h2] at h
      obtain rfl := Except.ok.inj h
      simp [isAccess, h2, StatementVisitor.size]
    rw [if_neg h2] at h
    by_cases h3 : typeName = "lock_t" ∨ typeName = "conditional_t"
    · rw [if_pos h3] at h
      simp at h
    rw [if_neg h3] at h
    obtain ⟨⟨var, store⟩, -, h⟩ := StatementVisitor.bind_ok h
    have hcount : (if isAccess (.var name isParm isLocal typeName) then 1 else 0) = 1 := by simp [isAccess, h1, h2]
    rw [hcount]
    exact size_addState (v := { v with identifierStore := store }) (fun c hc => length_addState hc) h

theorem size_addSync {id : ℕ} {op : SyncOp} {varName : String} (h : addSync k id op varName v = .ok w) :
    w.size = v.size + 1 := by
  obtain ⟨⟨var, store⟩, -, h⟩ := StatementVisitor.bind_ok h
  exact size_addState (v := { v with identifierStore := store }) (fun c hc => length_addState hc) h

theorem size_joinInner : (v.joinInner w).size = w.size := by
  unfold joinInner
  split_ifs
  · exact (alike_addSuccessor _ _).size
  · rfl

mutual

/-- a statement with one state at most -/
theorem traverseStmt_size {v w : StatementVisitor} {writer : Bool} {s : Stmt} (hone : statesOf unit k.seenStmt s ≤ 1)
    (h : traverseStmt unit call k writer s v = some (.ok w)) : w.size = v.size + statesOf unit k.seenStmt s := by
  have hsize : v.size = (resetNondet v).size := rfl
  by_cases hseen : s.id ∈ k.seenStmt
  · rw [traverseStmt_seen hseen] at h
    unfold statesOf
    rw [if_pos hseen]
    obtain rfl := Except.ok.inj (Option.some.inj h)
    rfl
  · rw [hsize]
    match s with
    | .artificial id =>
      rw [traverseStmt_artificial hseen] at h
      rw [statesOf, if_neg hseen]
      exact size_addPlain (Option.some.inj h)
    | .declRefExpr id decl =>
      rw [traverseStmt_declRefExpr hseen] at h
      rw [statesOf, if_neg hseen]
      exact size_visitDeclRefExpr (Option.some.inj h)
    | .binAssign id lhs rhs =>
      rw [statesOf, if_neg hseen] at hone ⊢
      rw [traverseStmt_binAssign hseen] at h
      obtain ⟨v1, h1, h⟩ := Front.bind_ok h
      obtain ⟨v2, h2, h⟩ := Front.bind_ok h
      obtain rfl := Except.ok.inj (Option.some.inj h)
      have hright := traverseStmt_size (by omega) h1
      have hleft : v2.size = v1.inner.size + statesOf unit k.seenStmt lhs := traverseStmt_size (by omega) h2
      rw [size_joinInner, hleft, ← Nat.add_assoc, ← hright]
      rfl
    | .returnStmt id children =>
      rw [statesOf, if_neg hseen] at hone ⊢
      rw [traverseStmt_returnStmt hseen] at h
      obtain ⟨v1, h1, h⟩ := Front.bind_ok h
      have hchildren := traverseChildren_size (by omega) h1
      rw [size_addPlain (Option.some.inj h), hchildren, Nat.add_assoc]
    | .callExpr id callee argument children =>
      rw [statesOf, if_neg hseen] at hone ⊢
      rw [traverseStmt_callExpr hseen] at h
      split at h
      · simp at h
      · rename_i hsync
        rw [hsync]
        exact size_addSync (Option.some.inj h)
      · rename_i hsync
        simp only [hsync] at hone ⊢
        obtain ⟨v1, h1, h⟩ := Front.bind_ok h
        cases hbody : calleeBody unit callee with
        | none =>
          simp only [hbody, Option.isSome_none, Bool.false_eq_true, if_false, Nat.add_zero] at h hone ⊢
          obtain rfl := Except.ok.inj (Option.some.inj h)
          exact traverseChildren_size hone h1
        | some cfg => simp [hbody] at hone
    | .other id children =>
      rw [statesOf, if_neg hseen] at hone ⊢
      rw [traverseStmt_other hseen] at h
      exact traverseChildren_size hone h

theorem traverseChildren_size {v w : StatementVisitor} {writer : Bool} {l : List Stmt}
    (hone : statesOfAll unit k.seenStmt l ≤ 1) (h : traverseChildren unit call k writer l v = some (.ok w)) :
    w.size = v.size + statesOfAll unit k.seenStmt l := by
  match l with
  | [] =>
    rw [traverseChildren] at h
    obtain rfl := Except.ok.inj (Option.some.inj h)
    rfl
  | s :: l =>
    rw [statesOfAll] at hone ⊢
    rw [traverseChildren] at h
    obtain ⟨v1, h1, h⟩ := Front.bind_ok h
    have hfirst := traverseStmt_size (by omega) h1
    have hrest := traverseChildren_size (by omega) h
    rw [hrest, hfirst, Nat.add_assoc]

end

/-! ## What is read -/

theorem Ready.resetNondet (hv : Ready v) : Ready (resetNondet v) := ⟨hv.draft, hv.lt, hv.progress, hv.last⟩

theorem Adds.of_resetNondet (h : Adds (resetNondet v) w l) : Adds v w l := by
  refine ⟨h.grows, ?_⟩
  rcases h.new with ⟨hsame, hl⟩ | ⟨first, hext⟩
  · exact .inl ⟨⟨hsame.size, hsame.edge, hsame.startState, hsame.endState⟩, hl⟩
  · exact .inr ⟨first, hext.piece, hext.reads, hext.last, hext.old, hext.start⟩

mutual

/-- **A statement.** -/
theorem traverseStmt_adds {m : ClangCfg → Language Event} {v w : StatementVisitor} {writer : Bool} {s : Stmt}
    (hcall : ∀ cfg ∈ stmtCallees unit k.seenStmt s, Inlines call m cfg) (hsingle : singleSided unit k.seenStmt s = true)
    (hv : Ready v) (h : traverseStmt unit call k writer s v = some (.ok w)) :
    Adds v w (stmtMeaning unit m k.seenStmt writer s) := by
  have hr := hv.resetNondet
  refine Adds.of_resetNondet ?_
  by_cases hseen : s.id ∈ k.seenStmt
  · rw [traverseStmt_seen hseen] at h
    unfold stmtMeaning
    rw [if_pos hseen]
    obtain rfl := Except.ok.inj (Option.some.inj h)
    exact .refl hr
  · match s with
    | .artificial id =>
      rw [traverseStmt_artificial hseen] at h
      rw [stmtMeaning, if_neg hseen]
      exact addPlain_adds hr (Option.some.inj h)
    | .declRefExpr id decl =>
      rw [traverseStmt_declRefExpr hseen] at h
      rw [stmtMeaning, if_neg hseen]
      exact visitDeclRefExpr_adds hr (Option.some.inj h)
    | .binAssign id lhs rhs =>
      rw [singleSided, if_neg hseen, Bool.and_eq_true, Bool.and_eq_true, decide_eq_true_iff] at hsingle
      obtain ⟨hright, hleft, hone⟩ := hsingle
      rw [traverseStmt_binAssign hseen] at h
      obtain ⟨v1, h1, h⟩ := Front.bind_ok h
      obtain ⟨v2, h2, h⟩ := Front.bind_ok h
      obtain rfl := Except.ok.inj (Option.some.inj h)
      rw [stmtCallees, if_neg hseen] at hcall
      rw [stmtMeaning, if_neg hseen]
      have hrhs := traverseStmt_adds (fun cfg hcfg => hcall cfg (List.mem_append_left _ hcfg)) hright hr h1
      have hv1 := hrhs.ready hr
      have hlhs := traverseStmt_adds (fun cfg hcfg => hcall cfg (List.mem_append_right _ hcfg)) hleft hv1.inner h2
      have hsize : v2.size = v1.inner.size + statesOf unit k.seenStmt lhs := traverseStmt_size hone h2
      have hinner : v1.inner.size = v1.size := rfl
      exact hrhs.trans hr (joinInner_adds hv1 hlhs (by omega))
    | .returnStmt id children =>
      rw [singleSided, if_neg hseen] at hsingle
      rw [traverseStmt_returnStmt hseen] at h
      obtain ⟨v1, h1, h⟩ := Front.bind_ok h
      rw [stmtCallees, if_neg hseen] at hcall
      rw [stmtMeaning, if_neg hseen]
      have hchildren := traverseChildren_adds hcall hsingle hr h1
      have hreturned := hchildren.trans hr (addPlain_adds (hchildren.ready hr) (Option.some.inj h))
      rwa [mul_one] at hreturned
    | .callExpr id callee argument children =>
      rw [singleSided, if_neg hseen] at hsingle
      rw [traverseStmt_callExpr hseen] at h
      rw [stmtCallees, if_neg hseen] at hcall
      split at h
      · simp at h
      · rename_i hsync
        rw [stmtMeaning, if_neg hseen]
        simp only [hsync]
        exact addSync_adds hr (calleeSync_spec hsync) (Option.some.inj h)
      · rename_i hsync
        rw [stmtMeaning, if_neg hseen]
        simp only [hsync] at hcall hsingle ⊢
        obtain ⟨v1, h1, h⟩ := Front.bind_ok h
        have hchildren := traverseChildren_adds (fun cfg hcfg => hcall cfg (List.mem_append_left _ hcfg)) hsingle hr h1
        cases hbody : calleeBody unit callee with
        | none =>
          simp only [hbody] at h ⊢
          obtain rfl := Except.ok.inj (Option.some.inj h)
          rw [mul_one]
          exact hchildren
        | some cfg =>
          simp only [hbody] at h ⊢
          have hcfg : Inlines call m cfg := hcall cfg (List.mem_append_right _ (by simp [hbody]))
          exact hchildren.trans hr (inlineCall_adds (hchildren.ready hr) hcfg h)
    | .other id children =>
      rw [singleSided, if_neg hseen] at hsingle
      rw [traverseStmt_other hseen] at h
      rw [stmtCallees, if_neg hseen] at hcall
      rw [stmtMeaning, if_neg hseen]
      exact traverseChildren_adds hcall hsingle hr h

theorem traverseChildren_adds {m : ClangCfg → Language Event} {v w : StatementVisitor} {writer : Bool} {l : List Stmt}
    (hcall : ∀ cfg ∈ childrenCallees unit k.seenStmt l, Inlines call m cfg)
    (hsingle : singleSidedAll unit k.seenStmt l = true) (hv : Ready v) (h : traverseChildren unit call k writer l v = some (.ok w)) :
    Adds v w (childrenMeaning unit m k.seenStmt writer l) := by
  match l with
  | [] =>
    rw [traverseChildren] at h
    rw [childrenMeaning]
    obtain rfl := Except.ok.inj (Option.some.inj h)
    exact .refl hv
  | s :: l =>
    rw [traverseChildren] at h
    rw [childrenCallees] at hcall
    rw [singleSidedAll, Bool.and_eq_true] at hsingle
    obtain ⟨v1, h1, h⟩ := Front.bind_ok h
    rw [childrenMeaning]
    have hfirst := traverseStmt_adds (fun cfg hcfg => hcall cfg (List.mem_append_left _ hcfg)) hsingle.1 hv h1
    have hrest := traverseChildren_adds (fun cfg hcfg => hcall cfg (List.mem_append_right _ hcfg)) hsingle.2
      (hfirst.ready hv) h
    exact hfirst.trans hv hrest

end

/-- `singleSided` for the statements of a block -/
def singleSidedElements (unit : TranslationUnit) : List ℕ → List Stmt → Bool
  | _, [] => true
  | seen, s :: l => singleSided unit seen s && singleSidedElements unit (s.id :: seen) l

/-- **The statements of a block.** -/
theorem traverseElements_adds {m : ClangCfg → Language Event} {seen : List ℕ} {l : List Stmt}
    (hcall : ∀ cfg ∈ elementsCallees unit seen l, Inlines call m cfg) (hsingle : singleSidedElements unit seen l = true)
    (hv : Ready v) (h : traverseElements unit call seen l v = some (.ok w)) :
    Adds v w (elementsMeaning unit m seen l) := by
  induction l generalizing seen v with
  | nil =>
    rw [traverseElements] at h
    obtain rfl := Except.ok.inj (Option.some.inj h)
    exact .refl hv
  | cons s l ih =>
    rw [traverseElements] at h
    rw [elementsCallees] at hcall
    rw [singleSidedElements, Bool.and_eq_true] at hsingle
    obtain ⟨v1, h1, h⟩ := Front.bind_ok h
    have hfirst := traverseStmt_adds (k := ⟨seen, unit.place⟩) (fun cfg hcfg => hcall cfg (List.mem_append_left _ hcfg))
      hsingle.1 hv h1
    have hrest := ih (fun cfg hcfg => hcall cfg (List.mem_append_right _ hcfg)) hsingle.2 (hfirst.ready hv) h
    exact hfirst.trans hv hrest

end FrontEnd

end Liss
