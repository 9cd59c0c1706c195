/-
What the placed locks cover between two listed symbols.

`minimise` leaves one edge between two symbols of a thread and records one path of removed states with it; the blow-up
of a list adds the states of that path, and `locked_together` asks for the lock there. The thread may have other paths
between the two symbols, such as around a call. Nothing asks for the lock there.

- `held_step`, `unlock_step`: along a forward edge a lock stays held if no unlock is placed on the edge, or if it is held
  at the end of the edge;
- `Detour`: the edges of the other paths that lead into states that have not been listed;
- `coverage`: a clause is covered iff no unlock is placed on the detours of the disjunct that is locked; this is so for
  every assignment where the detours have no position for a lock;
- `branch_uncovered`: an assignment that unlocks around a call on a branch.
-/
import Liss.Cfg.Minimise
import Liss.Placement.Discipline

namespace Liss.PlaceLocks

/-! ## Paths between listed symbols -/

/-- an edge that is no back edge -/
def IsForward (c : AbstractCfg) (u v : ℕ) : Prop :=
  u ∈ stateIds c ∧ v ∈ stateIds c ∧ ∃ e ∈ c.getSuccessors u, e.dst = v ∧ e.backEdge = false

/-- a path without back edges whose inner states carry no action -/
inductive ForwardPath (c : AbstractCfg) : ℕ → List ℕ → ℕ → Prop where
  | edge {u v : ℕ} : IsForward c u v → ForwardPath c u [] v
  | step {u d v : ℕ} {ds : List ℕ} :
      IsForward c u d → (c.getState d).action = none → ForwardPath c d ds v → ForwardPath c u (d :: ds) v

/-- the symbols of a list are actions of consecutive states of the minimised thread `t` -/
structure Consecutive (p : Program) (t : ℕ) (list : List Symbol) : Prop where
  symbol : ∀ s ∈ list, s.loc.thread = t ∧ ((p.minimisedThread t).getState s.loc.state).action = some s
  edge : list.IsChain fun a b => (p.minimisedThread t).HasEdge a.loc.state b.loc.state

variable (m : LockAssignment) (t l : ℕ)

/-- the lock is held at both ends of an edge and not given up in between -/
def HeldBetween (x y : ℕ) : Prop :=
  m.inl ⟨t, x⟩ l = true ∧ m.unlockA ⟨t, x⟩ l = false ∧ m.unlockB ⟨t, y⟩ l = false ∧ m.inl ⟨t, y⟩ l = true

/-- no unlock is placed on an edge -/
def NoUnlock (x y : ℕ) : Prop := m.unlockA ⟨t, x⟩ l = false ∧ m.unlockB ⟨t, y⟩ l = false

/-- a relation holds of all edges of a path -/
def Along (r : ℕ → ℕ → Prop) (u : ℕ) (ds : List ℕ) (v : ℕ) : Prop := (u :: (ds ++ [v])).IsChain r

/-- **covered**: between neighbours of every list the lock is held along every forward path -/
def Covered (p : Program) (lists : LockLists) : Prop :=
  ∀ list ∈ lists, ∀ a b : Symbol, [a, b] <:+: list → ∀ ds,
    ForwardPath (p.thread a.loc.thread) a.loc.state ds b.loc.state →
    Along (HeldBetween m a.loc.thread l) a.loc.state ds b.loc.state

/-- `locked_together` has chosen the disjunct -/
def Locked (p : Program) (lists : LockLists) : Prop :=
  ∀ list ∈ lists, ∀ s ∈ blowUpTrace p list, m.inl s.loc l = true

/-- the path that `minimise` has recorded with the edge between two states -/
def Recorded (p : Program) (t u : ℕ) (ds : List ℕ) (v : ℕ) : Prop :=
  ((p.minimisedThread t).edgeTo u v).map Edge.inBetweeners = some ds

/-- the blow-up has put the state into one of the lists -/
def Listed (p : Program) (lists : LockLists) (t x : ℕ) : Prop :=
  ∃ list ∈ lists, ∃ s ∈ blowUpTrace p list, s.loc = ⟨t, x⟩

/-- an edge into a state that is not listed, on a forward path between neighbours of a list -/
def Detour (p : Program) (lists : LockLists) (t x y : ℕ) : Prop :=
  ¬Listed p lists t y ∧ ∃ list ∈ lists, ∃ a b : Symbol, [a, b] <:+: list ∧ a.loc.thread = t ∧
    ∃ ds, ForwardPath (p.thread t) a.loc.state ds b.loc.state ∧ [x, y] <:+: a.loc.state :: (ds ++ [b.loc.state])

/-- no unlock is placed on the detours -/
def DetoursClear (p : Program) (lists : LockLists) : Prop := ∀ t x y, Detour p lists t x y → NoUnlock m t l x y

/-- the detours have no position for a lock -/
def Unbroken (p : Program) (lists : LockLists) : Prop :=
  ∀ t x y, Detour p lists t x y →
    ((p.thread t).getState x).lockAfter = none ∧ ((p.thread t).getState y).lockBefore = none

/-- the listed states are locked, as far as they are on forward paths between neighbours -/
def ListedHeld (p : Program) (lists : LockLists) : Prop :=
  ∀ list ∈ lists, ∀ a b : Symbol, [a, b] <:+: list → ∀ ds,
    ForwardPath (p.thread a.loc.thread) a.loc.state ds b.loc.state → ∀ x ∈ a.loc.state :: (ds ++ [b.loc.state]),
      Listed p lists a.loc.thread x → m.inl ⟨a.loc.thread, x⟩ l = true

/-! ## One edge -/

variable {m t l} {locks : List ℕ} {ord : HashOrder} {threads : List AbstractCfg} {c : AbstractCfg} {x y : ℕ}

theorem IsForward.mem_predecessorsForward (h : IsForward c x y) : x ∈ predecessorsForward c y :=
  PlaceLocks.mem_predecessorsForward.2 ⟨h.1, h.2.2⟩

theorem consistent_of_forward (h : addConstraints m locks ord threads = true) (ht : threads[t]? = some c)
    (hl : l ∈ locks) (he : IsForward c x y) : ∃ first, Consistent m c t y l first :=
  consistent (constraints_at h ht he.2.1 hl) ⟨x, he.mem_predecessorsForward⟩

/-- the lock status after a forward predecessor is the one `inl` is defined by -/
theorem inl_of_forward (h : addConstraints m locks ord threads = true) (ht : threads[t]? = some c)
    (hl : l ∈ locks) (he : IsForward c x y) :
    m.inl ⟨t, y⟩ l = (m.lockB ⟨t, y⟩ l || (!m.unlockB ⟨t, y⟩ l && inle m ⟨t, x⟩ l)) := by
  obtain ⟨first, hc⟩ := consistent_of_forward h ht hl he
  rw [hc.inl, hc.join x (predecessors_of_forward he.mem_predecessorsForward)]

/-- a lock that is not given up stays held -/
theorem held_step (h : addConstraints m locks ord threads = true) (ht : threads[t]? = some c) (hl : l ∈ locks)
    (he : IsForward c x y) (hx : m.inl ⟨t, x⟩ l = true) (hn : NoUnlock m t l x y) : HeldBetween m t l x y := by
  refine ⟨hx, hn.1, hn.2, ?_⟩
  rw [inl_of_forward h ht hl he]
  simp [inle, hx, hn.1, hn.2]

theorem not_unlocked_and_locked (h : addConstraints m locks ord threads = true) (ht : threads[t]? = some c)
    (hl : l ∈ locks) (hx : x ∈ stateIds c) :
    (m.unlockA ⟨t, x⟩ l = true → m.lockA ⟨t, x⟩ l = false) ∧
      (m.unlockB ⟨t, x⟩ l = true → m.lockB ⟨t, x⟩ l = false) := by
  have hat := constraints_at h ht hx hl
  simp only [lockConsistancyAt, consBasic, Bool.and_eq_true] at hat
  obtain ⟨⟨⟨⟨⟨⟨-, hA, hB⟩, -⟩, -⟩, -⟩, -⟩, -⟩ := hat
  constructor
  · intro hu
    simpa [hu] using hA
  · intro hu
    simpa [hu] using hB

/-- between two states where the lock is held it cannot be given up and taken again -/
theorem unlock_step (h : addConstraints m locks ord threads = true) (ht : threads[t]? = some c) (hl : l ∈ locks)
    (he : IsForward c x y) (hx : m.inl ⟨t, x⟩ l = true) (hy : m.inl ⟨t, y⟩ l = true) : HeldBetween m t l x y := by
  have hin := inl_of_forward h ht hl he
  rw [hy] at hin
  have hB : m.unlockB ⟨t, y⟩ l = false := by
    by_contra hne
    have hu : m.unlockB ⟨t, y⟩ l = true := by simpa using hne
    have hb := (not_unlocked_and_locked h ht hl he.2.1).2 hu
    simp [hu, hb] at hin
  have hA : m.unlockA ⟨t, x⟩ l = false := by
    by_contra hne
    have hu : m.unlockA ⟨t, x⟩ l = true := by simpa using hne
    have ha := (not_unlocked_and_locked h ht hl he.1).1 hu
    have hb : m.lockB ⟨t, y⟩ l = true := by simpa [inle, hu, ha] using hin
    -- to lock before `y` its predecessor has to be unlocked, an unlock right after it does not count
    obtain ⟨first, hc⟩ := consistent_of_forward h ht hl he
    have := (hc.lockB x he.mem_predecessorsForward hb).1
    simp [hx] at this
  exact ⟨hx, hA, hB, hy⟩

/-! ## Paths -/

theorem along_cons {r : ℕ → ℕ → Prop} {u d v : ℕ} {ds : List ℕ} :
    Along r u (d :: ds) v ↔ r u d ∧ Along r d ds v := by
  simp [Along]

theorem along_nil {r : ℕ → ℕ → Prop} {u v : ℕ} : Along r u [] v ↔ r u v := by
  simp [Along]

theorem along_iff {r : ℕ → ℕ → Prop} {u v : ℕ} {ds : List ℕ} :
    Along r u ds v ↔ ∀ x y, [x, y] <:+: u :: (ds ++ [v]) → r x y := by
  rw [Along, List.isChain_iff_forall_rel_of_append_cons_cons]
  constructor
  · intro h x y ⟨s, s', heq⟩
    exact h (by rw [← heq, List.append_assoc]; rfl)
  · intro h x y s s' heq
    exact h x y ⟨s, s', by rw [heq, List.append_assoc]; rfl⟩

/-- the ends of an edge of a path -/
theorem mem_of_edge {u v x y : ℕ} {ds : List ℕ} (h : [x, y] <:+: u :: (ds ++ [v])) : x ∈ u :: ds ∧ y ∈ ds ++ [v] := by
  obtain ⟨s, s', heq⟩ := h
  constructor
  · rcases List.eq_nil_or_concat' s' with rfl | ⟨r, z, rfl⟩
    · have hsplit : (s ++ [x]) ++ [y] = (u :: ds) ++ [v] := by simpa using heq
      rw [← (List.append_inj' hsplit rfl).1]
      simp
    · have hsplit : (s ++ [x, y] ++ r) ++ [z] = (u :: ds) ++ [v] := by simpa using heq
      rw [← (List.append_inj' hsplit rfl).1]
      simp
  · cases s with
    | nil =>
      have htail : y :: s' = ds ++ [v] := (List.cons.inj heq).2
      exact htail ▸ List.mem_cons_self
    | cons z s =>
      have htail : s ++ [x, y] ++ s' = ds ++ [v] := (List.cons.inj heq).2
      rw [← htail]
      simp

theorem ForwardPath.along {u v : ℕ} {ds : List ℕ} (h : ForwardPath c u ds v) : Along (IsForward c) u ds v := by
  induction h with
  | edge he => exact along_nil.2 he
  | step he _ _ ih => exact along_cons.2 ⟨he, ih⟩

/-- a path is held from its start on, if it is held where a set of states is entered and no unlock is placed on the
edges into others -/
theorem held_of_clear (h : addConstraints m locks ord threads = true) (ht : threads[t]? = some c) (hl : l ∈ locks)
    {P : ℕ → Prop} {u v : ℕ} {ds : List ℕ} (hp : ForwardPath c u ds v) (hu : m.inl ⟨t, u⟩ l = true)
    (hin : ∀ x ∈ ds ++ [v], P x → m.inl ⟨t, x⟩ l = true)
    (hclear : Along (fun x y => ¬P y → NoUnlock m t l x y) u ds v) : Along (HeldBetween m t l) u ds v := by
  have hedge : ∀ {x y}, IsForward c x y → m.inl ⟨t, x⟩ l = true → (P y → m.inl ⟨t, y⟩ l = true) →
      (¬P y → NoUnlock m t l x y) → HeldBetween m t l x y := by
    intro x y he hx hy hn
    by_cases hPy : P y
    · exact unlock_step h ht hl he hx (hy hPy)
    · exact held_step h ht hl he hx (hn hPy)
  induction hp with
  | edge he => exact along_nil.2 (hedge he hu (hin _ (by simp)) (along_nil.1 hclear))
  | step he _ _ ih =>
    obtain ⟨hfirst, hrest⟩ := along_cons.1 hclear
    have hheld := hedge he hu (hin _ (by simp)) hfirst
    exact along_cons.2 ⟨hheld, ih hheld.2.2.2 (fun x hx => hin x (List.mem_cons_of_mem _ hx)) hrest⟩

/-- the lock is held at all states of a path that is held -/
theorem inl_of_held {u v : ℕ} {ds : List ℕ} (h : Along (HeldBetween m t l) u ds v) :
    ∀ x ∈ u :: (ds ++ [v]), m.inl ⟨t, x⟩ l = true := by
  induction ds generalizing u with
  | nil =>
    have := along_nil.1 h
    simpa using ⟨this.1, this.2.2.2⟩
  | cons d ds ih =>
    obtain ⟨hfirst, hrest⟩ := along_cons.1 h
    intro x hx
    rcases List.mem_cons.1 hx with rfl | hx
    · exact hfirst.1
    · exact ih hrest x hx

/-! ## The recorded path -/

theorem thread_eq {p : Program} {u v : ℕ} {ds : List ℕ} (hp : ForwardPath (p.thread t) u ds v) :
    p.threads[t]? = some (p.thread t) := by
  by_contra hne
  have hnone : p.threads[t]? = none := by
    cases ht : p.threads[t]? with
    | none => rfl
    | some c => simp [Program.thread, List.getD_eq_getElem?_getD, ht] at hne
  have hu : u ∈ stateIds (p.thread t) := by
    cases hp with
    | edge he => exact he.1
    | step he => exact he.1
  simp [Program.thread, List.getD_eq_getElem?_getD, hnone, stateIds, AbstractCfg.noStates, AbstractCfg.empty] at hu

theorem minimisedThread_eq {p : Program} (h : p.threads[t]? = some c) :
    p.minimisedThreads[t]? = some (p.minimisedThread t) ∧
      ∃ fuel, c.minimise false fuel = some (p.minimisedThread t) := by
  obtain ⟨ht, rfl⟩ := List.getElem?_eq_some_iff.1 h
  have ht' : t < p.minimisedThreads.length := by rw [p.length_minimised]; exact ht
  have hget : p.minimisedThreads[t]? = some (p.minimisedThread t) := by
    rw [Program.minimisedThread, List.getD_eq_getElem _ _ ht', List.getElem?_eq_getElem ht']
  have hm := (List.forall₂_iff_get.1 p.minimised).2 t ht ht'
  rw [Program.minimisedThread, List.getD_eq_getElem _ _ ht', List.getElem?_eq_getElem ht']
  exact ⟨rfl, hm⟩

/-- an inner state is represented by a symbol with its own location -/
theorem nonActionSymbol_of_inner {p : Program} (h : p.threads[t]? = some c) {d : ℕ} (hd : d ∈ stateIds c)
    (hn : (c.getState d).action = none) :
    ∃ s : Symbol, ((p.minimisedThread t).getState d).nonActionSymbol = some s ∧ s.loc = ⟨t, d⟩ := by
  obtain ⟨-, fuel, hf⟩ := minimisedThread_eq h
  have hstate := AbstractCfg.minimise_state hf d
  simp only [State.mk.injEq] at hstate
  have hlt : d < c.states.length := by
    simp only [stateIds, List.mem_range'_1, AbstractCfg.noStates] at hd
    omega
  obtain ⟨hw, hid⟩ := p.wellFormed t c h
  have hnum := hw.numbered d (c.getState d) (by
    rw [AbstractCfg.getState, List.getD_eq_getElem _ _ hlt, List.getElem?_eq_getElem hlt])
  rw [State.Numbered, hn, hid] at hnum
  rw [hstate.2.1]
  simpa [Option.map_eq_some_iff] using hnum

theorem ForwardPath.inner {u v : ℕ} {ds : List ℕ} (h : ForwardPath c u ds v) :
    ∀ d ∈ ds, d ∈ stateIds c ∧ (c.getState d).action = none := by
  induction h with
  | edge _ => simp
  | step he ha _ ih => simpa using ⟨⟨he.2.1, ha⟩, ih⟩

/-- the symbols of the recorded path are in the blown-up list -/
theorem mem_blowUp_of_recorded {p : Program} {list : List Symbol} (hc : Consecutive p t list) {a b : Symbol}
    (hab : [a, b] <:+: list) {ds : List ℕ} (hp : ForwardPath (p.thread t) a.loc.state ds b.loc.state)
    (hrec : Recorded p t a.loc.state ds b.loc.state) {d : ℕ} (hd : d ∈ ds) :
    ∃ s ∈ blowUpTrace p list, s.loc = ⟨t, d⟩ := by
  have ha : a.loc.thread = t := (hc.symbol a (hab.subset (by simp))).1
  have hb : b.loc.thread = t := (hc.symbol b (hab.subset (by simp))).1
  obtain ⟨hmem, hact⟩ := hp.inner d hd
  obtain ⟨s, hs, hloc⟩ := nonActionSymbol_of_inner (thread_eq hp) hmem hact
  obtain ⟨e, he, rfl⟩ := Option.map_eq_some_iff.1 hrec
  refine ⟨s, inserted_mem_blowUpFrom _ hab (ha.trans hb.symm) ?_, hloc⟩
  rw [inserted, hb, he]
  exact List.mem_filterMap.2 ⟨d, hd, hs⟩

/-! ## All paths -/

/-- the symbols of a list are listed -/
theorem listed_of_mem {p : Program} {lists : LockLists} {list : List Symbol} (hlist : list ∈ lists) {s : Symbol}
    (hs : s ∈ list) : Listed p lists s.loc.thread s.loc.state :=
  ⟨list, hlist, s, mem_blowUpFrom _ hs, rfl⟩

/-- where a clause is covered the listed states on the paths are locked -/
theorem Covered.listedHeld {p : Program} {lists : LockLists} (h : Covered m l p lists) : ListedHeld m l p lists := by
  intro list hlist a b hab ds hp x hx _
  exact inl_of_held (h list hlist a b hab ds hp) x hx

/-- and the lock is not given up on a detour -/
theorem Covered.detoursClear {p : Program} {lists : LockLists} (h : Covered m l p lists) : DetoursClear m l p lists := by
  intro t x y hd
  obtain ⟨-, list, hlist, a, b, hab, rfl, ds, hp, hxy⟩ := hd
  have hheld := along_iff.1 (h list hlist a b hab ds hp) x y hxy
  exact ⟨hheld.2.1, hheld.2.2.1⟩

/-- conversely the lock stays held: over listed states by the constraints, over the others as nothing gives it up -/
theorem ListedHeld.covered {p : Program} {lists : LockLists} (hin : ListedHeld m l p lists)
    (h : addConstraints m locks ord p.threads = true) (hl : l ∈ locks) (hclear : DetoursClear m l p lists) :
    Covered m l p lists := by
  intro list hlist a b hab ds hp
  have hin := hin list hlist a b hab ds hp
  have hstart := hin _ List.mem_cons_self (listed_of_mem hlist (hab.subset (by simp)))
  apply held_of_clear h (thread_eq hp) hl hp hstart (fun x hx => hin x (List.mem_cons_of_mem _ hx))
  exact along_iff.2 fun x y hxy hy => hclear _ x y ⟨hy, list, hlist, a, b, hab, rfl, ds, hp, hxy⟩

theorem covered_iff {p : Program} (h : addConstraints m locks ord p.threads = true) (hl : l ∈ locks)
    {lists : LockLists} : Covered m l p lists ↔ ListedHeld m l p lists ∧ DetoursClear m l p lists :=
  ⟨fun hcov => ⟨hcov.listedHeld, hcov.detoursClear⟩, fun hlisted => hlisted.1.covered h hl hlisted.2⟩

/-- what `locked_together` has chosen is locked -/
theorem Locked.listedHeld {p : Program} {lists : LockLists} (h : Locked m l p lists) : ListedHeld m l p lists := by
  intro _ _ a b _ ds _ x _ hx
  obtain ⟨list, hlist, s, hs, hloc⟩ := hx
  exact hloc ▸ h list hlist s hs

/-- an unlock needs a position -/
theorem Unbroken.clear {p : Program} {lists : LockLists} (hu : Unbroken p lists)
    (h : addConstraints m locks ord p.threads = true) (hl : l ∈ locks) : DetoursClear m l p lists := by
  intro t x y hd
  obtain ⟨hafter, hbefore⟩ := hu t x y hd
  obtain ⟨-, list, -, a, b, -, -, ds, hp, hxy⟩ := hd
  have he := along_iff.1 hp.along x y hxy
  have hx := constraints_at h (thread_eq hp) he.1 hl
  have hy := constraints_at h (thread_eq hp) he.2.1 hl
  simp only [lockConsistancyAt, consLoc, hafter, hbefore, Option.isSome_none, Bool.false_or, Bool.and_eq_true,
    Bool.not_eq_true'] at hx hy
  exact ⟨hx.1.1.1.1.1.1.2.2, hy.1.1.1.1.1.1.1.2⟩

/-- a program in which `minimise` has recorded every path has no detours -/
theorem unbroken_of_recorded {p : Program} {lists : LockLists} (hc : ∀ list ∈ lists, ∃ t, Consecutive p t list)
    (hrec : ∀ t u ds v, ForwardPath (p.thread t) u ds v → Recorded p t u ds v) : Unbroken p lists := by
  intro t x y hd
  obtain ⟨hy, list, hlist, a, b, hab, rfl, ds, hp, hxy⟩ := hd
  refine absurd ?_ hy
  obtain ⟨t, hcons⟩ := hc list hlist
  have ha : a.loc.thread = t := (hcons.symbol a (hab.subset (by simp))).1
  have hb : b.loc.thread = t := (hcons.symbol b (hab.subset (by simp))).1
  subst ha
  rcases List.mem_append.1 (mem_of_edge hxy).2 with hd | hd
  · obtain ⟨s, hs, hloc⟩ := mem_blowUp_of_recorded hcons hab hp (hrec _ _ _ _ hp) hd
    exact ⟨list, hlist, s, hs, hloc⟩
  · rw [List.mem_singleton.1 hd, ← hb]
    exact listed_of_mem hlist (hab.subset (by simp))

theorem exists_locked {p : Program} {lockIds : ℕ → ℕ} {locksToPlace : LockSymbols}
    (h : lockedTogether m lockIds (blowUpLock p locksToPlace) = true) {k : ℕ} {d : Disj LockLists}
    (hk : locksToPlace[k]? = some d) : ∃ lists ∈ d, Locked m (lockIds k) p lists := by
  simp only [lockedTogether, List.all_eq_true, List.any_eq_true] at h
  obtain ⟨lists', hmem, hall⟩ := h (d.map fun lists => lists.map fun list => blowUpTrace p list, k)
    (List.mem_zipIdx_iff_getElem?.2 (by simp [blowUpLock, hk]))
  obtain ⟨lists, hlists, rfl⟩ := List.mem_map.1 hmem
  exact ⟨lists, hlists, fun list hlist s hs => hall _ (List.mem_map_of_mem hlist) s hs⟩

/-- **what the placement covers**: a clause is covered iff the listed states of one of its disjuncts are locked and no
unlock is placed on the detours. `locked_together` sees to the first for the disjunct it chooses, and there is nowhere
to place an unlock if the detours have no position for a lock. -/
theorem coverage {p : Program} (lockIds : ℕ → ℕ) {locksToPlace : LockSymbols}
    (h : addConstraints m locks ord p.threads = true) (hid : ∀ k < locksToPlace.length, lockIds k ∈ locks)
    (hlt : lockedTogether m lockIds (blowUpLock p locksToPlace) = true) :
    ∀ k d, locksToPlace[k]? = some d →
      ((∃ lists ∈ d, Covered m (lockIds k) p lists) ↔
        ∃ lists ∈ d, ListedHeld m (lockIds k) p lists ∧ DetoursClear m (lockIds k) p lists) ∧
      (∃ lists ∈ d, Locked m (lockIds k) p lists) ∧
      ∀ lists ∈ d, (Locked m (lockIds k) p lists → ListedHeld m (lockIds k) p lists) ∧
        (Unbroken p lists → DetoursClear m (lockIds k) p lists) := by
  intro k d hk
  have hl := hid k (List.getElem?_eq_some_iff.1 hk).1
  exact ⟨exists_congr fun lists => and_congr_right fun _ => covered_iff h hl, exists_locked hlt hk,
    fun lists _ => ⟨Locked.listedHeld, fun hu => hu.clear h hl⟩⟩

/-- where `minimise` has recorded every path, `locked_together` covers every clause -/
theorem coverage_of_recorded {p : Program} {lockIds : ℕ → ℕ} {locksToPlace : LockSymbols}
    (h : addConstraints m locks ord p.threads = true) (hid : ∀ k < locksToPlace.length, lockIds k ∈ locks)
    (hlt : lockedTogether m lockIds (blowUpLock p locksToPlace) = true)
    (hc : ∀ d ∈ locksToPlace, ∀ lists ∈ d, ∀ list ∈ lists, ∃ t, Consecutive p t list)
    (hrec : ∀ t u ds v, ForwardPath (p.thread t) u ds v → Recorded p t u ds v) {k : ℕ} {d : Disj LockLists}
    (hk : locksToPlace[k]? = some d) : ∃ lists ∈ d, Covered m (lockIds k) p lists := by
  obtain ⟨hklt, hget⟩ := List.getElem?_eq_some_iff.1 hk
  obtain ⟨lists, hlists, hlock⟩ := exists_locked hlt hk
  have hcons := hc d (hget ▸ List.getElem_mem hklt) lists hlists
  have hclear := (unbroken_of_recorded hcons hrec).clear h (hid k hklt)
  exact ⟨lists, hlists, hlock.listedHeld.covered h (hid k hklt) hclear⟩

/-! ## A call on a branch -/

/-- `x = 1; if (nondet) { f(); } y = 1;` with an empty `f` -/
def branchThread : AbstractCfg where
  threadId := 0
  states :=
    [State.ofId 0 0, { State.ofId 0 1 with returnState := 10 }, { State.ofId 0 2 with lockAfter := some 10 },
      { State.ofAction { operation := .write, var := 0, loc := ⟨0, 3⟩ } with
        nonDet := true, lockBefore := some 11, lockAfter := some 12 },
      { State.ofId 0 4 with returnState := 7, lockBefore := some 13 }, { State.ofId 0 5 with lockAfter := some 14 },
      { State.ofId 0 6 with lockBefore := some 15 }, { State.ofId 0 7 with lockAfter := some 16 },
      { State.ofAction { operation := .write, var := 1, loc := ⟨0, 8⟩ } with
        lockBefore := some 17, lockAfter := some 18 },
      { State.ofId 0 9 with lockBefore := some 19 }, { State.ofId 0 10 with final := true }]
  edges := [[], [{ dst := 2 }], [{ dst := 3 }], [{ dst := 4 }, { dst := 8 }], [{ dst := 5 }], [{ dst := 6 }],
    [{ dst := 7 }], [{ dst := 8 }], [{ dst := 9 }], [{ dst := 10 }], []]

theorem branchThread_wellFormed : branchThread.WellFormed ⟨2, 0, 0⟩ ∧ branchThread.threadId = 0 := by
  refine ⟨⟨by decide, by decide, fun id s hs => ?_⟩, rfl⟩
  have hid : id < 11 := (List.getElem?_eq_some_iff.1 hs).1
  have hall : ∀ id < 11, ∀ s ∈ branchThread.states[id]?,
      (s.action <|> s.nonActionSymbol).map Symbol.loc = some ⟨0, id⟩ := by
    decide
  exact hall id hid s hs

/-- the other thread is `x = 1;` -/
def branchProgram : Program :=
  Program.twoThreads ⟨2, 0, 0⟩ branchThread (Program.straight 1 [(.write, 0)]) 60 (by decide) (by decide)
    branchThread_wellFormed (Program.straight_wellFormed (by simp [Symbol.known]))

def writeX : Symbol := { operation := .write, var := 0, loc := ⟨0, 3⟩ }
def writeY : Symbol := { operation := .write, var := 1, loc := ⟨0, 8⟩ }
def otherX : Symbol := { operation := .write, var := 0, loc := ⟨1, 3⟩ }

def branchLocks : LockSymbols := [[[[writeX, writeY], [otherX]]]]

/-- lock 0 is taken before `x = 1` and released after `y = 1`, but around the call it is given up -/
def aroundCall : LockAssignment where
  lockB x _ := x = ⟨0, 3⟩ || x = ⟨1, 3⟩
  unlockB x _ := x = ⟨0, 4⟩
  lockA x _ := x = ⟨0, 7⟩
  unlockA x _ := x = ⟨0, 8⟩ || x = ⟨1, 3⟩
  inl x _ := x = ⟨0, 3⟩ || x = ⟨0, 8⟩ || x = ⟨1, 3⟩

theorem branchLocks_consecutive :
    ∀ d ∈ branchLocks, ∀ lists ∈ d, ∀ list ∈ lists, ∃ t, Consecutive branchProgram t list := by
  simp only [branchLocks, List.mem_cons, List.not_mem_nil, or_false]
  rintro d rfl lists hl list hlist
  simp only [List.mem_singleton] at hl
  subst hl
  simp only [List.mem_cons, List.not_mem_nil, or_false] at hlist
  rcases hlist with rfl | rfl
  · refine ⟨0, by decide, ?_⟩
    simp only [List.isChain_cons_cons, List.isChain_singleton, and_true]
    exact (by decide : ∃ e ∈ (branchProgram.minimisedThread 0).getSuccessors 3, e.dst = 8)
  · exact ⟨1, by decide, .singleton _⟩

theorem aroundCall_constraints : addConstraints aroundCall [0] ⟨id, fun _ => .refl _⟩ branchProgram.threads = true := by
  decide

/-- the lock is held all the way from `x = 1` to `y = 1` -/
def throughCall : LockAssignment where
  lockB x _ := x = ⟨0, 3⟩ || x = ⟨1, 3⟩
  unlockB _ _ := false
  lockA _ _ := false
  unlockA x _ := x = ⟨0, 8⟩ || x = ⟨1, 3⟩
  inl x _ := (x.thread = 0 && 3 ≤ x.state && x.state ≤ 8) || x = ⟨1, 3⟩

theorem throughCall_covered : ∃ lists ∈ [[[writeX, writeY], [otherX]]], Covered throughCall 0 branchProgram lists := by
  have hconstraints : addConstraints throughCall [0] ⟨id, fun _ => .refl _⟩ branchProgram.threads = true := by decide
  obtain ⟨hiff, ⟨lists, hlists, hlock⟩, -⟩ := coverage (fun _ => 0) hconstraints (by simp)
    (by decide : lockedTogether throughCall (fun _ => 0) (blowUpLock branchProgram branchLocks) = true) 0 _ rfl
  refine hiff.2 ⟨lists, hlists, hlock.listedHeld, ?_⟩
  intro t x y hd
  obtain ⟨-, list, hlist, a, b, hab, rfl, ds, hp, hxy⟩ := hd
  obtain rfl := List.mem_singleton.1 hlists
  have hx : (a = writeX ∧ b = writeY) := by
    rcases List.mem_pair.1 hlist with rfl | rfl
    · have := hab.eq_of_length rfl
      simpa using this
    · have := hab.length_le
      simp at this
  obtain ⟨rfl, rfl⟩ := hx
  refine ⟨?_, rfl⟩
  -- the second write is not on the way
  have hne : x ≠ 8 := by
    rintro rfl
    rcases List.mem_cons.1 (mem_of_edge hxy).1 with heq | hd
    · exact absurd heq (by decide)
    · exact absurd (hp.inner 8 hd).2 (by decide)
  simpa [throughCall, writeX] using hne

/-- on the way from `x = 1` to `y = 1` through the call of `f` the lock is given up -/
theorem aroundCall_not_covered :
    ¬∀ (k : ℕ) (d : Disj LockLists), branchLocks[k]? = some d →
      ∃ lists ∈ d, Covered aroundCall 0 branchProgram lists := by
  intro hcov
  obtain ⟨lists, hl, hcov⟩ := hcov 0 _ rfl
  obtain rfl := List.mem_singleton.1 hl
  have step : ∀ u v, (u ∈ stateIds branchThread ∧ v ∈ stateIds branchThread ∧
      ∃ e ∈ branchThread.getSuccessors u, e.dst = v ∧ e.backEdge = false) → IsForward branchThread u v := fun _ _ h => h
  have hpath : ForwardPath branchThread 3 [4, 5, 6, 7] 8 :=
    .step (step 3 4 (by decide)) (by decide) (.step (step 4 5 (by decide)) (by decide)
      (.step (step 5 6 (by decide)) (by decide) (.step (step 6 7 (by decide)) (by decide)
        (.edge (step 7 8 (by decide))))))
  have hheld := hcov [writeX, writeY] (by simp) writeX writeY (List.infix_refl _) [4, 5, 6, 7] hpath
  have := (along_cons.1 hheld).1.2.2.2
  simp [aroundCall, writeX] at this

/-- **the clause is not covered** although the assignment satisfies all constraints -/
theorem branch_uncovered :
    addConstraints aroundCall [0] ⟨id, fun _ => .refl _⟩ branchProgram.threads = true ∧
      lockedTogether aroundCall (fun _ => 0) (blowUpLock branchProgram branchLocks) = true ∧
      (∀ d ∈ branchLocks, ∀ lists ∈ d, ∀ list ∈ lists, ∃ t, Consecutive branchProgram t list) ∧
      ¬∀ (k : ℕ) (d : Disj LockLists), branchLocks[k]? = some d →
        ∃ lists ∈ d, Covered aroundCall 0 branchProgram lists :=
  ⟨aroundCall_constraints, by decide, branchLocks_consecutive, aroundCall_not_covered⟩

end Liss.PlaceLocks
