/-
Automata whose states are compared by a part of them, their key. States with the same key behave alike, so a search that
remembers keys meets every state up to its key.

- `Respects`: the condition on the automaton;
- `Respects.closed`: a set of keys with those of the initial states that is closed under steps has all reachable keys;
- `Respects.path`: a path from another state with the same key;
- `Path.rename`, `Path.unrename`: paths of an automaton and of a renamed copy.
-/
import Liss.Lib.Automaton

namespace Liss.Automaton

variable {S K Sym : Type*}

/-- states with the same key behave alike -/
structure Respects (A : Automaton S Sym) (key : S → K) : Prop where
  final : ∀ s t, key s = key t → A.final s = A.final t
  next : ∀ s t, key s = key t → A.next s = A.next t
  succ : ∀ s t, key s = key t → ∀ x, (A.succ s x).map key = (A.succ t x).map key

def Reachable (A : Automaton S Sym) (s : S) : Prop := ∃ r, A.Run r s

/-- finitely many states up to their keys -/
def FiniteKeys (A : Automaton S Sym) (key : S → K) : Prop := (Set.image key {s | A.Reachable s}).Finite

variable {A : Automaton S Sym} {key : S → K}

theorem FiniteKeys.exists_list (h : A.FiniteKeys key) : ∃ univ : List K, ∀ s, A.Reachable s → key s ∈ univ := by
  obtain ⟨univ, huniv⟩ := Set.Finite.exists_finset_coe h
  refine ⟨univ.toList, fun s hs => ?_⟩
  rw [Finset.mem_toList, ← Finset.mem_coe, huniv]
  exact ⟨s, hs, rfl⟩

theorem respects_id (A : Automaton S Sym) : A.Respects id := by
  refine ⟨?_, ?_, ?_⟩
  · rintro s t rfl
    rfl
  · rintro s t rfl
    rfl
  · rintro s t rfl x
    rfl

theorem Reachable.initial {s : S} (h : s ∈ A.initial) : A.Reachable s := ⟨[], s, h, .nil s⟩

theorem Run.snoc {r : List (Trans S Sym)} {t : Trans S Sym} (h : A.Run r t.src) (ht : A.Step t) :
    A.Run (r ++ [t]) t.dst := by
  obtain ⟨s, hs, hp⟩ := h
  exact ⟨s, hs, hp.append (Path.single ht)⟩

theorem Reachable.step {t : Trans S Sym} (h : A.Reachable t.src) (ht : A.Step t) : A.Reachable t.dst := by
  obtain ⟨r, hr⟩ := h
  exact ⟨_, hr.snoc ht⟩

/-- what holds initially and is kept by every step from a reachable state holds of all reachable states -/
theorem Reachable.inv {I : S → Prop} (h0 : ∀ s ∈ A.initial, I s)
    (hstep : ∀ t, A.Step t → A.Reachable t.src → I t.src → I t.dst) {s : S} (h : A.Reachable s) : I s := by
  obtain ⟨r, s0, hs0, hp⟩ := h
  have hboth : A.Reachable s ∧ I s :=
    path_inv (fun s => A.Reachable s ∧ I s) (fun t ht hi => ⟨hi.1.step ht, hstep t ht hi.1 hi.2⟩) hp
      ⟨Reachable.initial hs0, h0 s0 hs0⟩
  exact hboth.2

/-- a step from another state with the same key -/
theorem Respects.step (h : A.Respects key) {t : Trans S Sym} (ht : A.Step t) {s : S} (hs : key s = key t.src) :
    ∃ u, A.Step ⟨s, t.sym, u⟩ ∧ key u = key t.dst := by
  have hmem : key t.dst ∈ (A.succ s t.sym).map key := by
    rw [h.succ s t.src hs]
    exact List.mem_map_of_mem ht.2
  obtain ⟨u, hu, hkey⟩ := List.mem_map.1 hmem
  exact ⟨u, ⟨by rw [h.next s t.src hs]; exact ht.1, hu⟩, hkey⟩

theorem Respects.path (h : A.Respects key) {s u : S} {r : List (Trans S Sym)} (hp : A.Path s r u) {s' : S}
    (hs : key s' = key s) : ∃ r' u', A.Path s' r' u' ∧ word r' = word r ∧ key u' = key u := by
  induction hp generalizing s' with
  | nil s => exact ⟨[], s', .nil s', rfl, hs⟩
  | cons ht _ ih =>
    obtain ⟨m, hm, hkey⟩ := h.step ht hs
    obtain ⟨r', u', hp', hw, hu⟩ := ih hkey
    exact ⟨_, u', .cons hm hp', by rw [word_cons, word_cons, hw], hu⟩

/-- **Closed sets of keys.** It is enough to look at one state for each key. -/
theorem Respects.closed (h : A.Respects key) {R : K → Prop} (h0 : ∀ s ∈ A.initial, R (key s))
    (hstep : ∀ k, R k → ∃ s, key s = k ∧ ∀ t, A.Step t → t.src = s → R (key t.dst)) {s : S} (hs : A.Reachable s) :
    R (key s) := by
  refine Reachable.inv (I := fun s => R (key s)) h0 (fun t ht _ hR => ?_) hs
  obtain ⟨s', hs', hclosed⟩ := hstep _ hR
  obtain ⟨u, hu, hkey⟩ := h.step ht hs'
  rw [← hkey]
  exact hclosed _ hu rfl

/-! ## Renaming states and symbols -/

variable {T Sym' : Type*} {B : Automaton T Sym'} {f : S → T} {g : Sym → Sym'} {I : S → Prop}

/-- a path stays one when states and symbols are renamed, if every step does -/
theorem Path.rename (hstep : ∀ t, A.Step t → I t.src → I t.dst ∧ B.Step ⟨f t.src, g t.sym, f t.dst⟩) {s u : S}
    {r : List (Trans S Sym)} (hp : A.Path s r u) (hs : I s) :
    I u ∧ ∃ r', B.Path (f s) r' (f u) ∧ word r' = (word r).map g := by
  induction hp with
  | nil s => exact ⟨hs, [], .nil _, rfl⟩
  | cons ht _ ih =>
    obtain ⟨hI, hB⟩ := hstep _ ht hs
    obtain ⟨hu, r', hp', hw⟩ := ih hI
    exact ⟨hu, _, .cons hB hp', by rw [word_cons, word_cons, hw, List.map_cons]⟩

/-- a path of the renamed automaton comes from one, if every step does -/
theorem Path.unrename (hstep : ∀ s, I s → ∀ t', B.Step t' → t'.src = f s →
      ∃ t, A.Step t ∧ t.src = s ∧ t'.sym = g t.sym ∧ t'.dst = f t.dst ∧ I t.dst) {v v' : T} {r' : List (Trans T Sym')}
    (hp : B.Path v r' v') {s : S} (hs : I s) (hv : v = f s) :
    ∃ r u, A.Path s r u ∧ I u ∧ v' = f u ∧ word r' = (word r).map g := by
  induction hp generalizing s with
  | nil v => exact ⟨[], s, .nil s, hs, hv, rfl⟩
  | cons ht _ ih =>
    obtain ⟨t, hA, rfl, hsym, hdst, hI⟩ := hstep s hs _ ht hv
    obtain ⟨r, u, hp, hu, hv', hw⟩ := ih hI hdst
    exact ⟨t :: r, u, .cons hA hp, hu, hv', by rw [word_cons, word_cons, hw, hsym, List.map_cons]⟩

end Liss.Automaton
