/-
The base types of Liss: `types.h`, `options.h`, `abstraction/location.h`, `abstraction/symbol.h`.

Machine integers: thread ids, state ids, variables and counters are ℕ, positions of a thread automaton are ℤ (negative:
the state has been passed, `no_state` is 0), a missing thread id (`no_thread`) is `none`. Widths are kept where the
code depends on them: the branch number of a tag is cut to 8 bits and a conflict handle (`conflict_t`, the tagged
16-bit integer) is a `BitVec 16`.

Names, file positions and clang pointers of a symbol are left out: the modelled functions do not read them.
-/
import Mathlib.Tactic

namespace Liss

/-- the int16 state number that stands for "no state" -/
def noState : ℕ := 0

/-- `options.h` -/
def assumesAllowSwitch : Bool := false

/-- `options.h` -/
def condyieldIsAlwaysYield : Bool := true

@[simp] theorem assumesAllowSwitch_eq : assumesAllowSwitch = false := rfl
@[simp] theorem condyieldIsAlwaysYield_eq : condyieldIsAlwaysYield = true := rfl

/-- `conj`, `disj`, `dnf`, `cnf` are vectors of atoms, resp. vectors of those -/
abbrev Conj (α : Type*) := List α
abbrev Disj (α : Type*) := List α
abbrev Dnf (α : Type*) := List (Conj α)
abbrev Cnf (α : Type*) := List (Disj α)

/-! ## Symbols -/

inductive OpClass where
  | read
  | write
  | lock
  | unlock
  | wait
  | waitNot
  | notify
  | reset
  | waitReset
  | yield
  | epsilon
  | tag
deriving DecidableEq, Repr

structure Location where
  thread : ℕ
  state : ℕ
deriving DecidableEq, Repr

/-- a symbol on which no flag is set and that is no branch -/
theorem plain_flags (operation : OpClass) :
    (false = true → operation = .wait ∨ operation = .waitNot) ∧
      (false = true → operation = .lock ∨ operation = .unlock) ∧ ((-1 : ℤ) ≠ -1 → operation = .tag) :=
  ⟨nofun, nofun, fun h => absurd rfl h⟩

/-- A symbol of the alphabet. `flags` states what the only code that sets the two flags (`TraverseCallExpr`) does,
`assume` is set for `assume` and `assume_not` alone, `synthesised` for `lock_s` and `unlock_s` alone, and what the
constructors do, only that of a tag sets the branch. -/
structure Symbol where
  operation : OpClass
  var : ℕ := 0
  loc : Location
  /-- int8, -1 when the symbol is no tag -/
  tagBranch : ℤ := -1
  assume : Bool := false
  synthesised : Bool := false
  flags : (assume = true → operation = .wait ∨ operation = .waitNot) ∧
    (synthesised = true → operation = .lock ∨ operation = .unlock) ∧ (tagBranch ≠ -1 → operation = .tag) := by
      exact plain_flags _
deriving DecidableEq, Repr

namespace Symbol

def threadId (s : Symbol) : ℕ := s.loc.thread

def stateId (s : Symbol) : ℕ := s.loc.state

/-- the symbol of a state without action -/
def ofState (threadId stateId : ℕ) : Symbol := { operation := .epsilon, loc := ⟨threadId, stateId⟩ }

/-- uint8 to int8 -/
def int8 (n : ℕ) : ℤ := if n % 256 < 128 then (n % 256 : ℕ) else (n % 256 : ℕ) - 256

/-- the tag of branch number `branch` (uint8) at a state -/
def ofBranch (threadId stateId branch : ℕ) : Symbol :=
  { operation := .tag, loc := ⟨threadId, stateId⟩, tagBranch := int8 branch, flags := by simp }

/-- `state::id` and `edge::id` replace the state number in a copy of the symbol -/
def withState (s : Symbol) (newId : ℕ) : Symbol := { s with loc := ⟨s.loc.thread, newId⟩ }

def isEpsilon (s : Symbol) : Bool := s.operation != .read && s.operation != .write && s.operation != .tag

def isRealEpsilon (s : Symbol) : Bool := s.operation == .epsilon

def isPreemptionPoint (s : Symbol) : Bool :=
  match s.operation with
  | .read | .write | .unlock | .notify | .reset | .epsilon | .tag => false
  | .yield => true
  | .lock => !s.synthesised
  | .waitReset | .waitNot | .wait => !s.assume || assumesAllowSwitch

/-- this point may not be locked: it is a wait or a lock statement -/
def isUnlockablePoint (s : Symbol) : Bool :=
  match s.operation with
  | .read | .write | .unlock | .notify | .reset | .epsilon | .tag => false
  | .yield => false
  | .lock => !s.synthesised
  | .waitReset | .waitNot | .wait => !s.assume || assumesAllowSwitch

/-- `symbol::operator==`; symbols are compared by this in every container -/
def equals (a b : Symbol) : Bool :=
  if a.loc ≠ b.loc then false
  else if a.tagBranch = -1 then
    if b.tagBranch ≠ -1 then false
    else a.operation == b.operation && a.var == b.var && a.loc == b.loc
  else b.tagBranch == a.tagBranch

/-- `find` in an `unordered_set` of symbols -/
def isIn (s : Symbol) (l : List Symbol) : Bool := l.any (fun t => t.equals s)

/-- what `operator==` looks at -/
def key (s : Symbol) : Location × ℤ × Option (OpClass × ℕ) :=
  (s.loc, s.tagBranch, if s.tagBranch = -1 then some (s.operation, s.var) else none)

theorem equals_iff_key (a b : Symbol) : a.equals b = true ↔ a.key = b.key := by
  unfold equals key
  by_cases hl : a.loc = b.loc
  · by_cases ha : a.tagBranch = -1
    · by_cases hb : b.tagBranch = -1
      · simp [hl, ha, hb]
      · simp [hl, ha, hb, Ne.symm hb]
    · by_cases hb : b.tagBranch = a.tagBranch
      · simp [hl, ha, hb]
      · simp [hl, ha, hb, Ne.symm hb]
  · simp [hl]

@[simp] theorem equals_refl (a : Symbol) : a.equals a = true := (equals_iff_key a a).2 rfl

theorem equals_symm {a b : Symbol} (h : a.equals b = true) : b.equals a = true :=
  (equals_iff_key b a).2 ((equals_iff_key a b).1 h).symm

theorem equals_trans {a b c : Symbol} (h1 : a.equals b = true) (h2 : b.equals c = true) : a.equals c = true :=
  (equals_iff_key a c).2 (((equals_iff_key a b).1 h1).trans ((equals_iff_key b c).1 h2))

theorem loc_eq_of_equals {a b : Symbol} (h : a.equals b = true) : a.loc = b.loc :=
  congrArg Prod.fst ((equals_iff_key a b).1 h)

theorem threadId_eq_of_equals {a b : Symbol} (h : a.equals b = true) : a.threadId = b.threadId :=
  congrArg Location.thread (loc_eq_of_equals h)

/-- symbols that are no tags are equal only if they have the same operation -/
theorem operation_eq_of_equals {a b : Symbol} (h : a.equals b = true) (hb : b.operation ≠ .tag) :
    a.operation = b.operation := by
  have hbt : b.tagBranch = -1 := by
    by_contra hne
    exact hb (b.flags.2.2 hne)
  have hk := (equals_iff_key a b).1 h
  simp only [key, Prod.mk.injEq] at hk
  obtain ⟨-, hat, hop⟩ := hk
  rw [hbt] at hat
  simp only [hat, hbt, if_true, Option.some.injEq, Prod.mk.injEq] at hop
  exact hop.1

theorem isIn_iff {s : Symbol} {l : List Symbol} : s.isIn l = true ↔ ∃ t ∈ l, t.equals s = true := by
  simp [isIn]

end Symbol

/-! ## `tagged_int<uint16_t>` -/

/-- the high bit -/
def conflictMask : BitVec 16 := 0x8000#16

/-- `max_payload = mask - 2`, so that no value, tagged or not, is the invalid one (all bits set) -/
def maxPayload : ℕ := 32766

/-- `conflict_t`: a 15-bit payload and a tag bit. No such value is `invalid_`, so the checks for it never throw. -/
structure ConflictT where
  data : BitVec 16
  inRange : (data &&& ~~~conflictMask).toNat ≤ maxPayload
deriving DecidableEq, Repr

namespace ConflictT

theorem or_mask_clear (x : BitVec 16) : (x ||| conflictMask) &&& ~~~conflictMask = x &&& ~~~conflictMask := by
  ext i hi
  simp [Bool.and_or_distrib_right]

/-- `conflict_t(i)`: the argument is cut to 16 bits, then `payload(value)` throws a `range_error` (`none`) when the
value is above `max_payload` -/
def ofIndex (i : ℕ) : Option ConflictT :=
  if h : ((BitVec.ofNat 16 i) &&& ~~~conflictMask).toNat ≤ maxPayload ∧ (BitVec.ofNat 16 i).toNat ≤ maxPayload then
    some ⟨BitVec.ofNat 16 i, h.1⟩
  else none

/-- `set()` -/
def set (c : ConflictT) : ConflictT :=
  ⟨c.data ||| conflictMask, by rw [or_mask_clear]; exact c.inRange⟩

/-- `test()` -/
def test (c : ConflictT) : Bool := c.data &&& conflictMask != 0#16

/-- `payload()` -/
def payload (c : ConflictT) : ℕ := (c.data &&& ~~~conflictMask).toNat

theorem small_and_mask {x : BitVec 16} (h : x.toNat ≤ maxPayload) : x &&& conflictMask = 0#16 := by
  have hm : conflictMask = BitVec.twoPow 16 15 := by decide
  rw [hm, BitVec.and_twoPow, if_neg]
  unfold maxPayload at h
  simp [BitVec.getLsbD, Nat.testBit_lt_two_pow (show x.toNat < 2 ^ 15 by omega)]

theorem small_and_not_mask {x : BitVec 16} (h : x.toNat ≤ maxPayload) : x &&& ~~~conflictMask = x := by
  have h0 := small_and_mask h
  calc x &&& ~~~conflictMask = (x &&& ~~~conflictMask) ||| (x &&& conflictMask) := by rw [h0]; simp
    _ = x := by
      ext i hi
      cases hx : x[i] <;> simp [hx]

theorem ofIndex_eq_some {i : ℕ} {c : ConflictT} :
    ofIndex i = some c ↔ c.data = BitVec.ofNat 16 i ∧ i % 65536 ≤ maxPayload := by
  have hto : (BitVec.ofNat 16 i).toNat = i % 65536 := by simp
  unfold ofIndex
  constructor
  · intro h
    split_ifs at h with hc
    · simp only [Option.some.injEq] at h
      rw [← h, ← hto]
      exact ⟨rfl, hc.2⟩
  · rintro ⟨hd, hi⟩
    have hs : (BitVec.ofNat 16 i).toNat ≤ maxPayload := by rw [hto]; exact hi
    have hc : ((BitVec.ofNat 16 i) &&& ~~~conflictMask).toNat ≤ maxPayload ∧
      (BitVec.ofNat 16 i).toNat ≤ maxPayload := by
      rw [small_and_not_mask hs]; exact ⟨hs, hs⟩
    rw [dif_pos hc, Option.some.injEq]
    cases c
    simp only at hd
    subst hd
    rfl

theorem ofIndex_eq_none {i : ℕ} : ofIndex i = none ↔ maxPayload < i % 65536 := by
  rw [Option.eq_none_iff_forall_ne_some, ← not_le]
  constructor
  · intro h hi
    have hs : (BitVec.ofNat 16 i).toNat ≤ maxPayload := by simpa using hi
    exact h ⟨BitVec.ofNat 16 i, by rw [small_and_not_mask hs]; exact hs⟩ (ofIndex_eq_some.2 ⟨rfl, hi⟩)
  · intro h c hc
    exact h (ofIndex_eq_some.1 hc).2

theorem payload_of_ofIndex {i : ℕ} {c : ConflictT} (h : ofIndex i = some c) : c.payload = i % 65536 := by
  obtain ⟨hd, hi⟩ := ofIndex_eq_some.1 h
  have hto : c.data.toNat = i % 65536 := by rw [hd]; simp
  rw [payload, small_and_not_mask (by rw [hto]; exact hi), hto]

theorem test_of_ofIndex {i : ℕ} {c : ConflictT} (h : ofIndex i = some c) : c.test = false := by
  obtain ⟨hd, hi⟩ := ofIndex_eq_some.1 h
  have hto : c.data.toNat = i % 65536 := by rw [hd]; simp
  simp [test, small_and_mask (show c.data.toNat ≤ maxPayload by rw [hto]; exact hi)]

@[simp] theorem payload_set (c : ConflictT) : c.set.payload = c.payload := by
  simp only [set, payload, or_mask_clear]

@[simp] theorem test_set (c : ConflictT) : c.set.test = true := by
  have h : (c.data ||| conflictMask) &&& conflictMask = conflictMask := by
    ext i hi
    cases hx : conflictMask[i] <;> simp [hx]
  simp only [set, test, h]
  decide

/-- a handle that is not tagged is no tagged one -/
theorem set_ne {c d : ConflictT} (hd : d.test = false) : c.set ≠ d := by
  intro heq
  have htest : d.test = true := heq ▸ test_set c
  rw [hd] at htest
  simp at htest

theorem test_eq (c : ConflictT) : c.test = c.data.getLsbD 15 := by
  have hm : conflictMask = BitVec.twoPow 16 15 := by decide
  have hne : BitVec.twoPow 16 15 ≠ 0#16 := by decide
  rw [test, hm, BitVec.and_twoPow]
  cases hb : c.data.getLsbD 15
  · rfl
  · simp

/-- a handle is its payload and its tag bit -/
theorem ext_payload {c d : ConflictT} (hp : c.payload = d.payload) (ht : c.test = d.test) : c = d := by
  have hlow : c.data &&& ~~~conflictMask = d.data &&& ~~~conflictMask := BitVec.eq_of_toNat_eq hp
  have hm : conflictMask = BitVec.twoPow 16 15 := by decide
  have hhigh : c.data &&& conflictMask = d.data &&& conflictMask := by
    have hbit : c.data.getLsbD 15 = d.data.getLsbD 15 := by rw [← test_eq, ← test_eq, ht]
    rw [hm, BitVec.and_twoPow, BitVec.and_twoPow, hbit]
  have hsplit : ∀ x : BitVec 16, (x &&& ~~~conflictMask) ||| (x &&& conflictMask) = x := by
    intro x
    ext i hi
    cases hx : x[i] <;> simp [hx]
  have : c.data = d.data := by rw [← hsplit c.data, ← hsplit d.data, hlow, hhigh]
  cases c
  cases d
  simp only at this
  subst this
  rfl

/-- a payload in range has a handle, tagged or not -/
theorem exists_handle {n : ℕ} (hn : n ≤ maxPayload) (tag : Bool) : ∃ c : ConflictT, c.payload = n ∧ c.test = tag := by
  have hmod : n % 65536 = n := Nat.mod_eq_of_lt (by unfold maxPayload at hn; omega)
  obtain ⟨c, hc⟩ : ∃ c, ofIndex n = some c := by
    rw [← Option.ne_none_iff_exists', Ne, ofIndex_eq_none, hmod]
    omega
  cases tag with
  | false => exact ⟨c, by rw [payload_of_ofIndex hc, hmod], test_of_ofIndex hc⟩
  | true => exact ⟨c.set, by rw [payload_set, payload_of_ofIndex hc, hmod], test_set c⟩

theorem ofIndex_iff {n : ℕ} (hn : n ≤ maxPayload) {c : ConflictT} :
    ofIndex n = some c ↔ c.payload = n ∧ c.test = false := by
  have hmod : n % 65536 = n := Nat.mod_eq_of_lt (by unfold maxPayload at hn; omega)
  constructor
  · intro h
    exact ⟨by rw [payload_of_ofIndex h, hmod], test_of_ofIndex h⟩
  · rintro ⟨hp, ht⟩
    obtain ⟨d, hd⟩ : ∃ d, ofIndex n = some d := by
      rw [← Option.ne_none_iff_exists', Ne, ofIndex_eq_none, hmod]
      omega
    rw [hd, Option.some.injEq]
    exact ext_payload (by rw [payload_of_ofIndex hd, hmod, hp]) (by rw [test_of_ofIndex hd, ht])

end ConflictT

end Liss
