/-
Tables that number their keys: an association list that gives the i-th key it has met the value `f i` and never changes
an entry. `f` turns a position into a machine integer, so it is injective only as long as the table is short enough.

- `insertNew_numbered`: inserting the next value into a table keeps it a table of this form;
- `lookup_numbered`: what the table gives for a key;
- `position_extend`: the value of a key does not change when the table grows.
-/
import Mathlib.Tactic

namespace Liss.Numbering

variable {α β V : Type*} [DecidableEq α]

/-- `insert` into an `unordered_map`: an entry that is there stays -/
def insertNew (a : α) (b : β) (m : List (α × β)) : List (α × β) := if (m.lookup a).isSome then m else m ++ [(a, b)]

/-- the table of a list of keys -/
def numbered (f : ℕ → V) (l : List α) : List (α × V) := l.mapIdx fun i a => (a, f i)

/-- the value of a key -/
def position (f : ℕ → V) (l : List α) (a : α) : V := f (l.idxOf a)

/-- append a key that is new -/
def append (a : α) (l : List α) : List α := if a ∈ l then l else l ++ [a]

omit [DecidableEq α] in
@[simp] theorem length_numbered (f : ℕ → V) (l : List α) : (numbered f l).length = l.length := by simp [numbered]

omit [DecidableEq α] in
theorem numbered_concat (f : ℕ → V) (l : List α) (a : α) :
    numbered f (l ++ [a]) = numbered f l ++ [(a, f l.length)] := by
  simp [numbered, List.mapIdx_append]

theorem lookup_numbered (f : ℕ → V) (l : List α) (a : α) :
    (numbered f l).lookup a = if a ∈ l then some (position f l a) else none := by
  induction l using List.reverseRecOn with
  | nil => rfl
  | append_singleton l b ih =>
    rw [numbered_concat, List.lookup_append, ih]
    by_cases hl : a ∈ l
    · have hpos : position f (l ++ [b]) a = position f l a := by
        rw [position, position, List.idxOf_append, if_pos hl]
      rw [if_pos hl, Option.some_or, if_pos (List.mem_append_left _ hl), hpos]
    · by_cases hab : a = b
      · subst hab
        have hpos : position f (l ++ [a]) a = f l.length := by
          rw [position, List.idxOf_append, if_neg hl, List.idxOf_cons_self, Nat.zero_add]
        rw [if_neg hl, Option.none_or, List.lookup_cons_self, if_pos (by simp), hpos]
      · have hnone : a ∉ l ++ [b] := by simp [hl, hab]
        rw [if_neg hl, Option.none_or, if_neg hnone]
        simp [hab]

theorem insertNew_numbered (f : ℕ → V) (l : List α) (a : α) :
    insertNew a (f l.length) (numbered f l) = numbered f (append a l) := by
  rw [insertNew, lookup_numbered, append]
  by_cases ha : a ∈ l
  · rw [if_pos ha, if_pos ha, if_pos (Option.isSome_some)]
  · rw [if_neg ha, if_neg ha, if_neg (by simp), numbered_concat]

theorem lookup_isSome_of_mem {m : List (α × β)} {a : α} {b : β} (h : (a, b) ∈ m) :
    (m.lookup a).isSome = true := by
  rw [List.lookup_isSome_iff]
  exact ⟨(a, b), h, by simp⟩

theorem mem_insertNew {a a' : α} {b b' : β} {m : List (α × β)} :
    (a', b') ∈ insertNew a b m ↔ (a', b') ∈ m ∨ (m.lookup a).isSome = false ∧ a' = a ∧ b' = b := by
  unfold insertNew
  cases (m.lookup a).isSome with
  | true => simp
  | false => simp

/-- where every entry of `a` is `b`, a look-up that succeeds gives `b` -/
theorem lookup_eq_of_mem {m : List (α × β)} {a : α} {b : β} (h : (a, b) ∈ m) (hu : ∀ b', (a, b') ∈ m → b' = b) :
    m.lookup a = some b := by
  obtain ⟨b', hb'⟩ := Option.isSome_iff_exists.1 (lookup_isSome_of_mem h)
  obtain ⟨l1, l2, heq, -⟩ := List.lookup_eq_some_iff.1 hb'
  have hmem : (a, b') ∈ m := by
    rw [heq]
    simp
  rw [hb', hu b' hmem]

theorem mem_of_lookup {m : List (α × β)} {a : α} {b : β} (h : m.lookup a = some b) : (a, b) ∈ m := by
  obtain ⟨l1, l2, heq, -⟩ := List.lookup_eq_some_iff.1 h
  rw [heq]
  simp

@[simp] theorem mem_append {a b : α} {l : List α} : b ∈ append a l ↔ b ∈ l ∨ b = a := by
  unfold append
  split_ifs with h
  · constructor
    · exact .inl
    · rintro (hb | rfl)
      · exact hb
      · exact h
  · simp

theorem prefix_append (a : α) (l : List α) : l <+: append a l := by
  unfold append
  split_ifs
  · exact List.prefix_rfl
  · exact List.prefix_append _ _

theorem nodup_append {a : α} {l : List α} (h : l.Nodup) : (append a l).Nodup := by
  unfold append
  split_ifs with ha
  · exact h
  · rw [List.nodup_append]
    refine ⟨h, List.nodup_singleton a, fun x hx y hy => ?_⟩
    rintro rfl
    exact ha (List.mem_singleton.1 hy ▸ hx)

theorem idxOf_extend {l l' : List α} (h : l <+: l') {a : α} (ha : a ∈ l) : l'.idxOf a = l.idxOf a := by
  obtain ⟨t, rfl⟩ := h
  rw [List.idxOf_append, if_pos ha]

/-- a key that is new stands beyond the end of the old table -/
theorem length_le_idxOf {l l' : List α} (h : l <+: l') {a : α} (ha : a ∉ l) : l.length ≤ l'.idxOf a := by
  obtain ⟨t, rfl⟩ := h
  rw [List.idxOf_append, if_neg ha]
  exact Nat.le_add_left _ _

theorem position_extend {f : ℕ → V} {l l' : List α} (h : l <+: l') {a : α} (ha : a ∈ l) :
    position f l' a = position f l a := by
  rw [position, position, idxOf_extend h ha]

/-! ## Machine integers -/

/-- `f` numbers the first `n` positions by different values, which `g` turns back -/
structure Faithful (f : ℕ → V) (g : V → ℕ) (n : ℕ) : Prop where
  back : ∀ i < n, g (f i) = i
  forth : ∀ v, f (g v) = v

theorem faithful_uint32 : Faithful UInt32.ofNat UInt32.toNat (2 ^ 32) := by
  refine ⟨fun i hi => ?_, fun v => UInt32.ofNat_toNat⟩
  rw [UInt32.toNat_ofNat', Nat.mod_eq_of_lt hi]

theorem faithful_uint16 : Faithful UInt16.ofNat UInt16.toNat (2 ^ 16) := by
  refine ⟨fun i hi => ?_, fun v => UInt16.ofNat_toNat⟩
  rw [UInt16.toNat_ofNat', Nat.mod_eq_of_lt hi]

variable {f : ℕ → V} {g : V → ℕ} {n : ℕ} {l : List α}

theorem Faithful.index (h : Faithful f g n) (hl : l.length ≤ n) {a : α} (ha : a ∈ l) :
    g (position f l a) = l.idxOf a := h.back _ ((List.idxOf_lt_length_of_mem ha).trans_le hl)

theorem Faithful.injective (h : Faithful f g n) (hl : l.length ≤ n) {a b : α} (ha : a ∈ l) (hb : b ∈ l)
    (heq : position f l a = position f l b) : a = b := by
  have hidx : l.idxOf a = l.idxOf b := by rw [← h.index hl ha, ← h.index hl hb, heq]
  exact (List.idxOf_inj ha).1 hidx

/-- the values are those below the length of the table -/
theorem Faithful.range (h : Faithful f g n) (hl : l.length ≤ n) (hnodup : l.Nodup) (v : V) :
    (∃ a ∈ l, position f l a = v) ↔ g v < l.length := by
  constructor
  · rintro ⟨a, ha, rfl⟩
    rw [h.index hl ha]
    exact List.idxOf_lt_length_of_mem ha
  · intro hv
    refine ⟨l[g v], List.getElem_mem hv, ?_⟩
    rw [position, List.Nodup.idxOf_getElem hnodup, h.forth]

end Liss.Numbering
