/-
`abstraction/identifier_store.h`, `abstraction/identifier_store.cpp`: the numbers of the names of variables, locks and
conditionals, in order of their first use.

The three functions test for the maximum before they look for the name. As long as a category is not full, a name that
is there keeps its number and a new one gets the next. In a full category a name that is there is refused as well.

- `NameTable.Numbered`, `IdentifierStore.Consistent`: names and numbers are in bijection;
- `stable_iff`: a call does what it should exactly if it does not ask for a name of a full category;
- `stable_run_iff`: the same of a sequence of calls, whatever their categories.
-/
import Mathlib.Tactic

namespace Liss

/-- what the front end throws, with its text -/
inductive FrontError where
  | rangeError (message : String)
  | parseError (message : String)
deriving DecidableEq, Repr

/-- a vector of names and the map back from a name to its number -/
structure NameTable where
  names : List String := []
  map : List (String × ℕ) := []
deriving DecidableEq, Repr

/-- the number of a name, which is new if the name is -/
def NameTable.insert (t : NameTable) (max : ℕ) (message name : String) : Except FrontError (ℕ × NameTable) :=
  if t.names.length = max then .error (.rangeError message)
  else match t.map.lookup name with
    | some id => .ok (id, t)
    | none => .ok (t.names.length, { names := t.names ++ [name], map := (name, t.names.length) :: t.map })

def maxVariables : ℕ := 65535

def maxLocks : ℕ := 64

def maxConditionals : ℕ := 64

structure IdentifierStore where
  variableNames : NameTable := {}
  lockNames : NameTable := {}
  conditionalNames : NameTable := {}
deriving DecidableEq, Repr

namespace IdentifierStore

/-- `insert_variable` -/
def insertVariable (s : IdentifierStore) (name : String) : Except FrontError (ℕ × IdentifierStore) :=
  (s.variableNames.insert maxVariables "Too many variables in program" name).map fun r =>
    (r.1, { s with variableNames := r.2 })

/-- `insert_lock` -/
def insertLock (s : IdentifierStore) (name : String) : Except FrontError (ℕ × IdentifierStore) :=
  (s.lockNames.insert maxLocks "Too many locks in program" name).map fun r => (r.1, { s with lockNames := r.2 })

/-- `insert_conditonal` -/
def insertConditonal (s : IdentifierStore) (name : String) : Except FrontError (ℕ × IdentifierStore) :=
  (s.conditionalNames.insert maxConditionals "Too many conditionals in program" name).map fun r =>
    (r.1, { s with conditionalNames := r.2 })

/-! ## Calls -/

inductive Category where
  | var
  | lock
  | conditional
deriving DecidableEq, Repr

structure Insertion where
  category : Category
  name : String
deriving DecidableEq, Repr

def Category.maximum : Category → ℕ
  | .var => maxVariables
  | .lock => maxLocks
  | .conditional => maxConditionals

def table (s : IdentifierStore) : Category → NameTable
  | .var => s.variableNames
  | .lock => s.lockNames
  | .conditional => s.conditionalNames

def insert (s : IdentifierStore) (i : Insertion) : Except FrontError (ℕ × IdentifierStore) :=
  match i.category with
  | .var => s.insertVariable i.name
  | .lock => s.insertLock i.name
  | .conditional => s.insertConditonal i.name

/-- the store after a call; one that throws has changed nothing -/
def after (s : IdentifierStore) (i : Insertion) : IdentifierStore :=
  match s.insert i with
  | .ok r => r.2
  | .error _ => s

def run (s : IdentifierStore) (calls : List Insertion) : IdentifierStore := calls.foldl after s

/-! ## Names and numbers -/

end IdentifierStore

/-- the map gives the position of each name -/
def NameTable.Numbered (t : NameTable) : Prop := ∀ name id, t.map.lookup name = some id ↔ t.names[id]? = some name

namespace NameTable

variable {t t' : NameTable} {max : ℕ} {message name : String}

theorem Numbered.lookup_none (h : t.Numbered) : t.map.lookup name = none ↔ name ∉ t.names := by
  constructor
  · intro hnone hmem
    obtain ⟨id, hid⟩ := List.mem_iff_getElem?.1 hmem
    rw [(h name id).2 hid] at hnone
    simp at hnone
  · intro hmem
    rw [Option.eq_none_iff_forall_ne_some]
    intro id hid
    exact hmem (List.mem_of_getElem? ((h name id).1 hid))

/-- a name with the next number -/
theorem Numbered.concat (h : t.Numbered) (hnew : name ∉ t.names) :
    Numbered { names := t.names ++ [name], map := (name, t.names.length) :: t.map } := by
  intro name' id
  rw [List.lookup_cons]
  by_cases hname : name' = name
  · subst hname
    rw [beq_self_eq_true]
    constructor
    · intro hid
      rw [← Option.some.inj hid, List.getElem?_concat_length]
    · intro hid
      -- the new name stands at the end only
      rcases Nat.lt_trichotomy id t.names.length with hlt | heq | hgt
      · rw [List.getElem?_append_left hlt] at hid
        exact absurd (List.mem_of_getElem? hid) hnew
      · rw [heq]
      · rw [List.getElem?_eq_none (by simp; omega)] at hid
        simp at hid
  · rw [beq_eq_false_iff_ne.2 hname]
    change t.map.lookup name' = some id ↔ _
    rw [h name' id]
    rcases Nat.lt_or_ge id t.names.length with hlt | hge
    · rw [List.getElem?_append_left hlt]
    · rw [List.getElem?_eq_none hge, List.getElem?_append_right hge, List.getElem?_singleton]
      refine iff_of_false (by simp) ?_
      split_ifs
      · exact fun hid => hname (Option.some.inj hid).symm
      · simp

theorem insert_full (hfull : t.names.length = max) : t.insert max message name = .error (.rangeError message) :=
  if_pos hfull

theorem insert_known (h : t.Numbered) (hfull : t.names.length ≠ max) {id : ℕ} (hid : t.names[id]? = some name) :
    t.insert max message name = .ok (id, t) := by
  rw [insert, if_neg hfull, (h name id).2 hid]

theorem insert_new (h : t.Numbered) (hfull : t.names.length ≠ max) (hnew : name ∉ t.names) :
    t.insert max message name =
      .ok (t.names.length, { names := t.names ++ [name], map := (name, t.names.length) :: t.map }) := by
  rw [insert, if_neg hfull, h.lookup_none.2 hnew]

end NameTable

namespace IdentifierStore

variable {s : IdentifierStore} {i : Insertion}

/-- in each category names and numbers are in bijection, and the numbers fit into their type -/
def Consistent (s : IdentifierStore) : Prop :=
  ∀ c : Category, (s.table c).Numbered ∧ (s.table c).names.length ≤ c.maximum

theorem consistent_empty : ({} : IdentifierStore).Consistent := by
  intro c
  cases c with
  | var => exact ⟨fun name id => by simp [table], Nat.zero_le _⟩
  | lock => exact ⟨fun name id => by simp [table], Nat.zero_le _⟩
  | conditional => exact ⟨fun name id => by simp [table], Nat.zero_le _⟩

/-- the text of the error -/
def Category.message : Category → String
  | .var => "Too many variables in program"
  | .lock => "Too many locks in program"
  | .conditional => "Too many conditionals in program"

def setTable (s : IdentifierStore) (t : NameTable) : Category → IdentifierStore
  | .var => { s with variableNames := t }
  | .lock => { s with lockNames := t }
  | .conditional => { s with conditionalNames := t }

/-- the three functions are one -/
theorem insert_eq (s : IdentifierStore) (i : Insertion) : s.insert i =
    ((s.table i.category).insert i.category.maximum i.category.message i.name).map
      fun r => (r.1, s.setTable r.2 i.category) := by
  obtain ⟨category, name⟩ := i
  cases category with
  | var => rfl
  | lock => rfl
  | conditional => rfl

theorem table_setTable (s : IdentifierStore) (t : NameTable) (c c' : Category) :
    (s.setTable t c).table c' = if c' = c then t else s.table c' := by
  cases c <;> cases c' <;> rfl

theorem setTable_table (s : IdentifierStore) (c : Category) : s.setTable (s.table c) c = s := by
  cases c with
  | var => rfl
  | lock => rfl
  | conditional => rfl

/-- the category has no room for a further name -/
def Full (s : IdentifierStore) (c : Category) : Prop := (s.table c).names.length = c.maximum

theorem insert_full (hfull : s.Full i.category) : s.insert i = .error (.rangeError i.category.message) := by
  rw [insert_eq, NameTable.insert_full hfull]
  rfl

theorem insert_known (h : s.Consistent) (hfull : ¬s.Full i.category) {id : ℕ}
    (hid : (s.table i.category).names[id]? = some i.name) : s.insert i = .ok (id, s) := by
  rw [insert_eq, NameTable.insert_known (h i.category).1 hfull hid]
  change Except.ok (id, s.setTable (s.table i.category) i.category) = _
  rw [setTable_table]

/-- the store with a new name -/
def extended (s : IdentifierStore) (i : Insertion) : IdentifierStore :=
  s.setTable { names := (s.table i.category).names ++ [i.name],
               map := (i.name, (s.table i.category).names.length) :: (s.table i.category).map } i.category

theorem insert_new (h : s.Consistent) (hfull : ¬s.Full i.category) (hnew : i.name ∉ (s.table i.category).names) :
    s.insert i = .ok ((s.table i.category).names.length, s.extended i) := by
  rw [insert_eq, NameTable.insert_new (h i.category).1 hfull hnew]
  rfl

theorem consistent_extended (h : s.Consistent) (hfull : ¬s.Full i.category)
    (hnew : i.name ∉ (s.table i.category).names) : (s.extended i).Consistent := by
  intro c
  rw [extended, table_setTable]
  split_ifs with hc
  · subst hc
    refine ⟨(h _).1.concat hnew, ?_⟩
    have hle := (h i.category).2
    rw [List.length_append, List.length_singleton]
    exact Nat.lt_of_le_of_ne hle hfull
  · exact h c

/-- **One call.** -/
theorem consistent_after (h : s.Consistent) (i : Insertion) : (s.after i).Consistent := by
  unfold after
  by_cases hfull : s.Full i.category
  · rw [insert_full hfull]
    exact h
  · by_cases hmem : i.name ∈ (s.table i.category).names
    · obtain ⟨id, hid⟩ := List.mem_iff_getElem?.1 hmem
      rw [insert_known h hfull hid]
      exact h
    · rw [insert_new h hfull hmem]
      exact consistent_extended h hfull hmem

/-- **All calls.** -/
theorem consistent_run (h : s.Consistent) (calls : List Insertion) : (s.run calls).Consistent := by
  induction calls generalizing s with
  | nil => exact h
  | cons i calls ih => exact ih (consistent_after h i)

/-! ## What a call should do -/

/-- a name that is there keeps its number and nothing changes, a new one gets a number of which it is the name, and only
a new name for which there is no room is refused -/
structure Stable (s : IdentifierStore) (i : Insertion) : Prop where
  known : ∀ id, (s.table i.category).names[id]? = some i.name → s.insert i = .ok (id, s)
  named : ∀ id s', s.insert i = .ok (id, s') → (s'.table i.category).names[id]? = some i.name ∧
    ∀ (c : Category) (name : String) (id : ℕ), (s.table c).names[id]? = some name →
      (s'.table c).names[id]? = some name
  refused : (∃ e, s.insert i = .error e) ↔ i.name ∉ (s.table i.category).names ∧ s.Full i.category
  unchanged : ∀ e, s.insert i = .error e → s.after i = s ∧ e = .rangeError i.category.message

/-- the call asks for a name that is there, in a category that is full -/
def Crowded (s : IdentifierStore) (i : Insertion) : Prop :=
  s.Full i.category ∧ i.name ∈ (s.table i.category).names

theorem getElem?_extended {c : Category} {name : String} {id : ℕ} (hid : (s.table c).names[id]? = some name) :
    ((s.extended i).table c).names[id]? = some name := by
  rw [extended, table_setTable]
  split_ifs with hc
  · subst hc
    rw [List.getElem?_append_left (List.getElem?_eq_some_iff.1 hid).1]
    exact hid
  · exact hid

theorem stable_of_full (hfull : s.Full i.category) (hnew : i.name ∉ (s.table i.category).names) : s.Stable i := by
  have hins := insert_full hfull
  refine ⟨fun id hid => absurd (List.mem_of_getElem? hid) hnew, fun id s' h => ?_, iff_of_true ⟨_, hins⟩ ⟨hnew, hfull⟩,
    fun e he => ⟨?_, ?_⟩⟩
  · rw [hins] at h
    simp at h
  · rw [after, he]
  · exact (Except.error.inj (hins.symm.trans he)).symm

theorem stable_of_room (h : s.Consistent) (hfull : ¬s.Full i.category) : s.Stable i := by
  have hok : ∃ r, s.insert i = .ok r ∧ (r.2.table i.category).names[r.1]? = some i.name ∧
      ∀ (c : Category) (name : String) (id : ℕ), (s.table c).names[id]? = some name →
        (r.2.table c).names[id]? = some name := by
    by_cases hmem : i.name ∈ (s.table i.category).names
    · obtain ⟨id, hid⟩ := List.mem_iff_getElem?.1 hmem
      exact ⟨_, insert_known h hfull hid, hid, fun _ _ _ h => h⟩
    · refine ⟨_, insert_new h hfull hmem, ?_, fun c name id => getElem?_extended⟩
      rw [extended, table_setTable, if_pos rfl]
      exact List.getElem?_concat_length
  obtain ⟨r, hr, hname, hkept⟩ := hok
  have hnone : ∀ e, s.insert i ≠ .error e := by
    intro e he
    rw [hr] at he
    cases he
  refine ⟨fun id => insert_known h hfull, fun id s' hs' => ?_, ?_, fun e he => absurd he (hnone e)⟩
  · obtain rfl := Except.ok.inj (hr.symm.trans hs')
    exact ⟨hname, hkept⟩
  · exact iff_of_false (fun he => hnone he.choose he.choose_spec) fun hh => hfull hh.2

theorem stable_iff (h : s.Consistent) : s.Stable i ↔ ¬s.Crowded i := by
  constructor
  · intro hs hc
    obtain ⟨hnew, -⟩ := hs.refused.1 ⟨_, insert_full hc.1⟩
    exact hnew hc.2
  · intro hc
    by_cases hfull : s.Full i.category
    · exact stable_of_full hfull fun hmem => hc ⟨hfull, hmem⟩
    · exact stable_of_room h hfull

/-- **Sequences of calls.** -/
theorem stable_run_iff (calls : List Insertion) :
    ((∀ before i rest, calls = before ++ i :: rest → (run {} before).Stable i) ∧
        ∀ before rest, calls = before ++ rest → (run {} before).Consistent) ↔
      ∀ before i rest, calls = before ++ i :: rest → ¬(run {} before).Crowded i := by
  constructor
  · intro h before i rest hcalls
    exact (stable_iff (consistent_run consistent_empty before)).1 (h.1 before i rest hcalls)
  · intro h
    refine ⟨fun before i rest hcalls => ?_, fun before rest _ => consistent_run consistent_empty before⟩
    exact (stable_iff (consistent_run consistent_empty before)).2 (h before i rest hcalls)

/-! ## A full category -/

/-- a lock with a name of its own for each number -/
def nthLock (n : ℕ) : Insertion := ⟨.lock, String.ofList (List.replicate n 'l')⟩

theorem nthLock_injective {m n : ℕ} (h : (nthLock m).name = (nthLock n).name) : m = n := by
  have := congrArg List.length (String.ofList_injective h)
  simpa using this

theorem run_nthLock {n : ℕ} (hn : n ≤ maxLocks) :
    (run {} ((List.range n).map nthLock)).lockNames.names = (List.range n).map fun i => (nthLock i).name := by
  induction n with
  | zero => rfl
  | succ n ih =>
    have ih := ih (Nat.le_of_succ_le hn)
    rw [List.range_succ, List.map_append, List.map_append, run, List.foldl_append]
    change (after (run {} ((List.range n).map nthLock)) (nthLock n)).lockNames.names = _
    set s := run {} ((List.range n).map nthLock) with hs
    have hfull : ¬s.Full (nthLock n).category := by
      change ¬s.lockNames.names.length = maxLocks
      rw [ih, List.length_map, List.length_range]
      omega
    have hnew : (nthLock n).name ∉ (s.table (nthLock n).category).names := by
      change (nthLock n).name ∉ s.lockNames.names
      rw [ih, List.mem_map]
      intro hh
      obtain ⟨m, hm, hname⟩ := hh
      rw [List.mem_range, nthLock_injective hname] at hm
      exact lt_irrefl _ hm
    rw [after, insert_new (consistent_run consistent_empty _) hfull hnew]
    change s.lockNames.names ++ [(nthLock n).name] = _
    rw [ih]
    rfl

theorem crowded_nthLock {n : ℕ} (hn : n = maxLocks) : (run {} ((List.range n).map nthLock)).Crowded (nthLock 0) := by
  have hnames := run_nthLock hn.le
  refine ⟨?_, ?_⟩
  · change (run {} ((List.range n).map nthLock)).lockNames.names.length = maxLocks
    rw [hnames, List.length_map, List.length_range]
    exact hn
  · change (nthLock 0).name ∈ (run {} ((List.range n).map nthLock)).lockNames.names
    rw [hnames]
    exact List.mem_map_of_mem (List.mem_range.2 (by rw [hn]; decide))

/-- after 64 locks the first of them is refused -/
theorem nthLock_refused : ¬∀ calls : List Insertion,
    (∀ before i rest, calls = before ++ i :: rest → (run {} before).Stable i) ∧
      ∀ before rest, calls = before ++ rest → (run {} before).Consistent := by
  intro h
  have hstable := (h ((List.range maxLocks).map nthLock ++ [nthLock 0])).1 _ _ _ rfl
  exact (stable_iff (consistent_run consistent_empty _)).1 hstable (crowded_nthLock rfl)

end IdentifierStore

end Liss
