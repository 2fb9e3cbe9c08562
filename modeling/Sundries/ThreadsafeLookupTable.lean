import Mathlib.Logic.Function.Basic
import Sundries.AssocList
import Sundries.Machine
import Sundries.Tally

/-!
# `threadsafe_lookup_table`

A hash table with a fixed number of buckets, each a list of key-value pairs with a
`shared_mutex` of its own.  `value_for`, `add_or_update_mapping` and `remove_mapping`
work on the bucket of their key under its mutex; the section they spend under it is one
step.  `get_map` locks the buckets one after the other, copies every pair of every
bucket into an ordered map and releases the mutexes.

An iterator into a bucket is a position of its list, `end()` the length of the list.
Since a section is one step, a mutex is free between steps or held by a `get_map`.

`finite_map`: in every run the table is the finite map that its updates, in the order of
their sections, describe.
-/
namespace Sundries.ThreadsafeLookupTable

open AssocList

/-- The arguments of the table: the number of buckets, `_hasher`, and `operator<` of the
keys, which `std::map` uses. -/
structure Setup (K : Type) where
  numBuckets : Nat
  hasher : K → Nat
  less : K → K → Bool

/-- Which bucket `get_bucket` picks. -/
def Setup.index {K : Type} (setup : Setup K) (key : K) : Nat :=
  setup.hasher key % setup.numBuckets

variable {K V Tid : Type}

/-! ## `bucket_type` -/

section Bucket
variable [BEq K]

def findEntryFor (data : List (K × V)) (key : K) : Nat :=
  data.findIdx fun item => item.1 == key

def valueFor (data : List (K × V)) (key : K) (default : V) : V :=
  match data[findEntryFor data key]? with
  | none => default
  | some foundEntry => foundEntry.2

def addOrUpdateMapping (data : List (K × V)) (key : K) (value : V) : List (K × V) :=
  let foundEntry := findEntryFor data key
  if foundEntry = data.length then data ++ [(key, value)]
  else data.modify foundEntry fun entry => (entry.1, value)

def removeMapping (data : List (K × V)) (key : K) : List (K × V) :=
  let foundEntry := findEntryFor data key
  if foundEntry ≠ data.length then data.eraseIdx foundEntry else data

end Bucket

/-- The calls that lock one bucket. -/
inductive Op (K V : Type) where
  | valueFor (key : K) (default : V)
  | addOrUpdateMapping (key : K) (value : V)
  | removeMapping (key : K)
  deriving DecidableEq

/-- What such a call returns. -/
inductive Reply (V : Type) where
  | value (v : V)
  | done
  deriving DecidableEq

def Op.key : Op K V → K
  | .valueFor key _ | .addOrUpdateMapping key _ | .removeMapping key => key

/-- What a call does to its bucket. -/
def Op.apply [BEq K] (data : List (K × V)) : Op K V → List (K × V)
  | .valueFor _ _ => data
  | .addOrUpdateMapping key value => ThreadsafeLookupTable.addOrUpdateMapping data key value
  | .removeMapping key => ThreadsafeLookupTable.removeMapping data key

/-- What a call answers. -/
def Op.reply [BEq K] (data : List (K × V)) : Op K V → Reply V
  | .valueFor key default => .value (ThreadsafeLookupTable.valueFor data key default)
  | .addOrUpdateMapping _ _ | .removeMapping _ => .done

/-! ## The table -/

/-- Where a thread is in the member functions. -/
inductive Pc (K V : Type) where
  | idle
  /-- Called; the section under the bucket's mutex comes next. -/
  | called (op : Op K V)
  | returned (r : Reply V)
  /-- In `get_map`, about to lock the bucket `i`. -/
  | locking (i : Nat)
  /-- In `get_map`, at the entry `j` of the bucket `i`. -/
  | inserting (i j : Nat) (res : List (K × V))
  /-- In `get_map`, which is about to return `res`: the locks are being destroyed. -/
  | releasing (res : List (K × V))
  deriving DecidableEq

/-- The buckets' lists, the threads that hold their mutexes exclusively, and the threads'
program points. -/
structure State (K V Tid : Type) where
  data : Nat → List (K × V)
  mutex : Nat → Option Tid
  pc : Tid → Pc K V

/-- The steps; the order in which `get_map` releases the mutexes is left open. -/
inductive Label (K V Tid : Type) where
  | call (t : Tid) (op : Op K V)
  | access (t : Tid)
  | getMap (t : Tid)
  | lock (t : Tid)
  | insert (t : Tid)
  | release (t : Tid) (i : Nat)
  | ret (t : Tid)
  deriving DecidableEq

/-- The thread that takes the step. -/
def Label.tid : Label K V Tid → Tid
  | .call t _ | .access t | .getMap t | .lock t | .insert t | .release t _ | .ret t => t

variable [BEq K] [DecidableEq Tid] (setup : Setup K)

namespace State

def goto (s : State K V Tid) (t : Tid) (pc : Pc K V) : State K V Tid :=
  { s with pc := Function.update s.pc t pc }

/-- `get_map` goes on to lock the bucket `i`, or to the entries if there is none. -/
def lockFrom (s : State K V Tid) (t : Tid) (i : Nat) : State K V Tid :=
  s.goto t (if i < setup.numBuckets then .locking i else .inserting 0 0 [])

/-- One entry of the bucket `i` is inserted, or `get_map` goes on to the next bucket. -/
def insertAt (s : State K V Tid) (t : Tid) (i j : Nat) (res : List (K × V)) : State K V Tid :=
  if i < setup.numBuckets then
    match (s.data i)[j]? with
    | some entry => s.goto t (.inserting i (j + 1) (insertSorted setup.less entry res))
    | none => s.goto t (.inserting (i + 1) 0 res)
  else s.goto t (.releasing res)

/-- The thread holds the mutex of some bucket. -/
def holdsSome (s : State K V Tid) (t : Tid) : Bool :=
  (List.range setup.numBuckets).any fun i => s.mutex i = some t

/-- All pairs in the table. -/
def table (s : State K V Tid) : List (K × V) := (List.range setup.numBuckets).flatMap s.data

end State

/-- The table and its callers. -/
def machine : Machine (State K V Tid) (Label K V Tid) where
  init := ⟨fun _ => [], fun _ => none, fun _ => .idle⟩
  step s
    | .call t op =>
      match s.pc t with
      | .idle => some (s.goto t (.called op))
      | _ => none
    | .access t =>
      match s.pc t with
      | .called op =>
        let i := setup.index op.key
        if s.mutex i = none then
          some ({ s with data := Function.update s.data i (op.apply (s.data i)) }.goto t
            (.returned (op.reply (s.data i))))
        else none
      | _ => none
    | .getMap t =>
      match s.pc t with
      | .idle => some (s.lockFrom setup t 0)
      | _ => none
    | .lock t =>
      match s.pc t with
      | .locking i =>
        if s.mutex i = none then
          some ({ s with mutex := Function.update s.mutex i (some t) }.lockFrom setup t (i + 1))
        else none
      | _ => none
    | .insert t =>
      match s.pc t with
      | .inserting i j res => some (s.insertAt setup t i j res)
      | _ => none
    | .release t i =>
      match s.pc t with
      | .releasing _ =>
        if s.mutex i = some t then some { s with mutex := Function.update s.mutex i none }
        else none
      | _ => none
    | .ret t =>
      match s.pc t with
      | .returned _ => some (s.goto t .idle)
      | .releasing _ => if s.holdsSome setup t then none else some (s.goto t .idle)
      | _ => none

/-- The call whose section a step is, with its answer. -/
def effect (s : State K V Tid) : Label K V Tid → List (Op K V × Reply V)
  | .access t =>
    match s.pc t with
    | .called op => [(op, op.reply (s.data (setup.index op.key)))]
    | _ => []
  | _ => []

/-- The calls of a run whose sections have been entered, in the order of these, with their
answers. -/
def effects (ls : List (Label K V Tid)) : List (Op K V × Reply V) :=
  (machine setup).trace (effect setup) (machine setup).init ls

/-! ## What it is for -/

/-- What a call does to a finite map. -/
def Op.update (m : K → Option V) : Op K V → K → Option V
  | .valueFor _ _ => m
  | .addOrUpdateMapping key value => fun k => if key == k then some value else m k
  | .removeMapping key => fun k => if key == k then none else m k

/-- The finite map that the calls describe. -/
def mapped (ops : List (Op K V)) : K → Option V := ops.foldl Op.update fun _ => none

omit [DecidableEq Tid] in
theorem mapped_concat (ops : List (Op K V)) (op : Op K V) :
    mapped (ops ++ [op]) = op.update (mapped ops) := by
  simp [mapped]

/-- The calls that change the value of a key equal to `k`. -/
def Op.Writes (k : K) : Op K V → Prop
  | .valueFor _ _ => False
  | .addOrUpdateMapping key _ | .removeMapping key => key == k

/-- The last of the calls that wrote a key equal to `k` was an `add_or_update_mapping` to `v`. -/
def LastWritten (ops : List (Op K V)) (k : K) (v : V) : Prop :=
  ∃ before key later, ops = before ++ .addOrUpdateMapping key v :: later ∧ (key == k) ∧
    ∀ op ∈ later, ¬ op.Writes k

/-- What a call may return after the calls `ops`. -/
def Op.Answer (ops : List (Op K V)) : Op K V → Reply V → Prop
  | .valueFor key default, r =>
    ∃ v, r = .value v ∧ (LastWritten ops key v ∨ v = default ∧ ∀ w, ¬ LastWritten ops key w)
  | .addOrUpdateMapping _ _, r | .removeMapping _, r => r = .done

/-- The thread `t` has called `op` in the run and has not moved since. -/
def Called (ls : List (Label K V Tid)) (t : Tid) (op : Op K V) : Prop :=
  ∃ before since, ls = before ++ .call t op :: since ∧ ∀ l ∈ since, l.tid ≠ t

/-- The thread `t` has called, its section has come after the calls `effects setup before`, and
`r` is the answer to that. -/
def Answered (ls : List (Label K V Tid)) (t : Tid) (r : Reply V) : Prop :=
  ∃ op before since, ls = before ++ .access t :: since ∧ Called before t op ∧
    (∀ l ∈ since, l.tid ≠ t) ∧ op.Answer ((effects setup before).map Prod.fst) r

omit [DecidableEq Tid] in
theorem mapped_eq_some_iff {ops : List (Op K V)} {k : K} {v : V} :
    mapped ops k = some v ↔ LastWritten ops k v := by
  induction ops using List.reverseRecOn with
  | nil => simp [mapped, LastWritten]
  | append_singleton ops op ih =>
    rw [mapped_concat]
    have hkeep : ¬ op.Writes k → (op.update (mapped ops) k = mapped ops k) := by
      intro hw
      cases op with
      | valueFor key d => rfl
      | addOrUpdateMapping key w => exact if_neg hw
      | removeMapping key => exact if_neg hw
    constructor
    · intro h
      by_cases hw : op.Writes k
      · cases op with
        | valueFor key d => cases hw
        | addOrUpdateMapping key w =>
          have hv : w = v := Option.some.inj ((if_pos hw).symm.trans h)
          exact ⟨ops, key, [], by rw [hv], hw, nofun⟩
        | removeMapping key => cases (if_pos hw).symm.trans h
      · obtain ⟨before, key, later, rfl, hkey, hlater⟩ := ih.mp ((hkeep hw).symm.trans h)
        refine ⟨before, key, later ++ [op], by simp, hkey, fun op' hmem => ?_⟩
        rcases List.mem_append.mp hmem with hold | hnew
        · exact hlater op' hold
        · rwa [List.mem_singleton.mp hnew]
    · rintro ⟨before, key, later, hops, hkey, hlater⟩
      rcases List.eq_nil_or_concat' later with rfl | ⟨later, op', rfl⟩
      · obtain ⟨-, hop⟩ := List.append_inj' hops rfl
        cases hop
        exact if_pos hkey
      · have hsplit : ops ++ [op] = (before ++ .addOrUpdateMapping key v :: later) ++ [op'] := by
          rw [hops]
          simp
        obtain ⟨hold, hop⟩ := List.append_inj' hsplit rfl
        cases hop
        rw [hkeep (hlater op (by simp))]
        exact ih.mpr ⟨before, key, later, hold, hkey, fun op' hmem =>
          hlater op' (List.mem_append_left _ hmem)⟩

/-! ## The sections -/

section Sections
omit [DecidableEq Tid]

theorem findEntryFor_cons (e : K × V) (data : List (K × V)) (key : K) :
    findEntryFor (e :: data) key = if e.1 == key then 0 else findEntryFor data key + 1 := by
  rw [findEntryFor, List.findIdx_cons, cond_eq_ite]
  rfl

theorem valueFor_eq (data : List (K × V)) (key : K) (default : V) :
    valueFor data key default = (lookup key data).getD default := by
  induction data with
  | nil => rfl
  | cons e data ih =>
    by_cases he : (e.1 == key) = true
    · simp [valueFor, findEntryFor_cons, lookup, he]
    · simpa [valueFor, findEntryFor_cons, lookup, he] using ih

theorem addOrUpdateMapping_eq (data : List (K × V)) (key : K) (value : V) :
    addOrUpdateMapping data key value = put key value data := by
  induction data with
  | nil => rfl
  | cons e data ih =>
    by_cases he : (e.1 == key) = true
    · simp [addOrUpdateMapping, findEntryFor_cons, put, he]
    · rw [put, if_neg he, ← ih]
      by_cases hend : findEntryFor data key = data.length
      · simp [addOrUpdateMapping, findEntryFor_cons, he, hend]
      · simp [addOrUpdateMapping, findEntryFor_cons, he, hend]

theorem removeMapping_eq (data : List (K × V)) (key : K) :
    removeMapping data key = erase key data := by
  induction data with
  | nil => rfl
  | cons e data ih =>
    by_cases he : (e.1 == key) = true
    · simp [removeMapping, findEntryFor_cons, erase, he]
    · rw [erase, if_neg he, ← ih]
      by_cases hend : findEntryFor data key = data.length
      · simp [removeMapping, findEntryFor_cons, he, hend]
      · simp [removeMapping, findEntryFor_cons, he, hend]

theorem UniqueKeys.apply {data : List (K × V)} [EquivBEq K] (h : UniqueKeys data) (op : Op K V) :
    UniqueKeys (op.apply data) := by
  cases op with
  | valueFor key d => exact h
  | addOrUpdateMapping key v =>
    rw [Op.apply, addOrUpdateMapping_eq]
    exact h.put
  | removeMapping key =>
    rw [Op.apply, removeMapping_eq]
    exact h.erase

/-- A section brings in no key but that of its call. -/
theorem mem_apply {data : List (K × V)} {op : Op K V} {e : K × V} (h : e ∈ op.apply data) :
    e.1 = op.key ∨ ∃ e' ∈ data, e'.1 = e.1 := by
  cases op with
  | valueFor key d => exact Or.inr ⟨e, h, rfl⟩
  | addOrUpdateMapping key v =>
    rw [Op.apply, addOrUpdateMapping_eq] at h
    exact mem_put h
  | removeMapping key =>
    rw [Op.apply, removeMapping_eq] at h
    exact Or.inr ⟨e, erase_sublist.subset h, rfl⟩

/-- In its bucket a section does what the finite map does. -/
theorem lookup_apply [EquivBEq K] {data : List (K × V)} (h : UniqueKeys data) (op : Op K V)
    (m : K → Option V) {k : K} (hk : lookup k data = m k) :
    lookup k (op.apply data) = op.update m k := by
  cases op with
  | valueFor key d => exact hk
  | addOrUpdateMapping key v =>
    rw [Op.apply, addOrUpdateMapping_eq, lookup_put, hk]
    rfl
  | removeMapping key =>
    rw [Op.apply, removeMapping_eq, lookup_erase h, hk]
    rfl

/-- A call does not change the value of a key that is not equal to its own. -/
theorem update_of_ne {op : Op K V} {k : K} (m : K → Option V) (h : ¬ (op.key == k)) :
    op.update m k = m k := by
  cases op with
  | valueFor key d => rfl
  | addOrUpdateMapping key v => exact if_neg h
  | removeMapping key => exact if_neg h

end Sections

/-! ## The steps -/

section Steps
variable {setup : Setup K} {s s' : State K V Tid} {t : Tid} {l : Label K V Tid}

omit [BEq K] in
@[simp] theorem goto_data (pc : Pc K V) : (s.goto t pc).data = s.data := rfl

omit [BEq K] in
@[simp] theorem goto_mutex (pc : Pc K V) : (s.goto t pc).mutex = s.mutex := rfl

omit [BEq K] in
@[simp] theorem goto_pc_self (pc : Pc K V) : (s.goto t pc).pc t = pc := Function.update_self ..

omit [BEq K] in
theorem goto_pc_of_ne {u : Tid} (pc : Pc K V) (h : u ≠ t) : (s.goto t pc).pc u = s.pc u :=
  Function.update_of_ne h ..

omit [BEq K] in
@[simp] theorem insertAt_data (i j : Nat) (res : List (K × V)) :
    (s.insertAt setup t i j res).data = s.data := by
  unfold State.insertAt
  split
  · split <;> rfl
  · rfl

/-- Only a section changes the lists, and only that of its own bucket. -/
theorem step_data (h : (machine setup).step s l = some s') :
    (∃ t op, l = .access t ∧ s.pc t = .called op ∧ s.mutex (setup.index op.key) = none ∧
        effect setup s l = [(op, op.reply (s.data (setup.index op.key)))] ∧
        s'.data = Function.update s.data (setup.index op.key)
          (op.apply (s.data (setup.index op.key)))) ∨
      (effect setup s l = [] ∧ s'.data = s.data) := by
  cases l with
  | access t =>
    simp only [machine] at h
    split at h
    · next op hpc =>
      obtain ⟨hmutex, ⟨⟩⟩ := Option.ite_none_right_eq_some.mp h
      exact Or.inl ⟨t, op, rfl, hpc, hmutex, by simp [effect, hpc], rfl⟩
    · cases h
  | call t op | getMap t | insert t =>
    simp only [machine] at h
    split at h
    · cases h
      exact Or.inr ⟨rfl, by simp [State.lockFrom]⟩
    · cases h
  | lock t | release t i =>
    simp only [machine] at h
    split at h
    · obtain ⟨-, ⟨⟩⟩ := Option.ite_none_right_eq_some.mp h
      exact Or.inr ⟨rfl, by simp [State.lockFrom]⟩
    · cases h
  | ret t =>
    simp only [machine] at h
    split at h
    · cases h
      exact Or.inr ⟨rfl, rfl⟩
    · obtain ⟨-, ⟨⟩⟩ := Option.ite_none_left_eq_some.mp h
      exact Or.inr ⟨rfl, rfl⟩
    · cases h

/-- A mutex that a thread holds stays with it while others take steps, and so does its
program point. -/
theorem step_other {l : Label K V Tid} (h : (machine setup).step s l = some s') (ht : t ≠ l.tid) :
    s'.pc t = s.pc t ∧ ∀ i, s.mutex i = some t → s'.mutex i = some t := by
  cases l with
  | call u op | getMap u =>
    simp only [machine] at h
    split at h
    · cases h
      exact ⟨goto_pc_of_ne _ ht, fun _ hi => hi⟩
    · cases h
  | access u =>
    simp only [machine] at h
    split at h
    · obtain ⟨-, ⟨⟩⟩ := Option.ite_none_right_eq_some.mp h
      exact ⟨goto_pc_of_ne _ ht, fun _ hi => hi⟩
    · cases h
  | lock u =>
    simp only [machine] at h
    split at h
    · obtain ⟨hfree, ⟨⟩⟩ := Option.ite_none_right_eq_some.mp h
      refine ⟨goto_pc_of_ne _ ht, fun i hi => ?_⟩
      have hne : i ≠ _ := fun he => by rw [he, hfree] at hi; cases hi
      exact (Function.update_of_ne hne ..).trans hi
    · cases h
  | insert u =>
    simp only [machine] at h
    split at h
    · cases h
      unfold State.insertAt
      split
      · split <;> exact ⟨goto_pc_of_ne _ ht, fun _ hi => hi⟩
      · exact ⟨goto_pc_of_ne _ ht, fun _ hi => hi⟩
    · cases h
  | release u i =>
    simp only [machine] at h
    split at h
    · obtain ⟨hheld, ⟨⟩⟩ := Option.ite_none_right_eq_some.mp h
      refine ⟨rfl, fun j hj => ?_⟩
      have hne : j ≠ i := by
        rintro rfl
        exact ht (Option.some.inj (hj.symm.trans hheld))
      exact (Function.update_of_ne hne ..).trans hj
    · cases h
  | ret u =>
    simp only [machine] at h
    split at h
    · cases h
      exact ⟨goto_pc_of_ne _ ht, fun _ hi => hi⟩
    · obtain ⟨-, ⟨⟩⟩ := Option.ite_none_left_eq_some.mp h
      exact ⟨goto_pc_of_ne _ ht, fun _ hi => hi⟩
    · cases h

/-- A thread comes to the section of a call by calling, and to its end by the section. -/
theorem step_own (h : (machine setup).step s l = some s') :
    (∀ op, s'.pc l.tid = .called op → l = .call l.tid op) ∧
      ∀ r, s'.pc l.tid = .returned r → l = .access l.tid ∧ ∃ op, s.pc l.tid = .called op ∧
        r = op.reply (s.data (setup.index op.key)) := by
  cases l with
  | call t op =>
    simp only [machine] at h
    split at h
    · cases h
      simp [Label.tid]
    · cases h
  | access t =>
    simp only [machine] at h
    split at h
    · next op hpc =>
      obtain ⟨-, ⟨⟩⟩ := Option.ite_none_right_eq_some.mp h
      simp [Label.tid, hpc]
    · cases h
  | getMap t =>
    simp only [machine] at h
    split at h
    · cases h
      simp only [Label.tid, State.lockFrom, goto_pc_self]
      split <;> simp
    · cases h
  | lock t =>
    simp only [machine] at h
    split at h
    · obtain ⟨-, ⟨⟩⟩ := Option.ite_none_right_eq_some.mp h
      simp only [Label.tid, State.lockFrom, goto_pc_self]
      split <;> simp
    · cases h
  | insert t =>
    simp only [machine] at h
    split at h
    · cases h
      simp only [Label.tid, State.insertAt]
      split
      · split <;> simp
      · simp
    · cases h
  | release t i =>
    simp only [machine] at h
    split at h
    · next hpc =>
      obtain ⟨-, ⟨⟩⟩ := Option.ite_none_right_eq_some.mp h
      simp [Label.tid, hpc]
    · cases h
  | ret t =>
    simp only [machine] at h
    split at h
    · cases h
      simp [Label.tid]
    · obtain ⟨-, ⟨⟩⟩ := Option.ite_none_left_eq_some.mp h
      simp [Label.tid]
    · cases h

end Steps

/-! ## The table is a finite map -/

/-- Every pair is in the bucket of its key, and no bucket has two equal keys. -/
structure Placed (setup : Setup K) (s : State K V Tid) : Prop where
  bucket : ∀ i e, e ∈ s.data i → i < setup.numBuckets ∧ setup.index e.1 = i
  unique : ∀ i, UniqueKeys (s.data i)

omit [BEq K] in
theorem index_lt {setup : Setup K} (hn : 0 < setup.numBuckets) (key : K) :
    setup.index key < setup.numBuckets :=
  Nat.mod_lt _ hn

section Placed
variable {setup : Setup K} {s s' : State K V Tid}

omit [BEq K] [DecidableEq Tid] in
theorem mem_table {e : K × V} : e ∈ s.table setup ↔ ∃ i < setup.numBuckets, e ∈ s.data i := by
  simp [State.table]

theorem Placed.step [EquivBEq K] (h : Placed setup s) (hn : 0 < setup.numBuckets)
    {l : Label K V Tid} (hstep : (machine setup).step s l = some s') : Placed setup s' := by
  rcases step_data hstep with ⟨t, op, -, -, -, -, hdata⟩ | ⟨-, hdata⟩
  · refine ⟨fun i e he => ?_, fun i => ?_⟩
    · rw [hdata] at he
      by_cases hi : i = setup.index op.key
      · subst i
        rw [Function.update_self] at he
        rcases mem_apply he with hkey | ⟨e', hold, hkey⟩
        · exact ⟨index_lt hn _, by rw [hkey]⟩
        · rw [← hkey]
          exact h.bucket _ e' hold
      · rw [Function.update_of_ne hi] at he
        exact h.bucket i e he
    · rw [hdata]
      by_cases hi : i = setup.index op.key
      · subst i
        rw [Function.update_self]
        exact UniqueKeys.apply (h.unique _) op
      · rw [Function.update_of_ne hi]
        exact h.unique i
  · exact ⟨fun i e he => h.bucket i e (hdata ▸ he), fun i => by rw [hdata]; exact h.unique i⟩

theorem reachable_placed [EquivBEq K] (hn : 0 < setup.numBuckets)
    (h : (machine setup).Reachable s) : Placed setup s :=
  h.invariant ⟨fun _ _ he => absurd he List.not_mem_nil, fun _ => List.Pairwise.nil⟩
    fun _ _ _ hs hstep => hs.step hn hstep

variable (hash : ∀ a b : K, a == b → setup.hasher a = setup.hasher b)
include hash

omit [DecidableEq Tid] in
/-- Equal keys are in one bucket, so the whole table has each key once. -/
theorem Placed.table_unique (h : Placed setup s) : UniqueKeys (s.table setup) := by
  refine List.pairwise_flatMap.mpr ⟨fun i _ => h.unique i, ?_⟩
  refine List.nodup_range.imp_of_mem fun hi hj hne e he e' he' heq => hne ?_
  rw [← (h.bucket _ e he).2, ← (h.bucket _ e' he').2, Setup.index, Setup.index, hash _ _ heq]

omit [DecidableEq Tid] in
/-- A key is looked up in the table by looking it up in its bucket. -/
theorem Placed.lookup_table [EquivBEq K] (h : Placed setup s) (hn : 0 < setup.numBuckets) (k : K) :
    lookup k (s.table setup) = lookup k (s.data (setup.index k)) := by
  refine Option.ext fun v => ?_
  rw [lookup_eq_some_iff (h.table_unique hash), lookup_eq_some_iff (h.unique _)]
  constructor
  · rintro ⟨e, he, hk, hv⟩
    obtain ⟨i, -, he⟩ := mem_table.mp he
    refine ⟨e, ?_, hk, hv⟩
    have hi : setup.index k = i := by
      rw [← (h.bucket i e he).2, Setup.index, Setup.index, hash _ _ hk]
    rwa [hi]
  · rintro ⟨e, he, hk, hv⟩
    exact ⟨e, mem_table.mpr ⟨_, index_lt hn k, he⟩, hk, hv⟩

/-- **Refinement.**  After a run each bucket maps its keys as the calls of the run describe. -/
theorem run_mapped [EquivBEq K] (hn : 0 < setup.numBuckets) {ls : List (Label K V Tid)}
    (h : (machine setup).run (machine setup).init ls = some s) (k : K) :
    lookup k (s.data (setup.index k)) = mapped ((effects setup ls).map Prod.fst) k := by
  refine (machine setup).run_induction_from (P := fun ls s => ∀ k,
    lookup k (s.data (setup.index k)) = mapped ((effects setup ls).map Prod.fst) k)
    (fun _ => rfl) ?_ h k
  intro ls s l s' hrun hmap hstep k
  have heffects : effects setup (ls ++ [l]) = effects setup ls ++ effect setup s l :=
    Machine.trace_concat hrun hstep
  rw [heffects]
  rcases step_data hstep with ⟨t, op, -, -, -, heff, hdata⟩ | ⟨heff, hdata⟩
  · have hplaced := reachable_placed hn (Machine.reachable_of_run ls hrun)
    rw [heff, hdata, List.map_append, List.map_singleton, mapped_concat]
    by_cases hi : setup.index k = setup.index op.key
    · rw [hi, Function.update_self, ← hi]
      exact lookup_apply (hplaced.unique _) op _ (hmap k)
    · -- another bucket, so another key
      have hne : ¬ (op.key == k) := fun heq =>
        hi (by rw [Setup.index, Setup.index, hash _ _ heq])
      rw [Function.update_of_ne hi, update_of_ne _ hne]
      exact hmap k
  · rw [heff, hdata, List.append_nil]
    exact hmap k

/-- The section of a call answers what the calls before it describe. -/
theorem answer_reply [EquivBEq K] (hn : 0 < setup.numBuckets) {ls : List (Label K V Tid)}
    (h : (machine setup).run (machine setup).init ls = some s) (op : Op K V) :
    op.Answer ((effects setup ls).map Prod.fst) (op.reply (s.data (setup.index op.key))) := by
  cases op with
  | valueFor k d =>
    refine ⟨_, rfl, ?_⟩
    rw [valueFor_eq, Op.key, run_mapped hash hn h k]
    cases hk : mapped ((effects setup ls).map Prod.fst) k with
    | some v => exact Or.inl (mapped_eq_some_iff.mp hk)
    | none =>
      refine Or.inr ⟨rfl, fun w hw => ?_⟩
      cases hk.symm.trans (mapped_eq_some_iff.mpr hw)
  | addOrUpdateMapping key v | removeMapping key => rfl

/-- A call that has been entered or has returned was made, and answered, in the run. -/
theorem run_answered [EquivBEq K] (hn : 0 < setup.numBuckets) {ls : List (Label K V Tid)}
    (h : (machine setup).run (machine setup).init ls = some s) (t : Tid) :
    (∀ op, s.pc t = .called op → Called ls t op) ∧
      ∀ r, s.pc t = .returned r → Answered setup ls t r := by
  refine (machine setup).run_induction_from (P := fun ls s =>
    (∀ op, s.pc t = .called op → Called ls t op) ∧
      ∀ r, s.pc t = .returned r → Answered setup ls t r)
    ⟨fun _ h => (by cases h), fun _ h => (by cases h)⟩ ?_ h
  rintro ls s l s' hrun ⟨hcalled, hreturned⟩ hstep
  by_cases ht : t = l.tid
  · subst ht
    obtain ⟨hcall, haccess⟩ := step_own hstep
    refine ⟨fun op hpc => ⟨ls, [], by rw [← hcall op hpc], List.forall_mem_nil _⟩,
      fun r hpc => ?_⟩
    obtain ⟨hl, op, hop, rfl⟩ := haccess r hpc
    exact ⟨op, ls, [], by rw [← hl], hcalled op hop, List.forall_mem_nil _,
      answer_reply hash hn hrun op⟩
  · -- another thread's step
    have hsince : ∀ {since : List (Label K V Tid)}, (∀ x ∈ since, x.tid ≠ t) →
        ∀ x ∈ since ++ [l], x.tid ≠ t := by
      intro since hsince x hx
      rcases List.mem_append.mp hx with hx | hx
      · exact hsince x hx
      · rw [List.mem_singleton.mp hx]
        exact Ne.symm ht
    rw [(step_other hstep ht).1]
    refine ⟨fun op hpc => ?_, fun r hpc => ?_⟩
    · obtain ⟨before, since, rfl, hown⟩ := hcalled op hpc
      exact ⟨before, since ++ [l], by simp, hsince hown⟩
    · obtain ⟨op, before, since, rfl, hop, hown, hanswer⟩ := hreturned r hpc
      exact ⟨op, before, since ++ [l], by simp, hop, hsince hown, hanswer⟩

/-- **The table is a finite map.**  In every run every pair is in the bucket of its key, no
key is stored twice in the whole table, what is stored is the finite map that the calls
describe, and what a thread's call returns is the answer to this call after the calls whose
sections came before its own: `value_for` returns what was written last for its key, or its
default. -/
theorem finite_map [EquivBEq K] (hn : 0 < setup.numBuckets) {ls : List (Label K V Tid)}
    (h : (machine setup).run (machine setup).init ls = some s) :
    (∀ i e, e ∈ s.data i → i < setup.numBuckets ∧ setup.index e.1 = i) ∧
      UniqueKeys (s.table setup) ∧
      (∀ k, lookup k (s.table setup) = mapped ((effects setup ls).map Prod.fst) k) ∧
      ∀ t r, s.pc t = .returned r → Answered setup ls t r := by
  have hplaced := reachable_placed hn (Machine.reachable_of_run ls h)
  refine ⟨hplaced.bucket, hplaced.table_unique hash, fun k => ?_,
    fun t => (run_answered hash hn h t).2⟩
  rw [hplaced.lookup_table hash hn]
  exact run_mapped hash hn h k

end Placed

/-- A table with two buckets whose keys are numbers. -/
def evenOdd : Setup Nat := ⟨2, id, fun a b => decide (a < b)⟩

/-- Two colliding keys are mapped, one of them is removed, and both are looked up. -/
def collision : List (Label Nat Nat Two) :=
  [.call .a (.addOrUpdateMapping 1 10), .call .b (.addOrUpdateMapping 3 30), .access .b, .access .a,
    .ret .a, .ret .b, .call .a (.removeMapping 1), .access .a, .ret .a, .call .a (.valueFor 1 0),
    .call .b (.valueFor 3 0), .access .a, .access .b]

theorem collision_finite_map :
    ∃ s, (machine evenOdd).run (machine evenOdd).init collision = some s ∧
      (∀ k, lookup k (s.table evenOdd) = mapped ((effects evenOdd collision).map Prod.fst) k) ∧
      s.pc .a = .returned (.value 0) ∧ Answered evenOdd collision .a (.value 0) ∧
      s.pc .b = .returned (.value 30) ∧ Answered evenOdd collision .b (.value 30) := by
  have hash : ∀ a b : Nat, a == b → evenOdd.hasher a = evenOdd.hasher b :=
    fun _ _ h => eq_of_beq h
  have hrun : (machine evenOdd).run (machine evenOdd).init collision = some _ := rfl
  obtain ⟨-, -, hmapped, hanswered⟩ := finite_map hash (by decide) hrun
  exact ⟨_, rfl, hmapped, rfl, hanswered .a _ rfl, rfl, hanswered .b _ rfl⟩

end Sundries.ThreadsafeLookupTable
