import Sundries.ThreadsafeLookupTable

/-!
# `get_map` is a snapshot

While a `get_map` locks the buckets one after the other, updates go on in those it has
not reached yet.  At the moment it locks the last one it holds every mutex, and until it
starts to release them no section is entered: what it copies is the table of that
moment.  The pairs of the table have different keys, so `std::map::insert` drops none.
-/
namespace Sundries.ThreadsafeLookupTable

open AssocList

variable {K V Tid : Type} [BEq K] [DecidableEq Tid] {setup : Setup K} {s s' : State K V Tid}
  {t : Tid}

/-! ## What `get_map` has copied -/

/-- The pairs in front of the entry `j` of the bucket `i`. -/
def copied (s : State K V Tid) (i j : Nat) : List (K × V) :=
  (List.range i).flatMap s.data ++ (s.data i).take j

omit [BEq K] [DecidableEq Tid] in
theorem copied_zero (s : State K V Tid) (i : Nat) :
    copied s i 0 = (List.range i).flatMap s.data := by
  simp [copied]

omit [BEq K] [DecidableEq Tid] in
theorem copied_next {i j : Nat} {e : K × V} (h : (s.data i)[j]? = some e) :
    copied s i j ++ [e] = copied s i (j + 1) := by
  rw [copied, copied, List.append_assoc, List.take_add_one, h]
  rfl

omit [BEq K] [DecidableEq Tid] in
theorem copied_bucket {i j : Nat} (h : (s.data i)[j]? = none) :
    copied s i j = copied s (i + 1) 0 := by
  have hlen : (s.data i).length ≤ j := List.getElem?_eq_none_iff.mp h
  rw [copied_zero, List.range_succ, List.flatMap_append, copied, List.take_of_length_le hlen]
  simp

/-- Where a call of `get_map` of the thread `t` stands, the tables of the moments since it
began being `tables`: it holds the mutexes of the buckets in front of the one it is about
to lock; or all of them, the present table is one of `tables`, and the entries in front of
it are copied; or it has copied one of `tables`. -/
def Copies (setup : Setup K) (tables : List (K × V) → Prop) (s : State K V Tid) (t : Tid) : Prop :=
  match s.pc t with
  | .locking i => ∀ j < i, s.mutex j = some t
  | .inserting i j res =>
    (∀ k < setup.numBuckets, s.mutex k = some t) ∧ tables (s.table setup) ∧
      i ≤ setup.numBuckets ∧ (i = setup.numBuckets → j = 0) ∧
      res = insertAll setup.less (copied s i j)
  | .releasing res => ∃ l, tables l ∧ res = insertAll setup.less l
  | _ => False

section Copies
variable {tables tables' : List (K × V) → Prop} {l : Label K V Tid}

omit [BEq K] in
/-- `get_map` goes on to the bucket `i`, holding the mutexes of those in front of it. -/
theorem copies_lockFrom {i : Nat} (hheld : ∀ j < i, s.mutex j = some t)
    (hnow : tables (s.table setup)) : Copies setup tables (s.lockFrom setup t i) t := by
  unfold State.lockFrom
  by_cases hi : i < setup.numBuckets
  · rw [if_pos hi, Copies, goto_pc_self]
    exact hheld
  · rw [if_neg hi, Copies, goto_pc_self]
    exact ⟨fun k hk => hheld k (by omega), hnow, Nat.zero_le _, fun _ => rfl, rfl⟩

omit [BEq K] in
/-- `get_map` looks at the entry `j` of the bucket `i`. -/
theorem copies_insertAt {i j : Nat} {res : List (K × V)}
    (hheld : ∀ k < setup.numBuckets, s.mutex k = some t) (hnow : tables (s.table setup))
    (hi : i ≤ setup.numBuckets) (hj : i = setup.numBuckets → j = 0)
    (hres : res = insertAll setup.less (copied s i j)) :
    Copies setup tables (s.insertAt setup t i j res) t := by
  unfold State.insertAt
  by_cases hlt : i < setup.numBuckets
  · rw [if_pos hlt]
    cases he : (s.data i)[j]? with
    | some e =>
      rw [Copies, goto_pc_self]
      refine ⟨hheld, hnow, hi, fun heq => absurd heq (Nat.ne_of_lt hlt), ?_⟩
      rw [hres, ← insertAll_concat, copied_next he]
      rfl
    | none =>
      rw [Copies, goto_pc_self]
      refine ⟨hheld, hnow, hlt, fun _ => rfl, ?_⟩
      rw [hres, copied_bucket he]
      rfl
  · -- all buckets are copied
    have heq : i = setup.numBuckets := by omega
    rw [if_neg hlt, Copies, goto_pc_self]
    refine ⟨s.table setup, hnow, ?_⟩
    rw [hres, hj heq, copied_zero, heq]
    rfl

/-- While a thread holds all mutexes the lists stay as they are. -/
theorem step_data_of_held (hn : 0 < setup.numBuckets)
    (hheld : ∀ k < setup.numBuckets, s.mutex k = some t)
    (hstep : (machine setup).step s l = some s') : s'.data = s.data := by
  rcases step_data hstep with ⟨u, op, -, -, hfree, -⟩ | ⟨-, hdata⟩
  · rw [hheld _ (index_lt hn op.key)] at hfree
    cases hfree
  · exact hdata

theorem Copies.step (h : Copies setup tables s t) (hn : 0 < setup.numBuckets)
    (hstep : (machine setup).step s l = some s') (hret : l ≠ .ret t)
    (hmono : ∀ m, tables m → tables' m) (hnow : tables' (s'.table setup)) :
    Copies setup tables' s' t := by
  unfold Copies at h
  by_cases ht : t = l.tid
  · cases hpc : s.pc t with
    | locking i =>
      simp only [hpc] at h
      cases l with
      | lock u =>
        obtain rfl : t = u := ht
        simp only [machine, hpc] at hstep
        obtain ⟨-, ⟨⟩⟩ := Option.ite_none_right_eq_some.mp hstep
        refine copies_lockFrom (fun j hj => ?_) hnow
        by_cases hji : j = i
        · subst j
          exact Function.update_self ..
        · exact (Function.update_of_ne hji ..).trans (h j (by omega))
      | _ =>
        obtain rfl := ht
        simp [machine, hpc] at hstep
    | inserting i j res =>
      simp only [hpc] at h
      obtain ⟨hheld, htable, hi, hj, hres⟩ := h
      cases l with
      | insert u =>
        obtain rfl : t = u := ht
        simp only [machine, hpc, Option.some.injEq] at hstep
        subst hstep
        refine copies_insertAt hheld ?_ hi hj hres
        rwa [State.table, insertAt_data] at hnow
      | _ =>
        obtain rfl := ht
        simp [machine, hpc] at hstep
    | releasing res =>
      simp only [hpc] at h
      obtain ⟨m, hm, hres⟩ := h
      cases l with
      | release u i =>
        obtain rfl : t = u := ht
        simp only [machine, hpc] at hstep
        obtain ⟨-, ⟨⟩⟩ := Option.ite_none_right_eq_some.mp hstep
        unfold Copies
        simp only [hpc]
        exact ⟨m, hmono m hm, hres⟩
      | ret u =>
        obtain rfl : t = u := ht
        exact absurd rfl hret
      | _ =>
        obtain rfl := ht
        simp [machine, hpc] at hstep
    | idle | called op | returned r => simp [hpc] at h
  · obtain ⟨hpc, hmutex⟩ := step_other hstep ht
    unfold Copies
    rw [hpc]
    cases hp : s.pc t with
    | locking i =>
      simp only [hp] at h
      exact fun j hj => hmutex j (h j hj)
    | inserting i j res =>
      simp only [hp] at h
      obtain ⟨hheld, htable, hi, hj, hres⟩ := h
      -- no other thread writes to a bucket whose mutex is held
      have hdata := step_data_of_held hn hheld hstep
      refine ⟨fun k hk => hmutex k (hheld k hk), hnow, hi, hj, ?_⟩
      rw [hres, copied, copied, hdata]
    | releasing res =>
      simp only [hp] at h
      obtain ⟨m, hm, hres⟩ := h
      exact ⟨m, hmono m hm, hres⟩
    | idle | called op | returned r => simp [hp] at h

end Copies

/-! ## The snapshot -/

/-- `l` is the table of a moment of the run from `s` with the labels `ls`. -/
def TableOf (setup : Setup K) (s : State K V Tid) (ls : List (Label K V Tid))
    (l : List (K × V)) : Prop :=
  ∃ before u, before <+: ls ∧ (machine setup).run s before = some u ∧ u.table setup = l

theorem TableOf.mono {l : Label K V Tid} {ls : List (Label K V Tid)} {m : List (K × V)}
    (h : TableOf setup s ls m) : TableOf setup s (ls ++ [l]) m := by
  obtain ⟨before, u, hpre, hu, hm⟩ := h
  exact ⟨before, u, hpre.trans (List.prefix_append ls [l]), hu, hm⟩

/-- Through a run in which a `get_map` does not return it stands where `Copies` says. -/
theorem copies_run (hn : 0 < setup.numBuckets) {u : State K V Tid}
    (hstart : (machine setup).step s (.getMap t) = some s') (ls : List (Label K V Tid))
    (hrun : (machine setup).run s' ls = some u) (hret : .ret t ∉ ls) :
    Copies setup (TableOf setup s' ls) u t := by
  induction ls using List.reverseRecOn generalizing u with
  | nil =>
    cases hrun
    simp only [machine] at hstart
    split at hstart
    · cases hstart
      exact copies_lockFrom (fun j hj => absurd hj (Nat.not_lt_zero j))
        ⟨[], _, List.prefix_refl _, rfl, rfl⟩
    · cases hstart
  | append_singleton ls l ih =>
    obtain ⟨v, hv, hl⟩ := (machine setup).run_append_eq_some.mp hrun
    have hnot : .ret t ∉ ls := fun hmem => hret (List.mem_append_left _ hmem)
    have hne : l ≠ .ret t := fun he => hret (by simp [he])
    exact (ih hv hnot).step hn (by simpa using hl) hne (fun _ => TableOf.mono)
      ⟨ls ++ [l], u, List.prefix_refl _, hrun, rfl⟩

/-- One bucket is filled before a `get_map`. -/
def fillEven : List (Label Nat Nat Two) :=
  [.call .b (.addOrUpdateMapping 2 20), .access .b, .ret .b]

/-- The other one is filled while the `get_map` holds the first. -/
def copyAndFillOdd : List (Label Nat Nat Two) :=
  [.lock .a, .call .b (.addOrUpdateMapping 1 10), .access .b, .ret .b, .lock .a] ++
    List.replicate 5 (.insert .a)

theorem evenOdd_order : StrictTotalOrder evenOdd.less where
  irrefl a b h := by
    have : a = b := eq_of_beq h
    simp [evenOdd, this]
  trans a b c h h' := by
    simp only [evenOdd, decide_eq_true_eq] at h h' ⊢
    omega
  total a b h h' := by
    simp only [evenOdd, decide_eq_false_iff_not] at h h'
    exact beq_iff_eq.mpr (by omega)

end Sundries.ThreadsafeLookupTable
