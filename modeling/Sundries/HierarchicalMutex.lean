import Mathlib.Logic.Function.Basic
import Mathlib.Data.Fintype.EquivFin
import Mathlib.Data.Fintype.Lattice
import Mathlib.Data.List.Basic
import Sundries.Machine

/-!
# `hierarchical_mutex`

A `hierarchical_mutex` wraps a mutex with a constant hierarchy value.  A thread
carries one number, `_this_thread_hierarchy_value`; `lock` and `trylock` refuse
a mutex whose value is not below it, store it in the mutex
(`_previous_hierarchy_value`) and replace it by the mutex's value; `unlock`
restores what the mutex stored.  The class never records which mutexes a thread
holds.

The machine below splits `lock` and `trylock` into their check, the acquisition
of `_mutex` and the update; `unlock` is one step.  `held` is a history variable:
the mutexes a thread has locked and not unlocked, the last one first.
-/
namespace Sundries.HierarchicalMutex

variable {Tid Mid : Type} [DecidableEq Tid] [DecidableEq Mid]

/-- Where a thread is in the member functions. -/
inductive Pc (Mid : Type) where
  /-- Outside the class. -/
  | idle
  /-- `lock` has passed its check and is in `_mutex.lock()`. -/
  | locking (m : Mid)
  /-- `trylock` has passed its check and is about to call `_mutex.try_lock()`. -/
  | tryLocking (m : Mid)
  /-- `_mutex` is acquired, `update_hierarchy_value` comes next. -/
  | updating (m : Mid)
  deriving DecidableEq

/-- The mutexes' fields, the threads' static members and program points. -/
structure State (Tid Mid : Type) where
  /-- Who owns `_mutex`. -/
  owner : Mid → Option Tid
  /-- `_previous_hierarchy_value`. -/
  previous : Mid → Nat
  /-- `_this_thread_hierarchy_value`. -/
  thisThread : Tid → Nat
  pc : Tid → Pc Mid
  /-- The mutexes locked and not yet unlocked, the last one first. -/
  held : Tid → List Mid

/-- The calls a thread makes and the steps inside them. -/
inductive Label (Tid Mid : Type) where
  | lock (t : Tid) (m : Mid)
  | trylock (t : Tid) (m : Mid)
  | acquire (t : Tid)
  | update (t : Tid)
  | unlock (t : Tid) (m : Mid)
  deriving DecidableEq

section Steps
variable (hierarchy : Mid → Nat) (start : Tid → Nat)

/-- `check_for_hierarchy_violation` throws. -/
def violation (s : State Tid Mid) (t : Tid) (m : Mid) : Bool :=
  decide (s.thisThread t ≤ hierarchy m)

/-- The check of `lock` or `trylock`: on a violation the exception leaves the
call, otherwise the thread goes on to `next`. -/
def checkForHierarchyViolation (s : State Tid Mid) (t : Tid) (m : Mid) (next : Pc Mid) :
    State Tid Mid :=
  if violation hierarchy s t m then s else { s with pc := Function.update s.pc t next }

/-- `_mutex` goes to `t`. -/
def grant (s : State Tid Mid) (t : Tid) (m : Mid) : State Tid Mid :=
  { s with
    owner := Function.update s.owner m (some t)
    pc := Function.update s.pc t (.updating m) }

/-- `update_hierarchy_value`, with which the call of `lock` or `trylock` ends. -/
def updateHierarchyValue (s : State Tid Mid) (t : Tid) (m : Mid) : State Tid Mid :=
  { s with
    previous := Function.update s.previous m (s.thisThread t)
    thisThread := Function.update s.thisThread t (hierarchy m)
    pc := Function.update s.pc t .idle
    held := Function.update s.held t (m :: s.held t) }

/-- `unlock`. -/
def unlock (s : State Tid Mid) (t : Tid) (m : Mid) : State Tid Mid :=
  { s with
    thisThread := Function.update s.thisThread t (s.previous m)
    owner := Function.update s.owner m none
    held := Function.update s.held t ((s.held t).erase m) }

/-- The machine: threads call only when outside the class, unlock only what they
hold, and `_mutex.lock()` has no step while the mutex is owned. -/
def machine : Machine (State Tid Mid) (Label Tid Mid) where
  init := ⟨fun _ => none, fun _ => 0, start, fun _ => .idle, fun _ => []⟩
  step s
    | .lock t m =>
      if s.pc t = .idle then some (checkForHierarchyViolation hierarchy s t m (.locking m))
      else none
    | .trylock t m =>
      if s.pc t = .idle then some (checkForHierarchyViolation hierarchy s t m (.tryLocking m))
      else none
    | .acquire t =>
      match s.pc t with
      | .locking m => if s.owner m = none then some (grant s t m) else none
      | .tryLocking m =>
        if s.owner m = none then some (grant s t m)
        else some { s with pc := Function.update s.pc t .idle }
      | _ => none
    | .update t =>
      match s.pc t with
      | .updating m => some (updateHierarchyValue hierarchy s t m)
      | _ => none
    | .unlock t m =>
      if s.pc t = .idle ∧ m ∈ s.held t then some (unlock s t m) else none

end Steps

/-! ## Grants, waiting and nesting -/

/-- The next step of `t` takes `_mutex` of `m`: a `lock` or `trylock` is granted. -/
def Granted (s : State Tid Mid) (t : Tid) (m : Mid) : Prop :=
  (s.pc t = .locking m ∨ s.pc t = .tryLocking m) ∧ s.owner m = none

/-- `m` is strictly below every mutex `t` holds. -/
def BelowHeld (hierarchy : Mid → Nat) (s : State Tid Mid) (t : Tid) (m : Mid) : Prop :=
  ∀ m', s.owner m' = some t → hierarchy m < hierarchy m'

/-- A step unlocks, if anything, the mutex its thread locked last among those it
still holds. -/
def NestedUnlock (s : State Tid Mid) : Label Tid Mid → Prop
  | .unlock t m => (s.held t).head? = some m
  | _ => True

instance (s : State Tid Mid) : DecidablePred (NestedUnlock s)
  | .unlock t m => inferInstanceAs (Decidable ((s.held t).head? = some m))
  | .lock _ _ | .trylock _ _ | .acquire _ | .update _ => .isTrue trivial

/-- `t` is blocked in `_mutex.lock()` on a mutex `u` owns. -/
def WaitsFor (s : State Tid Mid) (t u : Tid) : Prop :=
  ∃ m, s.pc t = .locking m ∧ s.owner m = some u

/-! ## The invariant of nested locking

Under nested locking the values saved in the held mutexes form a stack: the
thread's number belongs to the mutex it locked last, what that mutex saved
belongs to the one before, and below the first one lies the start value. -/

section Invariant
variable {hierarchy : Mid → Nat} {start : Tid → Nat}

/-- The number `v` stands on top of the mutexes `ms`, and each of them saved the
number that stood there when it was locked. -/
def Saved (hierarchy previous : Mid → Nat) (bottom : Nat) : List Mid → Nat → Prop
  | [], v => v = bottom
  | m :: ms, v =>
    v = hierarchy m ∧ hierarchy m < previous m ∧ Saved hierarchy previous bottom ms (previous m)

omit [DecidableEq Mid] in
theorem Saved.le {previous : Mid → Nat} {bottom v : Nat} {ms : List Mid}
    (h : Saved hierarchy previous bottom ms v) : ∀ m ∈ ms, v ≤ hierarchy m := by
  induction ms generalizing v with
  | nil => simp
  | cons a ms ih =>
    obtain ⟨hv, hlt, hrest⟩ := h
    intro m hm
    rcases List.mem_cons.mp hm with rfl | hm
    · exact Nat.le_of_eq hv
    · have := ih hrest m hm
      omega

omit [DecidableEq Mid] in
theorem Saved.congr {previous previous' : Mid → Nat} {bottom v : Nat} {ms : List Mid}
    (hag : ∀ m ∈ ms, previous' m = previous m) (h : Saved hierarchy previous bottom ms v) :
    Saved hierarchy previous' bottom ms v := by
  induction ms generalizing v with
  | nil => exact h
  | cons a ms ih =>
    obtain ⟨hv, hlt, hrest⟩ := h
    have ha : previous' a = previous a := hag a List.mem_cons_self
    refine ⟨hv, ha ▸ hlt, ?_⟩
    rw [ha]
    exact ih (fun m hm => hag m (List.mem_cons_of_mem _ hm)) hrest

/-- What nested locking maintains. -/
structure Nested (hierarchy : Mid → Nat) (start : Tid → Nat) (s : State Tid Mid) : Prop where
  saved : ∀ t, Saved hierarchy s.previous (start t) (s.held t) (s.thisThread t)
  owned : ∀ m t, s.owner m = some t ↔ m ∈ s.held t ∨ s.pc t = .updating m
  checked : ∀ t m, s.pc t = .locking m ∨ s.pc t = .tryLocking m ∨ s.pc t = .updating m →
    hierarchy m < s.thisThread t

theorem nested_init : Nested hierarchy start (machine hierarchy start).init where
  saved _ := rfl
  owned := by simp [machine]
  checked := by simp [machine]

variable {s : State Tid Mid} {t : Tid} {m : Mid}

omit [DecidableEq Mid] in
/-- A call that throws changes nothing; one that passes its check knows that the
mutex is below the thread's number. -/
theorem nested_check (hs : Nested hierarchy start s) (hidle : s.pc t = .idle) {next : Pc Mid}
    (hnext : next = .locking m ∨ next = .tryLocking m) :
    Nested hierarchy start (checkForHierarchyViolation hierarchy s t m next) := by
  unfold checkForHierarchyViolation
  split
  · exact hs
  · rename_i hpass
    have hlt : hierarchy m < s.thisThread t := by simpa [violation] using hpass
    refine ⟨hs.saved, ?_, ?_⟩
    · intro m' t'
      rw [hs.owned]
      by_cases ht : t' = t
      · subst t'
        rcases hnext with rfl | rfl <;> simp [hidle]
      · simp [ht]
    · intro t' m' h
      by_cases ht : t' = t
      · subst t'
        rcases hnext with rfl | rfl <;> simp at h <;> exact h ▸ hlt
      · exact hs.checked t' m' (by simpa [ht] using h)

theorem nested_grant (hs : Nested hierarchy start s)
    (hpc : s.pc t = .locking m ∨ s.pc t = .tryLocking m) (hfree : s.owner m = none) :
    Nested hierarchy start (grant s t m) := by
  have hunheld : ∀ t', ¬ (m ∈ s.held t' ∨ s.pc t' = .updating m) := by
    intro t' h
    rw [(hs.owned m t').mpr h] at hfree
    cases hfree
  refine ⟨hs.saved, ?_, ?_⟩
  · intro m' t'
    by_cases hm : m' = m
    · subst m'
      by_cases ht : t' = t
      · subst t'
        simp [grant]
      · have := hunheld t'
        simp only [not_or] at this
        simp [grant, ht, Ne.symm ht, this]
    · have := hs.owned m' t'
      by_cases ht : t' = t
      · subst t'
        rcases hpc with h | h <;> simpa [grant, hm, h, Ne.symm hm] using this
      · simpa [grant, hm, ht] using this
  · intro t' m' h
    by_cases ht : t' = t
    · subst t'
      simp [grant] at h
      subst h
      exact hs.checked t m (hpc.elim Or.inl (fun h => Or.inr (Or.inl h)))
    · exact hs.checked t' m' (by simpa [grant, ht] using h)

/-- The acquired mutex goes on top of the thread's stack.  No other stack
contains it, so overwriting what it saved disturbs none of them. -/
theorem nested_update (hs : Nested hierarchy start s) (hpc : s.pc t = .updating m) :
    Nested hierarchy start (updateHierarchyValue hierarchy s t m) := by
  have hown : s.owner m = some t := (hs.owned m t).mpr (Or.inr hpc)
  have hlt : hierarchy m < s.thisThread t := hs.checked t m (Or.inr (Or.inr hpc))
  have hfresh : ∀ t', m ∉ s.held t' := by
    intro t' hmem
    have ht : t' = t := by simpa [hown, eq_comm] using (hs.owned m t').mpr (Or.inl hmem)
    subst t'
    exact absurd ((hs.saved t).le m hmem) (by omega)
  refine ⟨?_, ?_, ?_⟩
  · intro t'
    have hag : ∀ m' ∈ s.held t', Function.update s.previous m (s.thisThread t) m' =
        s.previous m' := by
      intro m' hm'
      rw [Function.update_of_ne]
      rintro rfl
      exact hfresh t' hm'
    have hold := (hs.saved t').congr hag
    by_cases ht : t' = t
    · subst t'
      simpa [updateHierarchyValue, Saved] using ⟨hlt, hold⟩
    · simpa [updateHierarchyValue, ht] using hold
  · intro m' t'
    have := hs.owned m' t'
    by_cases ht : t' = t
    · subst t'
      simpa [updateHierarchyValue, hpc, eq_comm, or_comm] using this
    · simpa [updateHierarchyValue, ht] using this
  · intro t' m' h
    by_cases ht : t' = t
    · subst t'
      simp [updateHierarchyValue] at h
    · simpa [updateHierarchyValue, ht] using
        hs.checked t' m' (by simpa [updateHierarchyValue, ht] using h)

/-- Unlocking the top of the stack uncovers the number saved in it. -/
theorem nested_unlock (hs : Nested hierarchy start s) (hidle : s.pc t = .idle)
    {ms : List Mid} (hheld : s.held t = m :: ms) :
    Nested hierarchy start (unlock s t m) := by
  have hown : s.owner m = some t := (hs.owned m t).mpr (Or.inl (by simp [hheld]))
  have hrest : (s.held t).erase m = ms := by simp [hheld]
  obtain ⟨hv, hlt, hsaved⟩ : Saved hierarchy s.previous (start t) (m :: ms) (s.thisThread t) :=
    hheld ▸ hs.saved t
  have hfresh : m ∉ ms := fun hmem => absurd (hsaved.le m hmem) (by omega)
  refine ⟨?_, ?_, ?_⟩
  · intro t'
    by_cases ht : t' = t
    · subst t'
      simpa [unlock, hrest] using hsaved
    · simpa [unlock, ht] using hs.saved t'
  · intro m' t'
    by_cases hm : m' = m
    · subst m'
      by_cases ht : t' = t
      · subst t'
        simp [unlock, hrest, hfresh, hidle]
      · have hne : s.owner m ≠ some t' := by simp [hown, Ne.symm ht]
        have := (not_congr (hs.owned m t')).mp hne
        simpa [unlock, ht] using this
    · by_cases ht : t' = t
      · subst t'
        simpa [unlock, hrest, hm, hheld] using hs.owned m' t
      · simpa [unlock, hm, ht] using hs.owned m' t'
  · intro t' m' h
    by_cases ht : t' = t
    · subst t'
      simp [unlock, hidle] at h
    · simpa [unlock, ht] using hs.checked t' m' h

omit [DecidableEq Mid] in
/-- `_mutex.try_lock()` fails. -/
theorem nested_tryFail (hs : Nested hierarchy start s) (hpc : s.pc t = .tryLocking m) :
    Nested hierarchy start { s with pc := Function.update s.pc t .idle } := by
  refine ⟨hs.saved, ?_, ?_⟩
  · intro m' t'
    rw [hs.owned]
    by_cases ht : t' = t
    · subst t'
      simp [hpc]
    · simp [ht]
  · intro t' m' h
    by_cases ht : t' = t
    · subst t'
      simp at h
    · exact hs.checked t' m' (by simpa [ht] using h)

theorem nested_step {s s' : State Tid Mid} {l : Label Tid Mid} (hs : Nested hierarchy start s)
    (hl : NestedUnlock s l) (h : (machine hierarchy start).step s l = some s') :
    Nested hierarchy start s' := by
  cases l with
  | lock t m =>
    obtain ⟨hidle, ⟨⟩⟩ := Option.ite_none_right_eq_some.mp h
    exact nested_check hs hidle (Or.inl rfl)
  | trylock t m =>
    obtain ⟨hidle, ⟨⟩⟩ := Option.ite_none_right_eq_some.mp h
    exact nested_check hs hidle (Or.inr rfl)
  | acquire t =>
    cases hpc : s.pc t with
    | idle => simp [machine, hpc] at h
    | updating m => simp [machine, hpc] at h
    | locking m =>
      simp only [machine, hpc] at h
      obtain ⟨hfree, ⟨⟩⟩ := Option.ite_none_right_eq_some.mp h
      exact nested_grant hs (Or.inl hpc) hfree
    | tryLocking m =>
      simp only [machine, hpc] at h
      split at h
      · cases h
        exact nested_grant hs (Or.inr hpc) ‹_›
      · cases h
        exact nested_tryFail hs hpc
  | update t =>
    cases hpc : s.pc t with
    | updating m =>
      simp only [machine, hpc] at h
      cases h
      exact nested_update hs hpc
    | _ => simp [machine, hpc] at h
  | unlock t m =>
    obtain ⟨⟨hidle, -⟩, ⟨⟩⟩ := Option.ite_none_right_eq_some.mp h
    obtain ⟨ms, hms⟩ : ∃ ms, s.held t = m :: ms := List.head?_eq_some_iff.mp hl
    exact nested_unlock hs hidle hms

/-- Nested locking keeps the stacks of saved numbers in every state it reaches. -/
theorem nested_of_reachableBy {s : State Tid Mid}
    (h : (machine hierarchy start).ReachableBy NestedUnlock s) : Nested hierarchy start s :=
  h.invariant nested_init fun _ _ _ => nested_step

/-! ## Locks are granted downwards -/

omit [DecidableEq Tid] [DecidableEq Mid] in
/-- While the stacks are in order, a thread that has passed its check is below
everything it holds. -/
theorem Nested.granted_belowHeld (hs : Nested hierarchy start s) (hg : Granted s t m) :
    BelowHeld hierarchy s t m := by
  intro m' hown
  have hlt := hs.checked t m (hg.1.elim Or.inl (fun h => Or.inr (Or.inl h)))
  have hmem : m' ∈ s.held t := by
    rcases (hs.owned m' t).mp hown with h | h
    · exact h
    · rcases hg.1 with h' | h' <;> simp [h'] at h
  have := (hs.saved t).le m' hmem
  omega

omit [DecidableEq Tid] [DecidableEq Mid] in
/-- A held mutex other than the last one locked saved a number above its own
value, and the last one lies below it. -/
theorem Nested.head_lt (hs : Nested hierarchy start s) {top : Mid} {ms : List Mid}
    (hheld : s.held t = top :: ms) (hm : m ∈ ms) :
    hierarchy top < hierarchy m ∧ hierarchy m < s.previous m := by
  have hsaved : Saved hierarchy s.previous (start t) (top :: ms) (s.thisThread t) :=
    hheld ▸ hs.saved t
  obtain ⟨-, hlt, hrest⟩ := hsaved
  refine ⟨Nat.lt_of_lt_of_le hlt (hrest.le m hm), ?_⟩
  clear hlt hheld
  induction ms generalizing top with
  | nil => cases hm
  | cons a ms ih =>
    obtain ⟨-, hlt, hrest⟩ := hrest
    rcases List.mem_cons.mp hm with rfl | hm
    · exact hlt
    · exact ih hm hrest

/-- An unlock out of order lifts the thread's number above a mutex it still
holds: the mutex just unlocked can be locked again at once, above that one. -/
theorem Nested.relock_not_belowHeld (hs : Nested hierarchy start s) (hidle : s.pc t = .idle)
    (hmem : m ∈ s.held t) (hlast : (s.held t).head? ≠ some m) :
    ∃ s', (machine hierarchy start).run s [.unlock t m, .lock t m] = some s' ∧
      Granted s' t m ∧ ¬ BelowHeld hierarchy s' t m := by
  obtain ⟨top, ms, hheld⟩ : ∃ top ms, s.held t = top :: ms :=
    List.exists_cons_of_ne_nil (List.ne_nil_of_mem hmem)
  have hne : top ≠ m := by simpa [hheld] using hlast
  have hms : m ∈ ms := by simpa [hheld, hne.symm] using hmem
  obtain ⟨htop, hsave⟩ := hs.head_lt hheld hms
  have hown : s.owner top = some t := (hs.owned top t).mpr (Or.inl (by simp [hheld]))
  have hpass : violation hierarchy (unlock s t m) t m = false := by
    simpa [violation, unlock] using hsave
  refine ⟨_, by simp [Machine.run, machine, hidle, hmem, checkForHierarchyViolation, hpass,
    show (unlock s t m).pc = s.pc from rfl]; rfl, ?_, ?_⟩
  · simp [Granted, unlock]
  · intro hbelow
    have := hbelow top (by simpa [unlock, hne] using hown)
    omega

/-- **Nested unlocking is what keeps the order.**  In a run in which every
unlock releases the mutex its thread locked last among those it still holds,
every lock and every successful trylock is granted below all mutexes the thread
holds.  And it is the weakest such rule: after such a run, the first unlock out
of order lets the same thread lock the mutex it has just released although it
holds a lower one. -/
theorem granted_belowHeld_of_nestedUnlock (hierarchy : Mid → Nat) (start : Tid → Nat)
    (s : State Tid Mid) (h : (machine hierarchy start).ReachableBy NestedUnlock s) :
    (∀ t m, Granted s t m → BelowHeld hierarchy s t m) ∧
      ∀ t m, s.pc t = .idle → m ∈ s.held t → (s.held t).head? ≠ some m →
        ∃ s', (machine hierarchy start).run s [.unlock t m, .lock t m] = some s' ∧
          Granted s' t m ∧ ¬ BelowHeld hierarchy s' t m :=
  have hs := nested_of_reachableBy h
  ⟨fun _ _ => hs.granted_belowHeld, fun _ _ => hs.relock_not_belowHeld⟩

end Invariant

/-! A thread and two mutexes of hierarchy 100 and 50. -/

/-- Hierarchy 100 for mutex 0 and 50 for mutex 1. -/
def highLow (m : Fin 2) : Nat := if m = 0 then 100 else 50

/-- Mutex 0 is unlocked before mutex 1, and locked again. -/
def outOfOrder : List (Label (Fin 1) (Fin 2)) :=
  [.lock 0 0, .acquire 0, .update 0, .lock 0 1, .acquire 0, .update 0, .unlock 0 0, .lock 0 0]

/-- Without nesting the order breaks: mutex 0 is granted above the held mutex 1. -/
theorem outOfOrder_granted_aboveHeld :
    ¬ ∀ (hierarchy : Fin 2 → Nat) (start : Fin 1 → Nat), (∀ t m, hierarchy m < start t) →
      ∀ s, (machine hierarchy start).Reachable s →
        ∀ t m, Granted s t m → BelowHeld hierarchy s t m := by
  intro h
  have hbelow := h highLow (fun _ => 1000) (by decide) _
    (Machine.reachable_of_run outOfOrder rfl) 0 0 ⟨Or.inl rfl, rfl⟩
  exact absurd (hbelow 1 rfl) (by decide)

/-- Both mutexes locked, the second unlocked, and locked again. -/
def inOrder : List (Label (Fin 1) (Fin 2)) :=
  [.lock 0 0, .acquire 0, .update 0, .lock 0 1, .acquire 0, .update 0, .unlock 0 1, .lock 0 1]

/-- The relock of a run in order is granted, below the held mutex 0. -/
theorem inOrder_granted_belowHeld :
    ∃ s, (machine highLow fun _ => 1000).run (machine highLow fun _ => 1000).init inOrder =
        some s ∧ Granted s 0 1 ∧ BelowHeld highLow s 0 1 :=
  ⟨_, rfl, ⟨Or.inl rfl, rfl⟩, (granted_belowHeld_of_nestedUnlock highLow (fun _ => 1000) _
    (Machine.reachableBy_of_run inOrder (by decide) rfl)).1 0 1 ⟨Or.inl rfl, rfl⟩⟩

/-! ## No circular waits -/

/-- A relation along which a number strictly decreases has no cycle. -/
theorem not_cycle_of_decreasing {T : Type} {r : T → T → Prop} {f : T → Nat}
    (hdec : ∀ a b, r a b → f b < f a) (k : Nat) (c : Fin (k + 1) → T) :
    ¬ ∀ i, r (c i) (c (i + 1)) := by
  intro hcycle
  obtain ⟨i, hmin⟩ := Finite.exists_min (fun i => f (c i))
  exact absurd (hdec _ _ (hcycle i)) (Nat.not_lt.mpr (hmin (i + 1)))

section Deadlock
variable {hierarchy : Mid → Nat} {start : Tid → Nat}

/-- The number of a thread: the value of the mutex it locked last, or its start
value. -/
def topValue (hierarchy : Mid → Nat) (bottom : Nat) : List Mid → Nat
  | [] => bottom
  | m :: _ => hierarchy m

omit [DecidableEq Tid] [DecidableEq Mid] in
/-- A thread waits only for a thread with a smaller number, provided that one is
blocked too and so is not between its acquisition and its update. -/
theorem Nested.waitsFor_decreasing {s : State Tid Mid} (hs : Nested hierarchy start s)
    {t u : Tid} {m' : Mid} (hwait : WaitsFor s t u) (hu : s.pc u = .locking m') :
    s.thisThread u < s.thisThread t := by
  obtain ⟨m, hpc, hown⟩ := hwait
  have hmem : m ∈ s.held u := by
    rcases (hs.owned m u).mp hown with h | h
    · exact h
    · rw [hu] at h
      cases h
  exact Nat.lt_of_le_of_lt ((hs.saved u).le m hmem) (hs.checked t m (Or.inl hpc))

/-- **Nested locking excludes circular waits.**  (a) A thread's number is always
the hierarchy value of the mutex it locked last among those it holds, or its
start value; the mutexes a thread owns are the ones it has locked, and the one
of a `lock` or `trylock` that is between its acquisition and its update, which
is not in force yet.  (b) No threads, one or more, wait for each other in a
circle. -/
theorem nestedUnlock_no_circular_wait (hierarchy : Mid → Nat) (start : Tid → Nat)
    (s : State Tid Mid) (h : (machine hierarchy start).ReachableBy NestedUnlock s) :
    (∀ t, s.thisThread t = topValue hierarchy (start t) (s.held t)) ∧
      (∀ m t, s.owner m = some t ↔ m ∈ s.held t ∨ s.pc t = .updating m) ∧
      ∀ (k : Nat) (c : Fin (k + 1) → Tid), ¬ ∀ i, WaitsFor s (c i) (c (i + 1)) := by
  have hs := nested_of_reachableBy h
  refine ⟨?_, hs.owned, ?_⟩
  · intro t
    have hsaved := hs.saved t
    cases hheld : s.held t with
    | nil =>
      rw [hheld] at hsaved
      exact hsaved
    | cons m ms =>
      rw [hheld] at hsaved
      exact hsaved.1
  · intro k c hcycle
    refine not_cycle_of_decreasing (r := fun t u => WaitsFor s t u ∧ ∃ m, s.pc u = .locking m)
      (f := s.thisThread) ?_ k c ?_
    · rintro t u ⟨hwait, m, hu⟩
      exact hs.waitsFor_decreasing hwait hu
    · intro i
      obtain ⟨m, hpc, -⟩ := hcycle (i + 1)
      exact ⟨hcycle i, m, hpc⟩

/-- Thread 0 holds mutex 0 and thread 1 is blocked on it. -/
def oneBlocked : List (Label (Fin 2) (Fin 2)) :=
  [.lock 0 0, .acquire 0, .update 0, .lock 1 0]

theorem oneBlocked_no_circular_wait :
    ∃ s, (machine highLow fun _ => 1000).run (machine highLow fun _ => 1000).init oneBlocked =
        some s ∧ WaitsFor s 1 0 ∧ s.thisThread 0 = topValue highLow 1000 [0] ∧
        ∀ (k : Nat) (c : Fin (k + 1) → Fin 2), ¬ ∀ i, WaitsFor s (c i) (c (i + 1)) :=
  have h := nestedUnlock_no_circular_wait highLow (fun _ => 1000) _
    (Machine.reachableBy_of_run oneBlocked (by decide) rfl)
  ⟨_, rfl, ⟨0, rfl, rfl⟩, h.1 0, h.2.2⟩

end Deadlock

end Sundries.HierarchicalMutex
