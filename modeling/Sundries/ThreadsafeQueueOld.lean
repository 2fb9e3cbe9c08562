import Sundries.Machine
import Sundries.Tally

/-!
# Waiting consumers of `threadsafe_queue_old`

The queue with one lock keeps its elements in a `std::queue`.  `push` enqueues and notifies
under `_mutex`, and `_cond` releases that same mutex when a consumer whose check found the
queue empty falls asleep.  So each of these is one step here: a push with its notification, a
`try_pop`, and a check of `wait_and_pop`, after which the consumer has an element or sleeps.
A notified consumer checks again, and others may have come first.

The two overloads of `try_pop`, and those of `wait_and_pop`, take the same steps.
-/
namespace Sundries.ThreadsafeQueueOld

/-- Where a thread is in the member functions; the calls begin before they have the lock. -/
inductive Pc (α : Type) where
  | idle
  | push (v : α)
  | tryPop
  /-- In `wait_and_pop`, before its first check. -/
  | waitAndPop
  /-- Asleep on `_cond`, not notified. -/
  | asleep
  /-- Woken by a notification, before its next check. -/
  | notified

/-- The elements of `_data` and the threads' program points. -/
structure State (Tid α : Type) where
  data : List α
  pc : Tid → Pc α

/-- The steps; a push is labelled with the thread that its notification wakes, if any. -/
inductive Label (Tid α : Type) where
  | call (t : Tid) (c : Pc α)
  | push (t : Tid) (woken : Option Tid)
  | tryPop (t : Tid)
  | check (t : Tid)

variable {Tid α : Type}

/-- The program points at which a call begins. -/
def Pc.isCall : Pc α → Bool
  | .push _ | .tryPop | .waitAndPop => true
  | _ => false

def Pc.isAsleep : Pc α → Bool
  | .asleep => true
  | _ => false

/-- Notified, and not yet looking at the queue again. -/
def Pc.isNotified : Pc α → Bool
  | .notified => true
  | _ => false

/-- Inside a call of `wait_and_pop`. -/
def Pc.isWaiting : Pc α → Bool
  | .waitAndPop | .asleep | .notified => true
  | _ => false

/-- About to check whether the queue is empty. -/
def Pc.checks : Pc α → Bool
  | .waitAndPop | .notified => true
  | _ => false

namespace State
variable [DecidableEq Tid]

/-- Thread `t` goes to `pc`. -/
def goto (s : State Tid α) (t : Tid) (pc : Pc α) : State Tid α :=
  { s with pc := Function.update s.pc t pc }

/-- The locked step of `push`. -/
def push (s : State Tid α) (t : Tid) (v : α) (woken : Option Tid) : State Tid α :=
  let s := { s with data := s.data ++ [v] }.goto t .idle
  match woken with
  | none => s
  | some u => s.goto u .notified

/-- The locked step of `try_pop`. -/
def tryPop (s : State Tid α) (t : Tid) : State Tid α := { s with data := s.data.tail }.goto t .idle

/-- A check of `wait_and_pop`: the consumer takes the first element, or falls asleep. -/
def check (s : State Tid α) (t : Tid) : State Tid α :=
  match s.data with
  | [] => s.goto t .asleep
  | _ :: data => { s with data := data }.goto t .idle

end State

/-- The notification of a push may wake `woken`: a sleeper, and nobody only if nobody sleeps. -/
def mayWake (s : State Tid α) : Option Tid → Prop
  | some u => (s.pc u).isAsleep = true
  | none => ∀ u, (s.pc u).isAsleep = false

instance [Fintype Tid] (s : State Tid α) (woken : Option Tid) : Decidable (mayWake s woken) := by
  unfold mayWake
  split <;> infer_instance

variable [Fintype Tid] [DecidableEq Tid]

/-- The queue with any number of threads, each of which makes any calls. -/
def machine : Machine (State Tid α) (Label Tid α) where
  init := ⟨[], fun _ => .idle⟩
  step s
    | .call t c =>
      match s.pc t with
      | .idle => if c.isCall then some (s.goto t c) else none
      | _ => none
    | .push t woken =>
      match s.pc t with
      | .push v => if mayWake s woken then some (s.push t v woken) else none
      | _ => none
    | .tryPop t =>
      match s.pc t with
      | .tryPop => some (s.tryPop t)
      | _ => none
    | .check t => if (s.pc t).checks then some (s.check t) else none

/-! ## Every sleeper is covered -/

/-- While a consumer sleeps, there are no more elements than consumers that have been notified
and will look at the queue again. -/
def Covered (s : State Tid α) : Prop :=
  (∃ t, (s.pc t).isAsleep = true) → s.data.length ≤ tally s.pc Pc.isNotified

omit [Fintype Tid] in
/-- Who sleeps after thread `t` has moved to a point where it does not. -/
theorem asleep_of_update {f : Tid → Pc α} {t u : Tid} {pc : Pc α} (hpc : pc.isAsleep = false)
    (hu : (Function.update f t pc u).isAsleep = true) : (f u).isAsleep = true := by
  by_cases heq : u = t
  · subst heq
    rw [Function.update_self, hpc] at hu
    cases hu
  · rwa [Function.update_of_ne heq] at hu

/-- Nothing that counts changes when a thread moves between points that do not count. -/
theorem tally_isNotified_update {f : Tid → Pc α} {t : Tid} {pc : Pc α}
    (ht : (f t).isNotified = false) (hpc : pc.isNotified = false) :
    tally (Function.update f t pc) Pc.isNotified = tally f Pc.isNotified :=
  tally_update_same (by rw [ht, hpc])

theorem Covered.call {s : State Tid α} (h : Covered s) {t : Tid} (ht : s.pc t = .idle) {c : Pc α}
    (hc : c.isCall = true) : Covered (s.goto t c) := by
  have hsleep : c.isAsleep = false := by cases c <;> first | rfl | cases hc
  have hnot : c.isNotified = false := by cases c <;> first | rfl | cases hc
  rintro ⟨u, hu⟩
  show s.data.length ≤ tally (Function.update s.pc t c) Pc.isNotified
  rw [tally_isNotified_update (by rw [ht]; rfl) hnot]
  exact h ⟨u, asleep_of_update hsleep hu⟩

/-- **A push wakes a sleeper for its element**, or there is no sleeper. -/
theorem Covered.push {s : State Tid α} (h : Covered s) {t : Tid} {v : α} (ht : s.pc t = .push v)
    {woken : Option Tid} (hwoken : mayWake s woken) : Covered (s.push t v woken) := by
  have hidle : tally (Function.update s.pc t .idle) Pc.isNotified = tally s.pc Pc.isNotified :=
    tally_isNotified_update (by rw [ht]; rfl) rfl
  cases woken with
  | none =>
    rintro ⟨u, hu⟩
    have hnone := hwoken u
    rw [asleep_of_update (f := s.pc) (t := t) rfl hu] at hnone
    cases hnone
  | some u =>
    intro _
    have hsleep : (s.pc u).isAsleep = true := hwoken
    have hle := h ⟨u, hsleep⟩
    have hne : u ≠ t := by
      rintro rfl
      rw [ht] at hsleep
      cases hsleep
    have hupdate := tally_update (Function.update s.pc t .idle) u .notified Pc.isNotified
    have hwas : (Function.update s.pc t .idle u).isNotified = false := by
      rw [Function.update_of_ne hne]
      cases hpc : s.pc u <;> rw [hpc] at hsleep <;> first | rfl | cases hsleep
    rw [hwas, hidle] at hupdate
    show (s.data ++ [v]).length ≤
      tally (Function.update (Function.update s.pc t .idle) u .notified) Pc.isNotified
    simp only [Pc.isNotified, Bool.toNat_false, Bool.toNat_true] at hupdate
    rw [List.length_append, List.length_singleton]
    omega

theorem Covered.tryPop {s : State Tid α} (h : Covered s) {t : Tid} (ht : s.pc t = .tryPop) :
    Covered (s.tryPop t) := by
  rintro ⟨u, hu⟩
  have hle := h ⟨u, asleep_of_update (f := s.pc) (t := t) rfl hu⟩
  show s.data.tail.length ≤ tally (Function.update s.pc t .idle) Pc.isNotified
  rw [tally_isNotified_update (by rw [ht]; rfl) rfl, List.length_tail]
  omega

/-- **A check takes an element or finds none**: who was notified takes the element that counted
for it; who falls asleep leaves no element behind. -/
theorem Covered.check {s : State Tid α} (h : Covered s) {t : Tid} (_ : (s.pc t).checks = true) :
    Covered (s.check t) := by
  cases hdata : s.data with
  | nil =>
    intro _
    rw [State.check, hdata]
    show s.data.length ≤ _
    rw [hdata]
    exact Nat.zero_le _
  | cons v data =>
    rw [State.check, hdata]
    rintro ⟨u, hu⟩
    have hle := h ⟨u, asleep_of_update (f := s.pc) (t := t) rfl hu⟩
    have hupdate := tally_update s.pc t .idle Pc.isNotified
    have hone : (s.pc t).isNotified.toNat ≤ 1 := Bool.toNat_le _
    have hidle : (Pc.idle : Pc α).isNotified.toNat = 0 := rfl
    show data.length ≤ tally (Function.update s.pc t .idle) Pc.isNotified
    rw [hdata, List.length_cons] at hle
    omega

theorem Covered.step {s s' : State Tid α} {l : Label Tid α} (h : Covered s)
    (hstep : machine.step s l = some s') : Covered s' := by
  cases l with
  | call t c =>
    simp only [machine] at hstep
    split at hstep
    · rename_i ht
      split at hstep
      · rename_i hc
        cases hstep
        exact h.call ht hc
      · cases hstep
    · cases hstep
  | push t woken =>
    simp only [machine] at hstep
    split at hstep
    · rename_i v ht
      split at hstep
      · rename_i hwoken
        cases hstep
        exact h.push ht hwoken
      · cases hstep
    · cases hstep
  | tryPop t =>
    simp only [machine] at hstep
    split at hstep
    · rename_i ht
      cases hstep
      exact h.tryPop ht
    · cases hstep
  | check t =>
    simp only [machine] at hstep
    split at hstep
    · rename_i ht
      cases hstep
      exact h.check ht
    · cases hstep

/-- The queue holds an element, a call of `wait_and_pop` is unfinished, and all such calls sleep
without having been notified. -/
def Stranded (s : State Tid α) : Prop :=
  s.data ≠ [] ∧ (∃ t, (s.pc t).isWaiting = true) ∧
    ∀ t, (s.pc t).isWaiting = true → (s.pc t).isAsleep = true

omit [DecidableEq Tid] in
theorem not_stranded_of_covered {s : State Tid α} (h : Covered s) : ¬ Stranded s := by
  rintro ⟨hne, ⟨t, ht⟩, hall⟩
  have hle := h ⟨t, hall t ht⟩
  have hpos : 0 < s.data.length := List.length_pos_iff.mpr hne
  obtain ⟨u, hu⟩ := exists_of_tally_pos (Nat.lt_of_lt_of_le hpos hle)
  -- a notified consumer is in its call, but not asleep
  cases hpc : s.pc u with
  | notified =>
    have hasleep := hall u (by rw [hpc]; rfl)
    rw [hpc] at hasleep
    cases hasleep
  | idle => rw [hpc] at hu; cases hu
  | push v => rw [hpc] at hu; cases hu
  | tryPop => rw [hpc] at hu; cases hu
  | waitAndPop => rw [hpc] at hu; cases hu
  | asleep => rw [hpc] at hu; cases hu

/-- **No consumer is stranded**: in every reachable state in which a consumer sleeps un-notified
there are no more elements than notified consumers that have not checked again; so it never
happens that the queue is not empty and all unfinished calls of `wait_and_pop` sleep. -/
theorem never_stranded {s : State Tid α} (h : machine.Reachable s) :
    Covered s ∧ ¬ Stranded s := by
  have hcovered : Covered s := by
    refine h.invariant ?_ fun s l s' hs hstep => hs.step hstep
    rintro ⟨t, ht⟩
    cases ht
  exact ⟨hcovered, not_stranded_of_covered hcovered⟩

/-- One thread sleeps, the other pushes and so wakes it. -/
theorem wokenConsumer_not_stranded :
    ∃ s : State Two ℕ, machine.run machine.init [.call .a .waitAndPop, .check .a,
      .call .b (.push 7), .push .b (some .a)] = some s ∧ s.data = [7] ∧ Covered s ∧ ¬ Stranded s :=
  ⟨_, rfl, rfl, never_stranded (Machine.reachable_of_run [.call .a .waitAndPop, .check .a,
    .call .b (.push 7), .push .b (some .a)] rfl)⟩

end Sundries.ThreadsafeQueueOld
