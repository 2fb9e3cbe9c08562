import Sundries.ThreadsafeQueueFifo

/-!
# Waiting consumers of `threadsafe_queue`

`push` updates the tail under `_tail_mutex` and notifies without `_head_mutex`,
while `wait_and_pop` reads the tail and falls asleep under `_head_mutex`.  A
whole push fits between the comparison that finds no node and the falling
asleep: its notification wakes nobody, and the consumer sleeps on an element
(`lostWakeup`).

What decides is how many elements the queue holds when a consumer falls asleep.
As long as each of them still has a push that will notify, or a pop that will
look at the queue again, or all sleepers will be notified anyway, nobody is
stranded.
-/
namespace Sundries.ThreadsafeQueue

variable {Tid α : Type}

/-! ## Stranded consumers -/

/-- Inside a call of `wait_and_pop`. -/
def Pc.isWaiting : Pc α → Bool
  | .lockHead c | .evaluate c | .fallAsleep c | .asleep c | .popHead c | .finish c _ _ => c.waits
  | _ => false

/-- Inside a call of `push`. -/
def Pc.isPush : Pc α → Bool
  | .updateTail _ _ | .notify => true
  | _ => false

/-- A push that has updated the tail and not yet notified. -/
def Pc.willNotify : Pc α → Bool
  | .notify => true
  | _ => false

/-- A `wait_and_pop` that will still look for an element, or has found one. -/
def Pc.willCheck : Pc α → Bool
  | .lockHead c | .evaluate c | .popHead c => c.waits
  | _ => false

/-- All started pushes are finished, there is an element, and some call of
`wait_and_pop` is unfinished, but every such call sleeps without having been
notified. -/
def Stranded (s : State Tid α) : Prop :=
  (∀ t, (s.pc t).isPush = false) ∧ s.head ≠ s.tail ∧ (∃ t, (s.pc t).isWaiting = true) ∧
    ∀ t, (s.pc t).isWaiting = true → (s.pc t).isAsleep = true

variable [Fintype Tid]

/-- With `n` elements in the queue, each still has a notification or a check
coming, or the unfinished pushes suffice to wake all sleepers. -/
def Covered (s : State Tid α) (n : Nat) : Prop :=
  n ≤ tally s.pc Pc.willCheck + tally s.pc Pc.willNotify ∨
    tally s.pc Pc.isAsleep ≤ tally s.pc Pc.isPush

/-- A consumer that falls asleep leaves no element uncovered: there are no more
elements than pushes still to notify and other `wait_and_pop` calls still to
look, or the unfinished pushes suffice to wake it and all other sleepers. -/
def CoveredSleep (s : State Tid α) : Label Tid α → Prop
  | .fallAsleep _ => ∀ q, Holds s q →
    q.length ≤ tally s.pc Pc.willCheck + tally s.pc Pc.willNotify ∨
      tally s.pc Pc.isAsleep < tally s.pc Pc.isPush
  | _ => True

theorem not_stranded_of_covered {s : State Tid α} {q : List α} {l : List Addr} {tl : Addr}
    (hs : Shape s l tl q) (hc : Covered s q.length) : ¬ Stranded s := by
  rintro ⟨hpush, hne, ⟨t, ht⟩, hasleep⟩
  have hpos : 0 < q.length := List.length_pos_iff.mpr fun hq => hne (hs.head_eq_tail_iff.mpr hq)
  have hcheck : tally s.pc Pc.willCheck = 0 := by
    refine tally_eq_zero.mpr fun u => ?_
    have := hasleep u
    cases hpc : s.pc u <;> simp_all [Pc.willCheck, Pc.isWaiting, Pc.isAsleep]
  have hnotify : tally s.pc Pc.willNotify = 0 := by
    refine tally_eq_zero.mpr fun u => ?_
    have := hpush u
    cases hpc : s.pc u <;> simp_all [Pc.willNotify, Pc.isPush]
  have hnopush : tally s.pc Pc.isPush = 0 := tally_eq_zero.mpr hpush
  have hsleeper : 0 < tally s.pc Pc.isAsleep := tally_pos_of (hasleep t ht)
  rcases hc with h | h <;> omega

variable [DecidableEq Tid]

/-! ## One step -/

/-- How one thread's move changes the four tallies. -/
theorem tallies_update (f : Tid → Pc α) (t : Tid) (x : Pc α) :
    tally (Function.update f t x) Pc.willCheck + (f t).willCheck.toNat =
        tally f Pc.willCheck + x.willCheck.toNat ∧
      tally (Function.update f t x) Pc.willNotify + (f t).willNotify.toNat =
        tally f Pc.willNotify + x.willNotify.toNat ∧
      tally (Function.update f t x) Pc.isAsleep + (f t).isAsleep.toNat =
        tally f Pc.isAsleep + x.isAsleep.toNat ∧
      tally (Function.update f t x) Pc.isPush + (f t).isPush.toNat =
        tally f Pc.isPush + x.isPush.toNat :=
  ⟨tally_update .., tally_update .., tally_update .., tally_update ..⟩

/-- A thread moves from `y` to `x`: elements are covered as before if the move
takes away no more cover than elements, and adds no sleeper without a push. -/
theorem Covered.move {s s' : State Tid α} {t : Tid} {x y : Pc α} {n n' : Nat}
    (hc : Covered s n) (hpc : s.pc t = y) (hpc' : s'.pc = Function.update s.pc t x)
    (hcover : n' + (y.willCheck.toNat + y.willNotify.toNat) ≤
      n + (x.willCheck.toNat + x.willNotify.toNat))
    (hsleep : x.isAsleep.toNat + y.isPush.toNat ≤ y.isAsleep.toNat + x.isPush.toNat) :
    Covered s' n' := by
  obtain ⟨hcheck, hnotify, hasleep, hpush⟩ := tallies_update s.pc t x
  rw [hpc] at hcheck hnotify hasleep hpush
  unfold Covered at hc ⊢
  rw [hpc']
  omega

/-- The one notification that finds no sleeper leaves none behind. -/
theorem covered_of_no_sleeper {s s' : State Tid α} {t : Tid} {x : Pc α} {n : Nat}
    (hnone : ∀ u, (s.pc u).isAsleep = false) (hx : x.isAsleep = false)
    (hpc' : s'.pc = Function.update s.pc t x) : Covered s' n := by
  have hzero : tally s'.pc Pc.isAsleep = 0 := by
    refine tally_eq_zero.mpr fun u => ?_
    rw [hpc']
    by_cases hu : u = t
    · subst u
      simpa using hx
    · simpa [hu] using hnone u
  exact Or.inr (by omega)

/-- A notification exchanges a sleeper for a check. -/
theorem Covered.notify {s : State Tid α} {t u : Tid} {c : PopCall} {n : Nat} (hc : Covered s n)
    (ht : s.pc t = .notify) (hu : s.pc u = .asleep c) (hw : c.waits = true) :
    Covered ((s.goto t .idle).goto u (.lockHead c)) n := by
  have hne : u ≠ t := fun he => by rw [he, ht] at hu; cases hu
  have hu' : (s.goto t .idle).pc u = .asleep c := by simpa [hne] using hu
  obtain ⟨hcheck, hnotify, hasleep, hpush⟩ := tallies_update s.pc t .idle
  obtain ⟨hcheck', hnotify', hasleep', hpush'⟩ :=
    tallies_update (s.goto t .idle).pc u (.lockHead c)
  rw [ht] at hcheck hnotify hasleep hpush
  rw [hu'] at hcheck' hnotify' hasleep' hpush'
  simp [Pc.willCheck, Pc.willNotify, Pc.isAsleep, Pc.isPush] at hcheck hnotify hasleep hpush
  simp [Pc.willCheck, Pc.willNotify, Pc.isAsleep, Pc.isPush, hw] at hcheck' hnotify' hasleep' hpush'
  unfold Covered at hc ⊢
  simp only [State.goto_pc]
  omega

/-- **Cover is kept.**  A tail update brings its own notification; a notification
turns a sleeper into a check; a check that finds a node removes an element, and
one that finds none leaves nothing to cover until pushes bring it. -/
theorem covered_step {s s' : State Tid α}
    {a a' : AtomicState Tid (List α) (ContainerOp α) (Reply α)} {lab : Label Tid α}
    (hR : Refinement s a) (hc : Covered s a.object.length) (hok : CoveredSleep s lab)
    (hstep : machine.step s lab = some s') (hrun : (atomic fifo).run a (event s lab) = some a') :
    Covered s' a'.object.length := by
  obtain ⟨l, tl, h⟩ := hR
  cases moves_of_step hstep with
  | push t v n hpc =>
    rw [atomic_object_invoke ((Machine.run_singleton ..).symm.trans hrun)]
    exact hc.move hpc rfl (by simp [Pc.willCheck, Pc.willNotify]) (by simp [Pc.isAsleep, Pc.isPush])
  | updateTail t v n hpc =>
    have hph : a.phase t = .pending (.push v) := (h.agrees_of hpc).2
    obtain ⟨r, hr⟩ := atomic_object_linearize hph ((Machine.run_singleton ..).symm.trans hrun)
    have hobj : a'.object = a.object ++ [v] := (congrArg Prod.fst (Option.some.inj hr)).symm
    rw [hobj, h.updateTail_eq]
    exact hc.move hpc rfl (by simp [Pc.willCheck, Pc.willNotify]) (by simp [Pc.isAsleep, Pc.isPush])
  | notifyOne t u c hpc hu =>
    rw [atomic_object_respond ((Machine.run_singleton ..).symm.trans hrun)]
    obtain ⟨hw, -⟩ := h.agrees_of hu
    exact hc.notify hpc hu hw
  | notifyNone t hpc hnone =>
    rw [atomic_object_respond ((Machine.run_singleton ..).symm.trans hrun)]
    exact covered_of_no_sleeper hnone rfl rfl
  | pop t c hpc =>
    rw [atomic_object_invoke ((Machine.run_singleton ..).symm.trans hrun)]
    exact hc.move hpc rfl (by simp [Pc.willCheck, Pc.willNotify]) (by simp [Pc.isAsleep, Pc.isPush])
  | lockHead t c hpc =>
    cases hrun
    exact hc.move hpc rfl (by simp [Pc.willCheck, Pc.willNotify]) (by simp [Pc.isAsleep, Pc.isPush])
  | evaluate t c hpc =>
    by_cases hempty : s.head = s.tail
    · cases hw : c.waits with
      | true =>
        have hobj : a'.object = [] := by
          rw [← h.head_eq_tail_iff.mp hempty]
          simp [event, hpc, hempty, hw] at hrun
          rw [hrun]
        rw [hobj]
        exact Or.inl (Nat.zero_le _)
      | false =>
        have hph : a.phase t = .pending (.pop c.waits) := h.agrees_of hpc
        simp [event, hpc, hempty, hw] at hrun
        obtain ⟨r, hr⟩ := atomic_object_linearize hph hrun
        rw [h.head_eq_tail_iff.mp hempty, hw] at hr
        have hobj : a'.object = [] := (congrArg Prod.fst (Option.some.inj hr)).symm
        rw [hobj]
        exact Or.inl (Nat.zero_le _)
    · simp [event, hpc, hempty] at hrun
      subst hrun
      exact hc.move hpc (by simp [State.evaluate, hempty]; rfl)
        (by simp [Pc.willCheck, Pc.willNotify]) (by simp [Pc.isAsleep, Pc.isPush])
  | fallAsleep t c hpc =>
    cases hrun
    obtain ⟨hcheck, hnotify, hasleep, hpush⟩ := tallies_update s.pc t (.asleep c)
    rw [hpc] at hcheck hnotify hasleep hpush
    simp [Pc.willCheck, Pc.willNotify, Pc.isAsleep, Pc.isPush] at hcheck hnotify hasleep hpush
    have hcov := hok a.object ⟨l, tl, h.toShape⟩
    simp only [Covered, State.goto_pc]
    omega
  | popHead t c hpc =>
    have hph : a.phase t = .pending (.pop c.waits) := h.agrees_of hpc
    obtain ⟨r, hr⟩ := atomic_object_linearize hph ((Machine.run_singleton ..).symm.trans hrun)
    obtain ⟨old, l', v, q', nx, -, hq, -, hpop⟩ := h.popHead_eq hpc
    rw [hq] at hr
    have hq' : q' = a'.object := congrArg Prod.fst (Option.some.inj hr)
    have hobj : a.object = v :: a'.object := by rw [hq, hq']
    rw [hpop]
    rw [hobj, List.length_cons] at hc
    exact hc.move hpc rfl (by cases hw : c.waits <;> simp [Pc.willCheck, Pc.willNotify, hw])
      (by simp [Pc.isAsleep, Pc.isPush])
  | finish t c old moved hpc =>
    rw [atomic_object_respond ((Machine.run_singleton ..).symm.trans hrun)]
    exact hc.move hpc rfl (by simp [Pc.willCheck, Pc.willNotify]) (by simp [Pc.isAsleep, Pc.isPush])
  | returnEmpty t c hpc =>
    rw [atomic_object_respond ((Machine.run_singleton ..).symm.trans hrun)]
    exact hc.move hpc rfl (by simp [Pc.willCheck, Pc.willNotify]) (by simp [Pc.isAsleep, Pc.isPush])

/-! ## Whole runs -/

/-- Runs whose consumers fall asleep covered keep every element covered. -/
theorem covered_of_reachableBy {s : State Tid α}
    (h : (machine : Machine (State Tid α) (Label Tid α)).ReachableBy CoveredSleep s) :
    ∃ a, Refinement s a ∧ Covered s a.object.length := by
  refine h.invariant (P := fun s => ∃ a, Refinement s a ∧ Covered s a.object.length) ?_ ?_
  · exact ⟨_, refinement_init, Or.inl (Nat.zero_le _)⟩
  · rintro s lab s' ⟨a, hR, hc⟩ hok hstep
    obtain ⟨a', hrun, hR'⟩ := refinement_step hR hstep
    exact ⟨a', hR', covered_step hR hc hok hstep hrun⟩

/-- **No consumer is stranded while every sleep is covered.**  In every state of
every run whose consumers fall asleep covered, it is not the case that all
pushes are finished, an element is there, and every unfinished `wait_and_pop`
sleeps un-notified. -/
theorem not_stranded_of_coveredSleep (s : State Tid α)
    (h : (machine : Machine (State Tid α) (Label Tid α)).ReachableBy CoveredSleep s) :
    ¬ Stranded s := by
  obtain ⟨a, ⟨l, tl, hR⟩, hc⟩ := covered_of_reachableBy h
  exact not_stranded_of_covered hR.toShape hc

/-! ## A whole push between the check and the sleep -/

/-- Thread a finds the queue empty; thread b pushes 7 and notifies nobody; thread
a falls asleep. -/
def lostWakeup : List (Label Two Nat) :=
  [.pop .a .waitAndPop, .lockHead .a, .evaluate .a, .push .b 7 1, .updateTail .b, .notifyOne .b none,
    .fallAsleep .a]

theorem lostWakeup_stranded :
    ¬ ∀ s, (machine : Machine (State Two Nat) (Label Two Nat)).Reachable s →
      ¬ Stranded s := by
  intro h
  refine h _ (Machine.reachable_of_run lostWakeup rfl) ⟨?_, ?_, ⟨.a, rfl⟩, ?_⟩
  · decide
  · decide
  · decide

/-- The same threads, the push notifying after the consumer has fallen asleep. -/
def wakeup : List (Label Two Nat) :=
  [.pop .a .waitAndPop, .lockHead .a, .evaluate .a, .push .b 7 1, .updateTail .b, .fallAsleep .a,
    .notifyOne .b (some .a)]

theorem wakeup_not_stranded :
    ∃ s, (machine : Machine (State Two Nat) (Label Two Nat)).run machine.init wakeup =
      some s ∧ ¬ Stranded s := by
  refine ⟨_, rfl, not_stranded_of_coveredSleep _ (Machine.reachableBy_of_run wakeup ?_ rfl)⟩
  -- thread b is in `push` and nobody sleeps when thread a falls asleep
  refine ⟨trivial, trivial, trivial, trivial, trivial, ⟨fun q _ => Or.inr ?_, trivial, trivial⟩⟩
  decide

end Sundries.ThreadsafeQueue
