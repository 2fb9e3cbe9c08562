import Sundries.ThreadPool

/-!
# Which pool runs a task

A task submitted to a pool is meant to be run by a call of `run_pending_task` on that
pool.  But `submit` and `run_pending_task` go to the local queue of the thread they
run on, whichever pool it works for: a task that a worker of one pool submits to
another lands in the worker's own queue, and the next call in that worker's loop takes
it.

As long as only the workers of a pool meet their local queue when they use that pool
(`OwnQueue`), every task stays with its pool.  The first step that breaks the
condition leads to a task run by the wrong pool: either at once, or as soon as the
worker has gone through its local queue.
-/
namespace Sundries.ThreadPool

variable {Pid Tid Task : Type}

/-- A thread that meets its local queue works for the pool it calls. -/
def OwnQueue (setup : Setup Pid Tid) (s : State Pid Tid Task) : Label Pid Tid Task → Prop
  | .submit t p _ => s.localQueue t = none ∨ setup.worker t = some p
  | .runPendingTask t p => (s.localQueue t).getD [] = [] ∨ setup.worker t = some p
  | _ => True

instance [DecidableEq Pid] (setup : Setup Pid Tid) (s : State Pid Tid Task) :
    ∀ lab, Decidable (OwnQueue setup s lab)
  | .submit _ _ _ => inferInstanceAs (Decidable (_ ∨ _))
  | .runPendingTask _ _ => inferInstanceAs (Decidable (_ ∨ _))
  | .start _ | .finish _ | .workerStart _ | .workerTest _ | .workerCall _ | .destroy _ =>
    inferInstanceAs (Decidable True)

/-- Every task is with the pool it was submitted to. -/
structure Owned (setup : Setup Pid Tid) (s : State Pid Tid Task) : Prop where
  shared : ∀ p, ∀ τ ∈ s.queue p, s.submittedTo τ = some p
  own : ∀ t, ∀ τ ∈ (s.localQueue t).getD [], s.submittedTo τ = setup.worker t
  calls : ∀ t, ∀ c ∈ s.calls t, s.submittedTo c.task = some c.pool
  threads : Threads setup s

section Owned
variable {setup : Setup Pid Tid} {s s' : State Pid Tid Task} {t : Tid} {p : Pid}

namespace Owned

variable [DecidableEq Pid] [DecidableEq Tid] [DecidableEq Task]

omit [DecidableEq Task] in
/-- A call of `run_pending_task` on the thread's own pool, or with no task in the
local queue. -/
theorem runPendingTask (h : Owned setup s) (ht : s.taken t = none) (hx : s.phase t ≠ .exited)
    (hown : (s.localQueue t).getD [] = [] ∨ setup.worker t = some p) :
    Owned setup (s.runPendingTask t p) := by
  have hthreads := h.threads.runPendingTask (p := p) hx
  have hcalls : ∀ (c : Call Pid Tid Task) (u : Tid), s.submittedTo c.task = some c.pool →
      ∀ d ∈ (Function.update s.taken t (some c) u).toList ++ s.running u,
        s.submittedTo d.task = some d.pool := by
    intro c u hc d hd
    by_cases hut : u = t
    · subst u
      rw [Function.update_self, Option.toList_some, List.singleton_append, List.mem_cons] at hd
      rcases hd with rfl | hd
      · exact hc
      · exact h.calls t d (by simp [State.calls, ht, hd])
    · rw [Function.update_of_ne hut] at hd
      exact h.calls u d hd
  rcases runPendingTask_cases s t p with ⟨-, hs⟩ | ⟨τ, q, hl, -, hs⟩ | ⟨τ, q, hq, -, hs⟩
  · rw [hs]
    exact h
  · -- the thread has a task of its own, so it works for the pool
    have hw : setup.worker t = some p := hown.resolve_left (by simp [hl])
    rw [hs] at hthreads ⊢
    refine ⟨h.shared, fun u σ hσ => ?_, fun u => hcalls _ u ?_, hthreads⟩
    · by_cases hut : u = t
      · subst u
        exact h.own t σ (by simp [hl, show σ ∈ q by simpa using hσ])
      · exact h.own u σ (by simpa [hut] using hσ)
    · exact (h.own t τ (by simp [hl])).trans hw
  · rw [hs] at hthreads ⊢
    refine ⟨fun p' σ hσ => ?_, h.own, fun u => hcalls _ u ?_, hthreads⟩
    · by_cases hpp : p' = p
      · subst p'
        exact h.shared p σ (by simp [hq, show σ ∈ q by simpa using hσ])
      · exact h.shared p' σ (by simpa [hpp] using hσ)
    · exact h.shared p τ (by simp [hq])

theorem submit (h : Owned setup s) {τ : Task} (hτ : s.submittedTo τ = none)
    (hown : s.localQueue t = none ∨ setup.worker t = some p)
    (hthreads : Threads setup (s.submit t p τ)) : Owned setup (s.submit t p τ) := by
  have hkeep : ∀ σ o, s.submittedTo σ = some o →
      Function.update s.submittedTo τ (some p) σ = some o := by
    intro σ o hσ
    have hne : σ ≠ τ := by
      rintro rfl
      rw [hτ] at hσ
      cases hσ
    rw [Function.update_of_ne hne, hσ]
  have hlocal : ∀ u, ∀ σ ∈ (s.localQueue u).getD [],
      Function.update s.submittedTo τ (some p) σ = setup.worker u := by
    intro u σ hσ
    have hne : s.localQueue u ≠ none := fun hnone => by simp [hnone] at hσ
    obtain ⟨w, hw⟩ := Option.ne_none_iff_exists'.mp (h.threads.owner u hne).1
    rw [hw]
    exact hkeep σ w ((h.own u σ hσ).trans hw)
  cases hl : s.localQueue t with
  | none =>
    rw [submit_shared hl] at hthreads ⊢
    refine ⟨fun p' σ hσ => ?_, hlocal, fun u c hc => hkeep _ _ (h.calls u c hc), hthreads⟩
    by_cases hpp : p' = p
    · subst p'
      have hσ' : σ ∈ s.queue p ∨ σ = τ := by simpa using hσ
      rcases hσ' with hold | rfl
      · exact hkeep σ p (h.shared p σ hold)
      · exact Function.update_self ..
    · have hold : σ ∈ s.queue p' := by simpa [hpp] using hσ
      exact hkeep σ p' (h.shared p' σ hold)
  | some q =>
    have hw : setup.worker t = some p := hown.resolve_left (by simp [hl])
    rw [submit_own hl] at hthreads ⊢
    refine ⟨fun p' σ hσ => hkeep σ p' (h.shared p' σ hσ), fun u σ hσ => ?_,
      fun u c hc => hkeep _ _ (h.calls u c hc), hthreads⟩
    by_cases hut : u = t
    · subst u
      have hσ' : σ ∈ q ∨ σ = τ := by simpa using hσ
      rcases hσ' with hold | rfl
      · exact hlocal t σ (by simp [hl, hold])
      · simp [hw]
    · exact hlocal u σ (by simpa [hut] using hσ)

theorem init : Owned setup (machine setup : Machine (State Pid Tid Task) _).init :=
  ⟨fun _ _ hτ => (nomatch hτ), fun _ _ hτ => (nomatch hτ), fun _ _ hc => (nomatch hc), Threads.init⟩

theorem step {lab : Label Pid Tid Task} (h : Owned setup s) (hok : OwnQueue setup s lab)
    (hstep : (machine setup).step s lab = some s') : Owned setup s' := by
  have hthreads := h.threads.step hstep
  cases moves_of_step hstep with
  | submit t p τ hu hτ => exact h.submit hτ hok hthreads
  | runPendingTask t p hu =>
    exact h.runPendingTask hu.1 (h.threads.not_exited hu) hok
  | start t c hc =>
    refine ⟨h.shared, h.own, fun u d hd => h.calls u d ?_, hthreads⟩
    by_cases hut : u = t
    · subst u
      simpa [State.start, State.calls, hc] using hd
    · simpa [State.start, State.calls, hut] using hd
  | finish t c outer ht hr =>
    refine ⟨h.shared, h.own, fun u d hd => h.calls u d ?_, hthreads⟩
    by_cases hut : u = t
    · subst u
      have hd' : d ∈ outer := by simpa [State.finish, State.calls, ht] using hd
      simp [State.calls, hr, hd']
    · simpa [State.finish, State.calls, hut] using hd
  | workerStart t p hw hin =>
    refine ⟨h.shared, fun u σ hσ => h.own u σ ?_, h.calls, hthreads⟩
    by_cases hut : u = t
    · subst u
      cases hlocal : setup.useLocal p with
      | false => simpa [State.workerStart, hlocal] using hσ
      | true => simp [State.workerStart, hlocal] at hσ
    · simpa [State.workerStart, hut] using hσ
  | workerTest t p hw hin =>
    by_cases hd : s.done p = true
    · rw [State.workerTest, if_pos hd] at hthreads ⊢
      refine ⟨h.shared, fun u σ hσ => h.own u σ ?_, h.calls, hthreads⟩
      by_cases hut : u = t
      · subst u
        simp at hσ
      · simpa [hut] using hσ
    · rw [State.workerTest, if_neg hd] at hthreads ⊢
      exact ⟨h.shared, h.own, h.calls, hthreads⟩
  | workerCall t p hw hin =>
    obtain ⟨ht, -, -⟩ := hin
    have hloop : Owned setup { s with phase := Function.update s.phase t .test } :=
      ⟨h.shared, h.own, h.calls, h.threads.loop hw (Or.inl rfl)⟩
    exact hloop.runPendingTask ht (by simp) (Or.inr hw)
  | destroy p => exact ⟨h.shared, h.own, h.calls, hthreads⟩

end Owned

variable [DecidableEq Pid] [DecidableEq Tid] [DecidableEq Task]

/-- A worker that runs a task and calls `run_pending_task` on its own pool, and again
from the task it gets, comes to the last task of its local queue. -/
theorem exists_drained (setup : Setup Pid Tid) (w : Pid) (τ : Task) (q : List Task)
    {s : State Pid Tid Task} (hl : s.localQueue t = some (q ++ [τ])) (hu : s.InUserCode t) :
    ∃ ls r, (machine setup).run s ls = some r ∧ r.submittedTo = s.submittedTo ∧
      r.taken t = some ⟨w, τ, .own t⟩ := by
  induction q generalizing s with
  | nil =>
    refine ⟨[.runPendingTask t w], s.runPendingTask t w, ?_, ?_, ?_⟩
    · simp [machine, hu]
    · simp [State.runPendingTask, hl]
    · simp [State.runPendingTask, hl]
  | cons σ q ih =>
    have hs : s.runPendingTask t w =
        { s with
          localQueue := Function.update s.localQueue t (some (q ++ [τ]))
          taken := Function.update s.taken t (some ⟨w, σ, .own t⟩) } := by
      simp [State.runPendingTask, hl]
    obtain ⟨ls, r, hrun, hsub, htaken⟩ :=
      ih (s := (s.runPendingTask t w).start t ⟨w, σ, .own t⟩) (by simp [hs, State.start])
        ⟨by simp [State.start], Or.inl (by simp [State.start])⟩
    refine ⟨.runPendingTask t w :: .start t :: ls, r, ?_, ?_, htaken⟩
    · refine (Machine.run_cons_eq_some _).mpr ⟨_, if_pos hu, ?_⟩
      refine (Machine.run_cons_eq_some _).mpr ⟨_, ?_, hrun⟩
      simp [machine, hs]
    · rw [hsub, hs]
      rfl

/-- A step that breaks the condition leads to a task run by another pool. -/
theorem Owned.exists_misplaced (h : Owned setup s) {lab : Label Pid Tid Task}
    (hbreak : ¬ OwnQueue setup s lab) (hstep : (machine setup).step s lab = some s') :
    ∃ ls r, (machine setup).run s' ls = some r ∧
      ∃ t, ∃ c ∈ r.calls t, r.submittedTo c.task ≠ some c.pool := by
  cases moves_of_step hstep with
  | submit t p τ hu =>
    obtain ⟨hl, hw⟩ := not_or.mp hbreak
    obtain ⟨w, hworker⟩ := Option.ne_none_iff_exists'.mp (h.threads.owner t hl).1
    obtain ⟨q, hq⟩ := Option.ne_none_iff_exists'.mp hl
    -- the task is the last one in the worker's own queue
    obtain ⟨ls, r, hrun, hsub, htaken⟩ := exists_drained setup w τ q
      (s := s.submit t p τ) (t := t) (by simp [State.submit, hq])
      (by simpa [State.submit, hq, State.InUserCode] using hu)
    refine ⟨ls, r, hrun, t, ⟨w, τ, .own t⟩, by simp [State.calls, htaken], ?_⟩
    have hpw : p ≠ w := fun he => hw (by rw [hworker, he])
    simpa [hsub, State.submit, hq] using hpw
  | runPendingTask t p =>
    obtain ⟨hl, hw⟩ := not_or.mp hbreak
    cases hq : s.localQueue t with
    | none => simp [hq] at hl
    | some l =>
      cases l with
      | nil => simp [hq] at hl
      | cons τ q =>
        refine ⟨[], _, rfl, t, ⟨p, τ, .own t⟩, by simp [State.calls, State.runPendingTask, hq], ?_⟩
        have hown := h.own t τ (by simp [hq])
        simpa [State.runPendingTask, hq, hown] using hw
  | start _ | finish _ | workerStart _ | workerTest _ | workerCall _ | destroy _ =>
    exact absurd trivial hbreak

end Owned

variable [DecidableEq Pid] [DecidableEq Tid] [DecidableEq Task]

/-- **A task is run by the pool it was submitted to**, in every run in which a thread
that meets its local queue in `submit` or `run_pending_task` works for the pool it
calls: every call that has taken a task is a call on the pool to which the task was
submitted.  The condition is exact: the first step that breaks it leads to a call on
another pool. -/
theorem ownPool_of_ownQueue (setup : Setup Pid Tid) :
    (∀ s : State Pid Tid Task, (machine setup).ReachableBy (OwnQueue setup) s →
      ∀ t, ∀ c ∈ s.calls t, s.submittedTo c.task = some c.pool) ∧
    ∀ (s : State Pid Tid Task) lab s', (machine setup).ReachableBy (OwnQueue setup) s →
      (machine setup).step s lab = some s' → ¬ OwnQueue setup s lab →
      ∃ ls r, (machine setup).run s' ls = some r ∧
        ∃ t, ∃ c ∈ r.calls t, r.submittedTo c.task ≠ some c.pool := by
  have howned : ∀ s : State Pid Tid Task, (machine setup).ReachableBy (OwnQueue setup) s →
      Owned setup s := fun s h =>
    h.invariant Owned.init fun _ _ _ hs hok hstep => hs.step hok hstep
  exact ⟨fun s h => (howned s h).calls,
    fun s lab s' h hstep hbreak => (howned s h).exists_misplaced hbreak hstep⟩

/-! ## Two pools -/

/-- Pool 0 with local queues and the worker 0, pool 1 without and the worker 1, and
another thread. -/
def twoPools : Setup Nat Nat where
  worker t := if t < 2 then some t else none
  useLocal p := p = 0

/-- Worker 0 runs a task that submits task 1 to pool 1; then it takes that task. -/
def submittedAcross : List (Label Nat Nat Nat) :=
  [.submit 2 0 0, .workerStart 0, .workerTest 0, .workerCall 0, .start 0, .submit 0 1 1,
    .finish 0, .workerTest 0, .workerCall 0, .start 0]

theorem submittedAcross_wrongPool :
    ¬ ∀ (ls : List (Label Nat Nat Nat)) (s : State Nat Nat Nat),
      (machine twoPools).run (machine twoPools).init ls = some s →
      ∀ t, ∀ c ∈ s.calls t, s.submittedTo c.task = some c.pool := by
  intro h
  have hpool := h submittedAcross _ rfl 0 ⟨0, 1, .own 0⟩ List.mem_cons_self
  have hne : (some 1 : Option Nat) ≠ some 0 := by decide
  exact hne hpool

/-- The other thread submits task 1 to pool 1, and a task of pool 0 another one to its
own pool. -/
def submittedToOwn : List (Label Nat Nat Nat) :=
  [.submit 2 0 0, .submit 2 1 1, .workerStart 0, .workerTest 0, .workerCall 0, .start 0,
    .submit 0 0 2, .finish 0, .workerTest 0, .workerCall 0, .workerStart 1, .workerTest 1,
    .workerCall 1]

theorem submittedToOwn_ownPool :
    ∃ s, (machine twoPools).run (machine twoPools).init submittedToOwn = some s ∧
      s.taken 0 = some ⟨0, 2, .own 0⟩ ∧ s.taken 1 = some ⟨1, 1, .shared 1⟩ ∧
      ∀ t, ∀ c ∈ s.calls t, s.submittedTo c.task = some c.pool := by
  have hok : (machine twoPools).RunMeets (OwnQueue twoPools) (machine twoPools).init
      submittedToOwn := by decide
  refine ⟨_, rfl, rfl, rfl, ?_⟩
  exact (ownPool_of_ownQueue twoPools).1 _ (Machine.reachableBy_of_run submittedToOwn hok rfl)

end Sundries.ThreadPool
