import Sundries.ThreadPool

/-!
# No task of a `thread_pool` is lost or run twice

The pools with their threads are simulated by the machine that hands out items from
queues: each pool's `_queue` and each thread's `_local_queue` is a queue of it, the
threads are its agents, and nested calls of `run_pending_task` are nested items.  A
worker that ends drops the tasks of its local queue; the simulation keeps them
waiting, so it goes on holding after the end of a pool, while the tasks can only be
found in the program as long as no `_done` is set.

Tasks leave every queue in the order in which they were put into it, and each thread
starts what it takes before it takes anything else.  Two threads that have taken
tasks from the shared queue may start them in either order.
-/
namespace Sundries.ThreadPool

open Dispatch (Event)

variable {Pid Tid Task : Type}

/-- The pools with their threads and the abstract hand-out correspond. -/
structure Refines (setup : Setup Pid Tid) (s : State Pid Tid Task)
    (a : Dispatch (Queue Pid Tid) Tid Task) : Prop where
  shared : ∀ p, a.waiting (.shared p) = s.queue p
  own : ∀ t, s.phase t ≠ .exited → a.waiting (.own t) = (s.localQueue t).getD []
  taken : ∀ t, a.taken t = (s.taken t).map fun c => (c.source, c.task)
  running : ∀ t, a.running t = (s.running t).map Call.task
  finished : a.finished = s.finished
  recorded : ∀ τ, τ ∈ a.recorded ↔ s.submittedTo τ ≠ none
  threads : Threads setup s

section Refines
variable {setup : Setup Pid Tid} {s s' : State Pid Tid Task}
  {a : Dispatch (Queue Pid Tid) Tid Task} {t : Tid} {p : Pid}

namespace Refines

/-- As long as no pool is destroyed every task the hand-out knows is where it says. -/
theorem content_eq (h : Refines setup s a) (hdone : ∀ p, s.done p = false) :
    a.content = s.content := by
  have hrunning : ∀ t, s.phase t ≠ .exited := fun t ht => by
    obtain ⟨-, -, p, -, hp⟩ := h.threads.exited t ht
    simp [hdone p] at hp
  funext pl
  rcases pl with (p | t) | t | -
  · exact h.shared p
  · exact h.own t (hrunning t)
  · cases ht : s.taken t <;>
      simp [Dispatch.content, State.content, State.calls, h.taken t, h.running t, ht]
  · exact h.finished

variable [DecidableEq Pid] [DecidableEq Tid] [DecidableEq Task]

/-- A call of `run_pending_task` takes what it finds. -/
theorem runPendingTask (h : Refines setup s a) (ht : s.taken t = none)
    (hx : s.phase t ≠ .exited) :
    ∃ a', dispatch.run a ((s.pending t p).toList.map fun e => .take t e.1 e.2) = some a' ∧
      Refines setup (s.runPendingTask t p) a' := by
  have htaken : a.taken t = none := by simp [h.taken t, ht]
  have hthreads := h.threads.runPendingTask (p := p) hx
  rcases runPendingTask_cases s t p with ⟨hpend, hs⟩ | ⟨τ, q, hl, hpend, hs⟩ | ⟨τ, q, hq, hpend, hs⟩
  · rw [hs, hpend]
    exact ⟨a, rfl, h⟩
  · have hown : a.waiting (.own t) = τ :: q := by simp [h.own t hx, hl]
    rw [hs] at hthreads
    rw [hs, hpend]
    refine ⟨_, (dispatch.run_singleton a _).trans (dispatch_take htaken hown), ?_⟩
    refine ⟨fun p' => by simp [h.shared p'], fun u hu => ?_, fun u => ?_, h.running, h.finished,
      h.recorded, hthreads⟩
    · by_cases hut : u = t
      · subst u
        simp
      · simpa [hut] using h.own u hu
    · by_cases hut : u = t
      · subst u
        simp
      · simpa [hut] using h.taken u
  · have hshared : a.waiting (.shared p) = τ :: q := by rw [h.shared p, hq]
    rw [hs] at hthreads
    rw [hs, hpend]
    refine ⟨_, (dispatch.run_singleton a _).trans (dispatch_take htaken hshared), ?_⟩
    refine ⟨fun p' => ?_, fun u hu => by simpa using h.own u hu, fun u => ?_, h.running, h.finished,
      h.recorded, hthreads⟩
    · by_cases hpp : p' = p
      · subst p'
        simp
      · simpa [hpp] using h.shared p'
    · by_cases hut : u = t
      · subst u
        simp
      · simpa [hut] using h.taken u

theorem submit (h : Refines setup s a) {τ : Task} (hu : s.InUserCode t)
    (hτ : s.submittedTo τ = none) (hthreads : Threads setup (s.submit t p τ)) :
    ∃ a', dispatch.run a [.put (s.queueFor t p) τ] = some a' ∧
      Refines setup (s.submit t p τ) a' := by
  have hnew : τ ∉ a.recorded := fun hmem => (h.recorded τ).mp hmem hτ
  have hrecorded : ∀ σ, σ ∈ a.recorded ++ [τ] ↔
      Function.update s.submittedTo τ (some p) σ ≠ none := by
    intro σ
    by_cases hσ : σ = τ
    · subst σ
      simp
    · simpa [hσ] using h.recorded σ
  refine ⟨_, (dispatch.run_singleton a _).trans (dispatch_put hnew), ?_⟩
  cases hl : s.localQueue t with
  | none =>
    rw [submit_shared hl] at hthreads ⊢
    refine ⟨fun p' => ?_, fun u hx => ?_, h.taken, h.running, h.finished, hrecorded, hthreads⟩
    · by_cases hpp : p' = p
      · subst p'
        simp [State.queueFor, hl, h.shared p]
      · simpa [State.queueFor, hl, hpp] using h.shared p'
    · simpa [State.queueFor, hl] using h.own u hx
  | some q =>
    have hown := h.own t (h.threads.not_exited hu)
    rw [submit_own hl] at hthreads ⊢
    refine ⟨fun p' => by simpa [State.queueFor, hl] using h.shared p', fun u hx => ?_, h.taken,
      h.running, h.finished, hrecorded, hthreads⟩
    by_cases hut : u = t
    · subst u
      simp [State.queueFor, hl, hown]
    · simpa [State.queueFor, hl, hut] using h.own u hx

theorem start (h : Refines setup s a) {c : Call Pid Tid Task} (hc : s.taken t = some c)
    (hthreads : Threads setup (s.start t c)) :
    ∃ a', dispatch.run a [.start t c.source c.task] = some a' ∧ Refines setup (s.start t c) a' := by
  have hstart := dispatch_start (a := a) (by rw [h.taken t, hc]; rfl)
  refine ⟨_, (dispatch.run_singleton a _).trans hstart, h.shared, h.own, fun u => ?_, fun u => ?_,
    h.finished, h.recorded, hthreads⟩
  · by_cases hut : u = t
    · subst u
      simp [State.start]
    · simpa [State.start, hut] using h.taken u
  · by_cases hut : u = t
    · subst u
      simp [State.start, h.running t]
    · simpa [State.start, hut] using h.running u

theorem finish (h : Refines setup s a) {c : Call Pid Tid Task} {outer : List (Call Pid Tid Task)}
    (ht : s.taken t = none) (hr : s.running t = c :: outer)
    (hthreads : Threads setup (s.finish t c outer)) :
    ∃ a', dispatch.run a [.finish t c.task] = some a' ∧ Refines setup (s.finish t c outer) a' := by
  have hrun : a.running t = c.task :: outer.map Call.task := by rw [h.running t, hr]; rfl
  have hnone : a.taken t = none := by rw [h.taken t, ht]; rfl
  refine ⟨_, (dispatch.run_singleton a _).trans (dispatch_finish hnone hrun), h.shared, h.own,
    h.taken, fun u => ?_, by simp [State.finish, h.finished], h.recorded, hthreads⟩
  by_cases hut : u = t
  · subst u
    simp [State.finish]
  · simpa [State.finish, hut] using h.running u

end Refines

variable [DecidableEq Pid] [DecidableEq Tid] [DecidableEq Task]

theorem refines_step {lab : Label Pid Tid Task} (h : Refines setup s a)
    (hstep : (machine setup).step s lab = some s') :
    ∃ a', dispatch.run a (event setup s lab) = some a' ∧ Refines setup s' a' := by
  have hthreads := h.threads.step hstep
  cases moves_of_step hstep with
  | submit t p τ hu hτ => exact h.submit hu hτ hthreads
  | runPendingTask t p hu =>
    exact h.runPendingTask hu.1 (h.threads.not_exited hu)
  | start t c hc =>
    simpa [event, hc] using h.start hc hthreads
  | finish t c outer ht hr =>
    simpa [event, hr] using h.finish ht hr hthreads
  | workerStart t p hw hin =>
    obtain ⟨-, -, hphase⟩ := hin
    refine ⟨a, rfl, h.shared, fun u hx => ?_, h.taken, h.running, h.finished, h.recorded,
      hthreads⟩
    by_cases hut : u = t
    · -- before `worker_thread` the thread has no local queue that a reset could drop
      subst u
      have hnone : s.localQueue t = none := by
        by_contra hl
        exact (h.threads.owner t hl).2.1 hphase
      have hempty : a.waiting (.own t) = [] := by
        rw [h.own t (by simp [hphase]), hnone]
        rfl
      rw [hempty]
      cases hlocal : setup.useLocal p <;> simp [State.workerStart, hnone]
    · simpa [State.workerStart, hut] using h.own u (by simpa [State.workerStart, hut] using hx)
  | workerTest t p hw hin =>
    obtain ⟨-, -, hphase⟩ := hin
    by_cases hd : s.done p = true
    · -- the worker ends: its queue goes on waiting in the hand-out only
      rw [State.workerTest, if_pos hd] at hthreads ⊢
      refine ⟨a, rfl, h.shared, fun u hx => ?_, h.taken, h.running, h.finished, h.recorded,
        hthreads⟩
      by_cases hut : u = t
      · subst u
        simp at hx
      · simpa [hut] using h.own u (by simpa [hut] using hx)
    · rw [State.workerTest, if_neg hd] at hthreads ⊢
      refine ⟨a, rfl, h.shared, fun u hx => h.own u ?_, h.taken, h.running, h.finished,
        h.recorded, hthreads⟩
      by_cases hut : u = t
      · subst u
        simp [hphase]
      · simpa [hut] using hx
  | workerCall t p hw hin =>
    obtain ⟨ht, -, hphase⟩ := hin
    have hloop : Refines setup { s with phase := Function.update s.phase t .test } a := by
      refine ⟨h.shared, fun u hx => h.own u ?_, h.taken, h.running, h.finished, h.recorded,
        h.threads.loop hw (Or.inl rfl)⟩
      by_cases hut : u = t
      · subst u
        simp [hphase]
      · simpa [hut] using hx
    obtain ⟨a', hrun, h'⟩ := hloop.runPendingTask (t := t) (p := p) ht (by simp)
    refine ⟨a', ?_, h'⟩
    simp only [event, hw]
    exact hrun
  | destroy p =>
    exact ⟨a, rfl, h.shared, h.own, h.taken, h.running, h.finished, h.recorded, hthreads⟩

theorem simulation :
    Machine.Simulation (machine setup : Machine (State Pid Tid Task) _) dispatch (event setup)
      (Refines setup) where
  init := ⟨fun _ => rfl, fun _ _ => rfl, fun _ => rfl, fun _ => rfl, rfl,
    fun _ => ⟨fun hτ => (nomatch hτ), fun hτ => absurd rfl hτ⟩, Threads.init⟩
  step _ _ _ _ h hstep := refines_step h hstep

omit [DecidableEq Task] in
/-- Only its own thread takes from a local queue. -/
theorem eq_of_take_own {lab : Label Pid Tid Task} {u : Tid} {τ : Task}
    (h : .take u (.own t) τ ∈ event setup s lab) : u = t := by
  have hpending : ∀ v p, .take u (.own t) τ ∈
      ((s.pending v p).toList.map fun e => Event.take v e.1 e.2) → u = t := by
    intro v p hmem
    rcases runPendingTask_cases s v p with ⟨hpend, -⟩ | ⟨σ, q, -, hpend, -⟩ | ⟨σ, q, -, hpend, -⟩
    · simp [hpend] at hmem
    · simp only [hpend, Option.toList_some, List.map_cons, List.map_nil, List.mem_singleton,
        Event.take.injEq, Queue.own.injEq] at hmem
      exact hmem.1.trans hmem.2.1.symm
    · simp [hpend] at hmem
  cases lab with
  | runPendingTask v p => exact hpending v p h
  | workerCall v =>
    simp only [event] at h
    split at h
    · exact hpending v _ h
    · cases h
  | start v | finish v => simp [event] at h
  | submit v p σ => simp [event] at h
  | workerStart v | workerTest v | destroy p => cases h

end Refines

variable [DecidableEq Pid] [DecidableEq Tid] [DecidableEq Task]

/-- **A task is neither lost nor run twice.**  In every run, as long as no `_done` is
set, each submitted task is in exactly one place and there once: a shared queue, a
local queue, the hands of one unfinished call of `run_pending_task`, or finished.  No
task is started twice.  Tasks leave each queue in the order in which they were put
into it; each thread starts those it takes from a queue in that order; and those of a
local queue are started in that order. -/
theorem tasks_conserved (setup : Setup Pid Tid) (ls : List (Label Pid Tid Task))
    (s : State Pid Tid Task) (h : (machine setup).run (machine setup).init ls = some s) :
    let τ := (machine setup).trace (event setup) (machine setup).init ls
    ((∀ p, s.done p = false) → ∀ x, s.submittedTo x ≠ none →
        ∃! e : Dispatch.Place (Queue Pid Tid) Tid × Nat, (s.content e.1)[e.2]? = some x) ∧
      (Dispatch.started τ).Nodup ∧
      (∀ q, Dispatch.takenFrom q τ <+: Dispatch.putTo q τ) ∧
      (∀ q t, (Dispatch.ofQueue q (Dispatch.startedBy t τ)).Sublist (Dispatch.putTo q τ)) ∧
      ∀ t, Dispatch.startedFrom (.own t) τ <+: Dispatch.putTo (.own t) τ := by
  intro τ
  obtain ⟨a, hrun, hR⟩ := simulation.run h
  have hledger := dispatch_ledger (Machine.reachable_of_run τ hrun)
  refine ⟨fun hdone x hx => ?_, (dispatch_started hrun).1, fun q => ?_,
    dispatch_starts_sublist hrun, fun t => dispatch_startedFrom_prefix hrun (t := t) ?_⟩
  · rw [← hR.content_eq hdone]
    exact hledger.existsUnique ((hR.recorded x).mpr hx)
  · rw [dispatch_order hrun q]
    exact List.prefix_append ..
  · intro u x hx
    obtain ⟨s', lab, -, hmem⟩ := Machine.exists_of_mem_trace hx
    exact eq_of_take_own hmem

/-! ## Two threads and one shared queue -/

/-- One pool without local queues, the workers 0 and 1, and another thread. -/
def twoWorkers : Setup Unit Nat where
  worker t := if t < 2 then some () else none
  useLocal _ := false

/-- The workers take the tasks 0 and 1 from the shared queue, and worker 1 starts its
task first. -/
def overtaking : List (Label Unit Nat Nat) :=
  [.submit 2 () 0, .submit 2 () 1, .workerStart 0, .workerTest 0, .workerCall 0,
    .workerStart 1, .workerTest 1, .workerCall 1, .start 1, .start 0]

/-- Tasks taken from one queue need not be started in the order in which they were put
into it. -/
theorem overtaking_startsOutOfOrder :
    ¬ ∀ (ls : List (Label Unit Nat Nat)) (s : State Unit Nat Nat),
      (machine twoWorkers).run (machine twoWorkers).init ls = some s →
      (∀ p, s.done p = false) → ∀ q,
        (Dispatch.startedFrom q
          ((machine twoWorkers).trace (event twoWorkers) (machine twoWorkers).init ls)).Sublist
        (Dispatch.putTo q
          ((machine twoWorkers).trace (event twoWorkers) (machine twoWorkers).init ls)) := by
  intro h
  have hsub := h overtaking _ rfl (fun _ => rfl) (.shared ())
  have hnot : ¬ List.Sublist [1, 0] [0, 1] := by decide
  exact hnot hsub

theorem overtaking_conserved :
    ∃ s, (machine twoWorkers).run (machine twoWorkers).init overtaking = some s ∧
      (∃! e : Dispatch.Place (Queue Unit Nat) Nat × Nat, (s.content e.1)[e.2]? = some 1) ∧
      Dispatch.takenFrom (.shared ())
        ((machine twoWorkers).trace (event twoWorkers) (machine twoWorkers).init overtaking) <+:
        Dispatch.putTo (.shared ())
          ((machine twoWorkers).trace (event twoWorkers) (machine twoWorkers).init overtaking) := by
  obtain ⟨hplace, -, htaken, -⟩ := tasks_conserved twoWorkers overtaking _ rfl
  exact ⟨_, rfl, hplace (fun _ => rfl) 1 (fun hx => nomatch hx), htaken (.shared ())⟩

end Sundries.ThreadPool
