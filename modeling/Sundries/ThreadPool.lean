import Sundries.Dispatch

/-!
# `thread_pool`

Any number of thread pools, their worker threads and other threads that call
`submit` and `run_pending_task`.  A task is code of its own: while it runs, its
thread may submit tasks to any pool and call `run_pending_task` on any pool, and
that call may run a task inside the one that made it.

The pointer `_local_queue` is `static thread_local`: each thread has one, whatever
pool it works for, and it is null but in the workers of a pool with `_use_local`.
Both `submit` and `run_pending_task` look at the pointer of the thread they run on.

A step is one push or `try_pop` of a shared queue, with what the thread does to its
own local queue before; the start of a task; its end; or one step of the loop of
`worker_thread`.  The end of a worker destroys its local queue.
-/
namespace Sundries.ThreadPool

open Dispatch (Event)

/-- The pool each worker thread belongs to (other threads belong to none) and the
pools' argument `use_local`. -/
structure Setup (Pid Tid : Type) where
  worker : Tid → Option Pid
  useLocal : Pid → Bool

/-- Where tasks wait: `_queue` of a pool, or `_local_queue` of a thread. -/
inductive Queue (Pid Tid : Type) where
  | shared (p : Pid)
  | own (t : Tid)
  deriving DecidableEq

/-- A call of `run_pending_task` that has taken a task: the pool it is a call on, the
task, and the queue the task was in. -/
structure Call (Pid Tid Task : Type) where
  pool : Pid
  task : Task
  source : Queue Pid Tid
  deriving DecidableEq

/-- Where a thread is outside its tasks. -/
inductive Phase where
  /-- In code of its own: no worker. -/
  | client
  /-- Before `worker_thread`. -/
  | starting
  /-- At `while (!_done)`. -/
  | test
  /-- In the body of the loop. -/
  | call
  | exited
  deriving DecidableEq

/-- The pools' `_done` and `_queue`, and for each thread its `_local_queue`, its phase,
the call that is about to start its task, and the calls whose tasks it is running,
innermost first.  `submittedTo` and `finished` keep account; no step looks at
`finished`, and `submittedTo` only makes the names of tasks differ. -/
structure State (Pid Tid Task : Type) where
  done : Pid → Bool
  queue : Pid → List Task
  localQueue : Tid → Option (List Task)
  phase : Tid → Phase
  taken : Tid → Option (Call Pid Tid Task)
  running : Tid → List (Call Pid Tid Task)
  submittedTo : Task → Option Pid
  finished : List Task

/-- The steps; `destroy` is `_done = true` in `~thread_pool`. -/
inductive Label (Pid Tid Task : Type) where
  | submit (t : Tid) (p : Pid) (τ : Task)
  | runPendingTask (t : Tid) (p : Pid)
  | start (t : Tid)
  | finish (t : Tid)
  | workerStart (t : Tid)
  | workerTest (t : Tid)
  | workerCall (t : Tid)
  | destroy (p : Pid)
  deriving DecidableEq

variable {Pid Tid Task : Type}

namespace State

/-- Thread `t` runs a task, or code of its own if it is no worker. -/
def InUserCode (s : State Pid Tid Task) (t : Tid) : Prop :=
  s.taken t = none ∧ (s.running t ≠ [] ∨ s.phase t = .client)

/-- Thread `t` is in `worker_thread`, at `ph`. -/
def InLoop (s : State Pid Tid Task) (t : Tid) (ph : Phase) : Prop :=
  s.taken t = none ∧ s.running t = [] ∧ s.phase t = ph

instance (s : State Pid Tid Task) (t : Tid) : Decidable (s.InUserCode t) :=
  inferInstanceAs (Decidable (_ ∧ (_ ∨ _)))

instance (s : State Pid Tid Task) (t : Tid) (ph : Phase) : Decidable (s.InLoop t ph) :=
  inferInstanceAs (Decidable (_ ∧ _ ∧ _))

/-- The calls of `run_pending_task` on thread `t` that have taken a task and not
returned, innermost first. -/
def calls (s : State Pid Tid Task) (t : Tid) : List (Call Pid Tid Task) :=
  (s.taken t).toList ++ s.running t

/-- The queue that `submit` on the pool `p` uses when thread `t` calls it. -/
def queueFor (s : State Pid Tid Task) (t : Tid) (p : Pid) : Queue Pid Tid :=
  if (s.localQueue t).isSome then .own t else .shared p

/-- What `run_pending_task` on the pool `p` takes when thread `t` calls it, and from
where. -/
def pending (s : State Pid Tid Task) (t : Tid) (p : Pid) : Option (Queue Pid Tid × Task) :=
  match s.localQueue t with
  | some (τ :: _) => some (.own t, τ)
  | _ =>
    match s.queue p with
    | τ :: _ => some (.shared p, τ)
    | [] => none

/-- The places of the tasks. -/
def content (s : State Pid Tid Task) : Dispatch.Place (Queue Pid Tid) Tid → List Task
  | .queue (.shared p) => s.queue p
  | .queue (.own t) => (s.localQueue t).getD []
  | .hands t => (s.calls t).map Call.task
  | .finished => s.finished

variable [DecidableEq Pid] [DecidableEq Tid] [DecidableEq Task]

/-- `submit` of the task `τ` to the pool `p`. -/
def submit (s : State Pid Tid Task) (t : Tid) (p : Pid) (τ : Task) : State Pid Tid Task :=
  match s.localQueue t with
  | some q =>
    { s with
      localQueue := Function.update s.localQueue t (some (q ++ [τ]))
      submittedTo := Function.update s.submittedTo τ (some p) }
  | none =>
    { s with
      queue := Function.update s.queue p (s.queue p ++ [τ])
      submittedTo := Function.update s.submittedTo τ (some p) }

/-- `run_pending_task` on the pool `p`, up to the start of the task it takes. -/
def runPendingTask (s : State Pid Tid Task) (t : Tid) (p : Pid) : State Pid Tid Task :=
  match s.localQueue t with
  | some (τ :: q) =>
    { s with
      localQueue := Function.update s.localQueue t (some q)
      taken := Function.update s.taken t (some ⟨p, τ, .own t⟩) }
  | _ =>
    match s.queue p with
    | τ :: q =>
      { s with
        queue := Function.update s.queue p q
        taken := Function.update s.taken t (some ⟨p, τ, .shared p⟩) }
    | [] => s

/-- `task()`. -/
def start (s : State Pid Tid Task) (t : Tid) (c : Call Pid Tid Task) : State Pid Tid Task :=
  { s with
    taken := Function.update s.taken t none
    running := Function.update s.running t (c :: s.running t) }

/-- The task of the innermost call ends, and the call returns. -/
def finish (s : State Pid Tid Task) (t : Tid) (c : Call Pid Tid Task)
    (outer : List (Call Pid Tid Task)) : State Pid Tid Task :=
  { s with running := Function.update s.running t outer, finished := c.task :: s.finished }

/-- `if (_use_local) _local_queue.reset(new local_queue_type)`. -/
def workerStart (s : State Pid Tid Task) (t : Tid) (useLocal : Bool) : State Pid Tid Task :=
  { s with
    localQueue := Function.update s.localQueue t (if useLocal then some [] else s.localQueue t)
    phase := Function.update s.phase t .test }

/-- `while (!_done)`. -/
def workerTest (s : State Pid Tid Task) (t : Tid) (p : Pid) : State Pid Tid Task :=
  if s.done p then
    { s with
      localQueue := Function.update s.localQueue t none
      phase := Function.update s.phase t .exited }
  else { s with phase := Function.update s.phase t .call }

/-- The call in the loop of `worker_thread`. -/
def workerCall (s : State Pid Tid Task) (t : Tid) (p : Pid) : State Pid Tid Task :=
  { s with phase := Function.update s.phase t .test }.runPendingTask t p

end State

variable [DecidableEq Pid] [DecidableEq Tid] [DecidableEq Task]

/-- The pools and the threads. -/
def machine (setup : Setup Pid Tid) : Machine (State Pid Tid Task) (Label Pid Tid Task) where
  init :=
    { done := fun _ => false
      queue := fun _ => []
      localQueue := fun _ => none
      phase := fun t => if (setup.worker t).isSome then .starting else .client
      taken := fun _ => none
      running := fun _ => []
      submittedTo := fun _ => none
      finished := [] }
  step s
    | .submit t p τ =>
      if s.InUserCode t ∧ s.submittedTo τ = none then some (s.submit t p τ) else none
    | .runPendingTask t p => if s.InUserCode t then some (s.runPendingTask t p) else none
    | .start t =>
      match s.taken t with
      | some c => some (s.start t c)
      | none => none
    | .finish t =>
      match s.taken t, s.running t with
      | none, c :: outer => some (s.finish t c outer)
      | _, _ => none
    | .workerStart t =>
      match setup.worker t with
      | some p => if s.InLoop t .starting then some (s.workerStart t (setup.useLocal p)) else none
      | none => none
    | .workerTest t =>
      match setup.worker t with
      | some p => if s.InLoop t .test then some (s.workerTest t p) else none
      | none => none
    | .workerCall t =>
      match setup.worker t with
      | some p => if s.InLoop t .call then some (s.workerCall t p) else none
      | none => none
    | .destroy p => some { s with done := Function.update s.done p true }

/-- What a step does to a task. -/
def event (setup : Setup Pid Tid) (s : State Pid Tid Task) :
    Label Pid Tid Task → List (Event (Queue Pid Tid) Tid Task)
  | .submit t p τ => [.put (s.queueFor t p) τ]
  | .runPendingTask t p => (s.pending t p).toList.map fun e => .take t e.1 e.2
  | .workerCall t =>
    match setup.worker t with
    | some p => (s.pending t p).toList.map fun e => .take t e.1 e.2
    | none => []
  | .start t => (s.taken t).toList.map fun c => .start t c.source c.task
  | .finish t => (s.running t).head?.toList.map fun c => .finish t c.task
  | .workerStart _ | .workerTest _ | .destroy _ => []

/-! ## What the steps do -/

section Steps
variable {setup : Setup Pid Tid} {s s' : State Pid Tid Task} {t : Tid} {p : Pid}

theorem submit_shared {τ : Task} (hl : s.localQueue t = none) :
    s.submit t p τ =
      { s with
        queue := Function.update s.queue p (s.queue p ++ [τ])
        submittedTo := Function.update s.submittedTo τ (some p) } := by
  simp [State.submit, hl]

theorem submit_own {τ : Task} {q : List Task} (hl : s.localQueue t = some q) :
    s.submit t p τ =
      { s with
        localQueue := Function.update s.localQueue t (some (q ++ [τ]))
        submittedTo := Function.update s.submittedTo τ (some p) } := by
  simp [State.submit, hl]

omit [DecidableEq Task] in
/-- `run_pending_task` finds nothing, takes a task from the thread's own queue, or,
that being null or empty, one from the pool's. -/
theorem runPendingTask_cases (s : State Pid Tid Task) (t : Tid) (p : Pid) :
    (s.pending t p = none ∧ s.runPendingTask t p = s) ∨
      (∃ τ q, s.localQueue t = some (τ :: q) ∧ s.pending t p = some (.own t, τ) ∧
        s.runPendingTask t p =
          { s with
            localQueue := Function.update s.localQueue t (some q)
            taken := Function.update s.taken t (some ⟨p, τ, .own t⟩) }) ∨
      ∃ τ q, s.queue p = τ :: q ∧ s.pending t p = some (.shared p, τ) ∧
        s.runPendingTask t p =
          { s with
            queue := Function.update s.queue p q
            taken := Function.update s.taken t (some ⟨p, τ, .shared p⟩) } := by
  have hshared : (∀ τ q, s.localQueue t ≠ some (τ :: q)) →
      (s.pending t p = none ∧ s.runPendingTask t p = s) ∨
        ∃ τ q, s.queue p = τ :: q ∧ s.pending t p = some (.shared p, τ) ∧
          s.runPendingTask t p =
            { s with
              queue := Function.update s.queue p q
              taken := Function.update s.taken t (some ⟨p, τ, .shared p⟩) } := by
    intro hlocal
    cases hq : s.queue p with
    | nil => exact Or.inl ⟨by simp [State.pending, hq], by simp [State.runPendingTask, hq]⟩
    | cons τ q =>
      exact Or.inr ⟨τ, q, rfl, by simp [State.pending, hq], by simp [State.runPendingTask, hq]⟩
  rcases hl : s.localQueue t with - | (- | ⟨τ, q⟩)
  · exact (hshared (by simp [hl])).imp_right Or.inr
  · exact (hshared (by simp [hl])).imp_right Or.inr
  · exact Or.inr (Or.inl ⟨τ, q, rfl, by simp [State.pending, hl],
      by simp [State.runPendingTask, hl]⟩)

/-- What each step asks of the state, and where it leads. -/
inductive Moves (setup : Setup Pid Tid) (s : State Pid Tid Task) :
    Label Pid Tid Task → State Pid Tid Task → Prop
  | submit (t : Tid) (p : Pid) (τ : Task) (hu : s.InUserCode t) (hτ : s.submittedTo τ = none) :
    Moves setup s (.submit t p τ) (s.submit t p τ)
  | runPendingTask (t : Tid) (p : Pid) (hu : s.InUserCode t) :
    Moves setup s (.runPendingTask t p) (s.runPendingTask t p)
  | start (t : Tid) (c : Call Pid Tid Task) (hc : s.taken t = some c) :
    Moves setup s (.start t) (s.start t c)
  | finish (t : Tid) (c : Call Pid Tid Task) (outer : List (Call Pid Tid Task))
    (ht : s.taken t = none) (hr : s.running t = c :: outer) :
    Moves setup s (.finish t) (s.finish t c outer)
  | workerStart (t : Tid) (p : Pid) (hw : setup.worker t = some p) (hin : s.InLoop t .starting) :
    Moves setup s (.workerStart t) (s.workerStart t (setup.useLocal p))
  | workerTest (t : Tid) (p : Pid) (hw : setup.worker t = some p) (hin : s.InLoop t .test) :
    Moves setup s (.workerTest t) (s.workerTest t p)
  | workerCall (t : Tid) (p : Pid) (hw : setup.worker t = some p) (hin : s.InLoop t .call) :
    Moves setup s (.workerCall t) (s.workerCall t p)
  | destroy (p : Pid) : Moves setup s (.destroy p) { s with done := Function.update s.done p true }

theorem moves_of_step {lab : Label Pid Tid Task} (hstep : (machine setup).step s lab = some s') :
    Moves setup s lab s' := by
  cases lab with
  | submit t p τ =>
    simp only [machine, Option.ite_none_right_eq_some, Option.some.injEq] at hstep
    obtain ⟨⟨hu, hτ⟩, rfl⟩ := hstep
    exact .submit t p τ hu hτ
  | runPendingTask t p =>
    simp only [machine, Option.ite_none_right_eq_some, Option.some.injEq] at hstep
    obtain ⟨hu, rfl⟩ := hstep
    exact .runPendingTask t p hu
  | start t =>
    simp only [machine] at hstep
    split at hstep
    · next c hc =>
      cases hstep
      exact .start t c hc
    · cases hstep
  | finish t =>
    simp only [machine] at hstep
    split at hstep
    · next c outer ht hr =>
      cases hstep
      exact .finish t c outer ht hr
    · cases hstep
  | workerStart t =>
    simp only [machine] at hstep
    split at hstep
    · next p hw =>
      simp only [Option.ite_none_right_eq_some, Option.some.injEq] at hstep
      obtain ⟨hloop, rfl⟩ := hstep
      exact .workerStart t p hw hloop
    · cases hstep
  | workerTest t =>
    simp only [machine] at hstep
    split at hstep
    · next p hw =>
      simp only [Option.ite_none_right_eq_some, Option.some.injEq] at hstep
      obtain ⟨hloop, rfl⟩ := hstep
      exact .workerTest t p hw hloop
    · cases hstep
  | workerCall t =>
    simp only [machine] at hstep
    split at hstep
    · next p hw =>
      simp only [Option.ite_none_right_eq_some, Option.some.injEq] at hstep
      obtain ⟨hloop, rfl⟩ := hstep
      exact .workerCall t p hw hloop
    · cases hstep
  | destroy p =>
    simp only [machine, Option.some.injEq] at hstep
    subst hstep
    exact .destroy p

/-- What holds of the threads themselves: only a worker that has started and not
ended has a local queue, and a worker ends, outside all calls, after its pool is
destroyed. -/
structure Threads (setup : Setup Pid Tid) (s : State Pid Tid Task) : Prop where
  client : ∀ t, s.phase t = .client ↔ setup.worker t = none
  owner : ∀ t, s.localQueue t ≠ none →
    setup.worker t ≠ none ∧ s.phase t ≠ .starting ∧ s.phase t ≠ .exited
  exited : ∀ t, s.phase t = .exited →
    s.taken t = none ∧ s.running t = [] ∧ ∃ p, setup.worker t = some p ∧ s.done p = true

namespace Threads

omit [DecidableEq Pid] [DecidableEq Tid] [DecidableEq Task] in
theorem not_exited (h : Threads setup s) (hu : s.InUserCode t) : s.phase t ≠ .exited := by
  intro hex
  obtain ⟨-, hrunning, -⟩ := h.exited t hex
  rcases hu.2 with hr | hc
  · exact hr hrunning
  · rw [hex] at hc
    cases hc

omit [DecidableEq Pid] [DecidableEq Tid] [DecidableEq Task] in
/-- The threads stay in their phases. -/
theorem congr (h : Threads setup s) (hphase : s'.phase = s.phase)
    (hdone : ∀ p, s.done p = true → s'.done p = true)
    (hlocal : ∀ t, s'.localQueue t ≠ none → s.localQueue t ≠ none)
    (hexited : ∀ t, s.phase t = .exited → s'.taken t = s.taken t ∧ s'.running t = s.running t) :
    Threads setup s' where
  client t := by rw [hphase]; exact h.client t
  owner t ht := by rw [hphase]; exact h.owner t (hlocal t ht)
  exited t ht := by
    rw [hphase] at ht
    obtain ⟨htaken, hrunning⟩ := hexited t ht
    obtain ⟨hnone, hnil, p, hp, hd⟩ := h.exited t ht
    exact ⟨htaken.trans hnone, hrunning.trans hnil, p, hp, hdone p hd⟩

omit [DecidableEq Pid] [DecidableEq Task] in
/-- A worker goes on in its loop. -/
theorem loop (h : Threads setup s) {ph : Phase} (hw : setup.worker t = some p)
    (hph : ph = .test ∨ ph = .call) :
    Threads setup { s with phase := Function.update s.phase t ph } where
  client u := by
    by_cases hu : u = t
    · subst u
      rcases hph with rfl | rfl <;> simp [hw]
    · simpa [hu] using h.client u
  owner u hl := by
    by_cases hu : u = t
    · subst u
      rcases hph with rfl | rfl <;> simp [hw]
    · simpa [hu] using h.owner u hl
  exited u hx := by
    by_cases hu : u = t
    · subst u
      rcases hph with rfl | rfl <;> simp at hx
    · exact h.exited u (by simpa [hu] using hx)

omit [DecidableEq Task] in
/-- A thread that has not ended calls `run_pending_task`. -/
theorem runPendingTask (h : Threads setup s) (hx : s.phase t ≠ .exited) :
    Threads setup (s.runPendingTask t p) := by
  have hne : ∀ u, s.phase u = .exited → u ≠ t := fun u hu he => hx (he ▸ hu)
  rcases runPendingTask_cases s t p with ⟨-, hs⟩ | ⟨τ, q, hl, -, hs⟩ | ⟨τ, q, -, -, hs⟩
  · rw [hs]
    exact h
  · rw [hs]
    refine h.congr rfl (fun _ hp => hp) (fun u hu => ?_) fun u hu => by simp [hne u hu]
    by_cases hut : u = t
    · subst u
      simp [hl]
    · simpa [hut] using hu
  · rw [hs]
    exact h.congr rfl (fun _ hp => hp) (fun _ hu => hu) fun u hu => by simp [hne u hu]

theorem init : Threads setup (machine setup : Machine (State Pid Tid Task) _).init where
  client t := by
    cases hw : setup.worker t <;> simp [machine, hw]
  owner t ht := absurd rfl ht
  exited t ht := by
    cases hw : setup.worker t <;> simp [machine, hw] at ht

theorem step (h : Threads setup s) {lab : Label Pid Tid Task}
    (hstep : (machine setup).step s lab = some s') : Threads setup s' := by
  cases moves_of_step hstep with
  | submit t p τ hu hτ =>
    cases hl : s.localQueue t with
    | none =>
      rw [submit_shared hl]
      exact h.congr rfl (fun _ hp => hp) (fun _ hu => hu) fun _ _ => ⟨rfl, rfl⟩
    | some q =>
      rw [submit_own hl]
      refine h.congr rfl (fun _ hp => hp) (fun u hu => ?_) fun _ _ => ⟨rfl, rfl⟩
      by_cases hut : u = t
      · subst u
        simp [hl]
      · simpa [hut] using hu
  | runPendingTask t p hu => exact h.runPendingTask (h.not_exited hu)
  | start t c hc =>
    refine h.congr rfl (fun _ hp => hp) (fun _ hu => hu) fun u hu => ?_
    have hut : u ≠ t := by
      rintro rfl
      simp [(h.exited u hu).1] at hc
    simp [State.start, hut]
  | finish t c outer ht hr =>
    refine h.congr rfl (fun _ hp => hp) (fun _ hu => hu) fun u hu => ?_
    have hut : u ≠ t := by
      rintro rfl
      simp [(h.exited u hu).2.1] at hr
    simp [State.finish, hut]
  | workerStart t p hw hin =>
    refine ⟨fun u => ?_, fun u hl => ?_, fun u hx => ?_⟩
    · by_cases hu : u = t
      · subst u
        simp [State.workerStart, hw]
      · simpa [State.workerStart, hu] using h.client u
    · by_cases hu : u = t
      · subst u
        simp [State.workerStart, hw]
      · simpa [State.workerStart, hu] using h.owner u (by simpa [State.workerStart, hu] using hl)
    · by_cases hu : u = t
      · subst u
        simp [State.workerStart] at hx
      · exact h.exited u (by simpa [State.workerStart, hu] using hx)
  | workerTest t p hw hin =>
    obtain ⟨htaken, hrunning, -⟩ := hin
    by_cases hd : s.done p = true
    · rw [State.workerTest, if_pos hd]
      refine ⟨fun u => ?_, fun u hl => ?_, fun u hx => ?_⟩
      · by_cases hu : u = t
        · subst u
          simp [hw]
        · simpa [hu] using h.client u
      · by_cases hu : u = t
        · subst u
          simp at hl
        · simpa [hu] using h.owner u (by simpa [hu] using hl)
      · by_cases hu : u = t
        · subst u
          exact ⟨htaken, hrunning, p, hw, hd⟩
        · exact h.exited u (by simpa [hu] using hx)
    · rw [State.workerTest, if_neg hd]
      exact h.loop hw (Or.inr rfl)
  | workerCall t p hw hin => exact (h.loop hw (Or.inl rfl)).runPendingTask (by simp)
  | destroy p =>
    refine h.congr rfl (fun q hq => ?_) (fun _ hu => hu) fun _ _ => ⟨rfl, rfl⟩
    by_cases hqp : q = p <;> simp [hqp, hq]

end Threads
end Steps
end Sundries.ThreadPool
