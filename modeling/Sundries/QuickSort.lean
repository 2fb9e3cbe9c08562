import Mathlib.Logic.Function.Basic
import Mathlib.Order.Defs.Unbundled
import Sundries.Machine

/-!
# `parallel_quick_sort_using_tp`

`do_sort` takes the first element of its chunk as the pivot, partitions the rest, submits
the lower part as a task to the pool, sorts the higher part by recursion and then polls the
future of the lower part; between two polls it calls `run_pending_task`, which runs a task
from the shared queue on top of the waiting `do_sort`.  The workers of the pool run tasks
in a loop until `~thread_pool` sets `_done`.

Thread `0` calls `parallel_quick_sort_using_tp`; the workers are the threads `1` to
`workers`, perhaps none.  A thread has the activations of `do_sort` on its stack, the
running one first.  A step is one statement of `do_sort`, one `wait_for`, one `try_pop`
with the call of the task it takes, or one test of `_done`.  `do_sort` has its chunk by
reference: what a call leaves of it is in the caller's `chunk` once it has returned.
`std::partition` may rearrange the chunk in any way that puts the elements less than the
pivot first.
-/
namespace Sundries.QuickSort

abbrev Tid := ℕ

/-- A submitted sub-sort: the number of its future and the list bound to it. -/
structure Task (A : Type) where
  id : ℕ
  chunk : List A
  deriving DecidableEq

/-- What has called `do_sort`: `parallel_quick_sort_using_tp`, `do_sort` itself, or a task
that `run_pending_task` runs. -/
inductive Caller where
  | sort
  | doSort
  | task (id : ℕ)
  deriving DecidableEq

/-- The statement of `do_sort` that comes next. -/
inductive Pc where
  /-- `if (chunk.empty())`, and else the splice of the pivot. -/
  | entry
  | partition
  /-- The splice into `new_lower_chunk`. -/
  | lower
  | submit
  | recurse
  /-- In the recursive call. -/
  | higher
  | spliceHigher
  /-- At `wait_for`. -/
  | poll
  | runPending
  /-- In a task run by `run_pending_task`. -/
  | running
  /-- The splice of `new_lower.get()`. -/
  | get
  | ret
  deriving DecidableEq

/-- An activation of `do_sort` with its variables; `new_lower` is the number of a future.
`given` is the list it was called with and `start` the time of the call; both only keep
account. -/
structure Frame (A : Type) where
  caller : Caller
  pc : Pc
  chunk : List A
  result : List A
  dividePoint : ℕ
  newLowerChunk : List A
  newLower : Option ℕ
  newHigher : List A
  given : List A
  start : ℕ
  deriving DecidableEq

/-- `do_sort(chunk)`, called by `caller`. -/
def Frame.enter {A : Type} (caller : Caller) (chunk : List A) (start : ℕ) : Frame A :=
  { caller := caller, pc := .entry, chunk := chunk, result := [], dividePoint := 0,
    newLowerChunk := [], newLower := none, newHigher := [], given := chunk, start := start }

/-- Where `parallel_quick_sort_using_tp` is: it returns `result` after `~thread_pool`, which
joins the workers, the thread `k` next. -/
inductive Main (A : Type) where
  | begin
  | sorting
  | destroying (result : List A)
  | joining (result : List A) (k : Tid)
  | returned (result : List A)
  deriving DecidableEq

/-- Where `worker_thread` is; a worker in `call` may be running a task. -/
inductive Worker where
  | absent
  | test
  | call
  | exited
  deriving DecidableEq

/-- The pool's `_done` and `_queue`, the values of the futures that are ready, and the
threads.  The lists submitted so far, which give the futures their numbers, and the number
of calls of `do_sort` keep account. -/
structure State (A : Type) where
  main : Main A
  done : Bool
  queue : List (Task A)
  futures : ℕ → Option (List A)
  stack : Tid → List (Frame A)
  worker : Tid → Worker
  submitted : List (List A)
  clock : ℕ

/-- The steps; `partition t low high` is the `std::partition` on thread `t` that leaves `low`
before the divide point and `high` behind it. -/
inductive Label (A : Type) where
  | main
  | next (t : Tid)
  | partition (t : Tid) (low high : List A)
  | worker (t : Tid)
  deriving DecidableEq

variable {A : Type}

/-- The thread that takes the step. -/
def Label.owner : Label A → Tid
  | .main => 0
  | .next t => t
  | .partition t _ _ => t
  | .worker t => t

namespace State

def setStack (s : State A) (t : Tid) (fs : List (Frame A)) : State A :=
  { s with stack := Function.update s.stack t fs }

/-- A call of `do_sort` on thread `t`, above the activations `below`. -/
def call (s : State A) (t : Tid) (below : List (Frame A)) (caller : Caller) (chunk : List A) :
    State A :=
  { s with
    stack := Function.update s.stack t (.enter caller chunk s.clock :: below)
    clock := s.clock + 1 }

/-- The activation `f` on thread `t` returns `r`. -/
def ret (s : State A) (t : Tid) (f : Frame A) (below : List (Frame A)) (r : List A) :
    Option (State A) :=
  match f.caller, below with
  | .sort, _ => some { s.setStack t below with main := .destroying r }
  | .doSort, g :: rest =>
    some (s.setStack t ({ g with pc := .spliceHigher, chunk := f.chunk, newHigher := r } :: rest))
  | .doSort, [] => none
  | .task id, g :: rest =>
    some { s.setStack t ({ g with pc := .poll } :: rest) with
      futures := Function.update s.futures id (some r) }
  | .task id, [] =>
    some { s.setStack t [] with
      futures := Function.update s.futures id (some r)
      worker := Function.update s.worker t .test }

/-- The next statement of the activation `f` of `do_sort`, which runs on thread `t`. -/
def doSort (s : State A) (t : Tid) (f : Frame A) (below : List (Frame A)) : Option (State A) :=
  match f.pc with
  | .entry =>
    match f.chunk with
    | [] => s.ret t f below f.chunk
    | pivot :: chunk =>
      some (s.setStack t
        ({ f with pc := .partition, chunk := chunk, result := pivot :: f.result } :: below))
  | .lower =>
    some (s.setStack t ({ f with
      pc := .submit
      chunk := f.chunk.drop f.dividePoint
      newLowerChunk := f.newLowerChunk ++ f.chunk.take f.dividePoint } :: below))
  | .submit =>
    let id := s.submitted.length
    some { s.setStack t ({ f with
        pc := .recurse, newLowerChunk := [], newLower := some id } :: below) with
      queue := s.queue ++ [⟨id, f.newLowerChunk⟩]
      submitted := s.submitted ++ [f.newLowerChunk] }
  | .recurse => some (s.call t ({ f with pc := .higher } :: below) .doSort f.chunk)
  | .spliceHigher =>
    some (s.setStack t ({ f with
      pc := .poll, result := f.result ++ f.newHigher, newHigher := [] } :: below))
  | .poll =>
    match f.newLower with
    | some id =>
      if (s.futures id).isSome then some (s.setStack t ({ f with pc := .get } :: below))
      else some (s.setStack t ({ f with pc := .runPending } :: below))
    | none => none
  | .runPending =>
    match s.queue with
    | [] => some (s.setStack t ({ f with pc := .poll } :: below))
    | task :: q =>
      some ({ s with queue := q }.call t ({ f with pc := .running } :: below) (.task task.id)
        task.chunk)
  | .get =>
    match f.newLower.bind s.futures with
    | some lower =>
      some (s.setStack t ({ f with
        pc := .ret, result := lower ++ f.result, newLower := none } :: below))
    | none => none
  | .ret => s.ret t f below f.result
  | .partition | .higher | .running => none

/-- A step of the loop of `worker_thread`, with `run_pending_task` up to the call of the task. -/
def workerThread (s : State A) (t : Tid) : Option (State A) :=
  match s.worker t with
  | .test =>
    some { s with worker := Function.update s.worker t (if s.done then .exited else .call) }
  | .call =>
    match s.queue with
    | [] => some { s with worker := Function.update s.worker t .test }
    | task :: q => some ({ s with queue := q }.call t [] (.task task.id) task.chunk)
  | .absent | .exited => none

/-- A step of `parallel_quick_sort_using_tp`: the test for an empty input, the construction of
the pool with the call of `do_sort`, and the steps of `~thread_pool`. -/
def quickSort (workers : ℕ) (input : List A) (s : State A) : Option (State A) :=
  match s.main with
  | .begin =>
    if input.isEmpty then some { s with main := .returned input }
    else
      some ({ s with
        main := .sorting
        worker := fun t => if 0 < t ∧ t ≤ workers then .test else .absent }.call 0 [] .sort input)
  | .destroying r => some { s with main := .joining r 1, done := true }
  | .joining r k =>
    if k ≤ workers then
      if s.worker k = .exited then some { s with main := .joining r (k + 1) } else none
    else some { s with main := .returned r }
  | .sorting | .returned _ => none

/-- What `std::partition` guarantees for the pivot `p`. -/
def Partitioned [LT A] (p : A) (low high chunk : List A) : Prop :=
  (low ++ high).Perm chunk ∧ (∀ x ∈ low, x < p) ∧ ∀ y ∈ high, ¬ y < p

instance [LT A] [DecidableEq A] [DecidableLT A] (p : A) (low high chunk : List A) :
    Decidable (Partitioned p low high chunk) :=
  inferInstanceAs (Decidable (_ ∧ _ ∧ _))

/-- The `std::partition` of the activation `f`. -/
def partition [LT A] [DecidableEq A] [DecidableLT A] (s : State A) (t : Tid) (f : Frame A)
    (below : List (Frame A)) (low high : List A) : Option (State A) :=
  match f.pc, f.result with
  | .partition, pivot :: _ =>
    if Partitioned pivot low high f.chunk then
      some (s.setStack t ({ f with
        pc := .lower, chunk := low ++ high, dividePoint := low.length } :: below))
    else none
  | _, _ => none

end State

/-- `parallel_quick_sort_using_tp(input)` with a pool of so many workers. -/
def machine [LT A] [DecidableEq A] [DecidableLT A] (workers : ℕ) (input : List A) :
    Machine (State A) (Label A) where
  init :=
    { main := .begin
      done := false
      queue := []
      futures := fun _ => none
      stack := fun _ => []
      worker := fun _ => .absent
      submitted := []
      clock := 0 }
  step s
    | .main => s.quickSort workers input
    | .next t =>
      match s.stack t with
      | f :: below => s.doSort t f below
      | [] => none
    | .partition t low high =>
      match s.stack t with
      | f :: below => s.partition t f below low high
      | [] => none
    | .worker t =>
      match s.stack t with
      | [] => s.workerThread t
      | _ :: _ => none

variable [LT A]

/-! ## What the activations have in their variables -/

/-- `r` has the elements of `l`, and if `<` is a strict order none of them is less than an
earlier one. -/
def Sorts (r l : List A) : Prop :=
  r.Perm l ∧ (IsStrictOrder A (· < ·) → r.Pairwise fun x y => ¬ y < x)

theorem Sorts.nil : Sorts ([] : List A) [] := ⟨.refl _, fun _ => .nil⟩

/-- Everything behind an element of the lower part may stand behind it. -/
theorem Sorts.splice {p : A} {lower low hs high rest given : List A} (hlower : Sorts lower low)
    (hhigher : Sorts hs high) (hparts : State.Partitioned p low high rest)
    (hgiven : (p :: rest).Perm given) : Sorts (lower ++ p :: hs) given := by
  obtain ⟨hrest, hlow, hhigh⟩ := hparts
  constructor
  · calc (lower ++ p :: hs).Perm (p :: (lower ++ hs)) := List.perm_middle
      _ |>.Perm (p :: (low ++ high)) := (hlower.1.append hhigher.1).cons p
      _ |>.Perm (p :: rest) := hrest.cons p
      _ |>.Perm given := hgiven
  · intro hstrict
    have hlow' : ∀ x ∈ lower, x < p := fun x hx => hlow x (hlower.1.mem_iff.mp hx)
    have hhigh' : ∀ y ∈ hs, ¬ y < p := fun y hy => hhigh y (hhigher.1.mem_iff.mp hy)
    refine List.pairwise_append.mpr ⟨hlower.2 hstrict,
      List.pairwise_cons.mpr ⟨hhigh', hhigher.2 hstrict⟩, fun x hx y hy hlt => ?_⟩
    rcases List.mem_cons.mp hy with rfl | hy
    · exact irrefl x (IsTrans.trans x y x (hlow' x hx) hlt)
    · exact hhigh' y hy (IsTrans.trans y x p hlt (hlow' x hx))

/-- The lower part was submitted; with the pivot `p` and the part `high` it is what the
activation was given. -/
def Split (s : State A) (f : Frame A) (p : A) (high : List A) : Prop :=
  ∃ id low rest, f.newLower = some id ∧ s.submitted[id]? = some low ∧
    State.Partitioned p low high rest ∧ (p :: rest).Perm f.given

/-- What the variables of an activation hold at each statement. -/
def FrameOk (s : State A) (f : Frame A) : Prop :=
  match f.pc with
  | .entry => f.chunk = f.given ∧ f.result = [] ∧ f.newLowerChunk = []
  | .partition => f.newLowerChunk = [] ∧ ∃ p, f.result = [p] ∧ (p :: f.chunk).Perm f.given
  | .lower =>
    f.newLowerChunk = [] ∧ ∃ p rest, f.result = [p] ∧ (p :: rest).Perm f.given ∧
      State.Partitioned p (f.chunk.take f.dividePoint) (f.chunk.drop f.dividePoint) rest
  | .submit =>
    ∃ p rest, f.result = [p] ∧ (p :: rest).Perm f.given ∧
      State.Partitioned p f.newLowerChunk f.chunk rest
  | .recurse | .higher => ∃ p, f.result = [p] ∧ Split s f p f.chunk
  | .spliceHigher => ∃ p high, f.result = [p] ∧ Split s f p high ∧ Sorts f.newHigher high
  | .poll | .runPending | .running =>
    ∃ p high hs, f.result = p :: hs ∧ Split s f p high ∧ Sorts hs high
  | .get =>
    (∃ p high hs, f.result = p :: hs ∧ Split s f p high ∧ Sorts hs high) ∧
      ∃ id, f.newLower = some id ∧ (s.futures id).isSome
  | .ret => Sorts f.result f.given

/-- What an activation was given, by what called it. -/
def CallerOk (input : List A) (s : State A) (f : Frame A) : Prop :=
  match f.caller with
  | .sort => f.given = input
  | .doSort => True
  | .task id => s.submitted[id]? = some f.given

/-- Later states have more submitted tasks and more futures that are ready. -/
structure Grows (s s' : State A) : Prop where
  submitted : ∀ (id : ℕ) (l : List A),
    s.submitted[id]? = some l → s'.submitted[id]? = some l
  futures : ∀ id, (s.futures id).isSome → (s'.futures id).isSome

section Grows
variable {s s' : State A} {f : Frame A} (g : Grows s s')
include g

theorem Split.mono {p : A} {high : List A} (h : Split s f p high) : Split s' f p high := by
  obtain ⟨id, low, rest, hid, hlow, hrest⟩ := h
  exact ⟨id, low, rest, hid, g.submitted id low hlow, hrest⟩

theorem FrameOk.mono (h : FrameOk s f) : FrameOk s' f := by
  unfold FrameOk at h ⊢
  cases hpc : f.pc with
  | entry | partition | lower | submit | ret =>
    simp only [hpc] at h ⊢
    exact h
  | recurse | higher =>
    simp only [hpc] at h ⊢
    obtain ⟨p, hp, hsplit⟩ := h
    exact ⟨p, hp, hsplit.mono g⟩
  | spliceHigher =>
    simp only [hpc] at h ⊢
    obtain ⟨p, high, hp, hsplit, hsorts⟩ := h
    exact ⟨p, high, hp, hsplit.mono g, hsorts⟩
  | poll | runPending | running =>
    simp only [hpc] at h ⊢
    obtain ⟨p, high, hs, hp, hsplit, hsorts⟩ := h
    exact ⟨p, high, hs, hp, hsplit.mono g, hsorts⟩
  | get =>
    simp only [hpc] at h ⊢
    obtain ⟨⟨p, high, hs, hp, hsplit, hsorts⟩, id, hid, hready⟩ := h
    exact ⟨⟨p, high, hs, hp, hsplit.mono g, hsorts⟩, id, hid, g.futures id hready⟩

omit [LT A] in
theorem CallerOk.mono {input : List A} (h : CallerOk input s f) : CallerOk input s' f := by
  unfold CallerOk at h ⊢
  cases hcaller : f.caller with
  | sort =>
    simp only [hcaller] at h ⊢
    exact h
  | doSort => trivial
  | task id =>
    simp only [hcaller] at h ⊢
    exact g.submitted id _ h

end Grows

/-! ## The stacks -/

section Stacks
omit [LT A]

/-- `child` stands right above `parent`, which waits for it, and was called later. -/
def Calls (child parent : Frame A) : Prop :=
  parent.start < child.start ∧
    match child.caller with
    | .sort => False
    | .doSort => parent.pc = .higher ∧ child.given = parent.chunk
    | .task _ => parent.pc = .running

/-- What an activation at the bottom of the stack of `t` was called by. -/
def Bottom (t : Tid) (f : Frame A) : Prop :=
  if t = 0 then f.caller = .sort else ∃ id, f.caller = .task id

def StackOk (t : Tid) : List (Frame A) → Prop
  | [] => True
  | [f] => Bottom t f
  | f :: g :: rest => Calls f g ∧ StackOk t (g :: rest)

/-- The activation neither is in the recursive call nor runs a task. -/
def OnTop (f : Frame A) : Prop := f.pc ≠ .higher ∧ f.pc ≠ .running

theorem StackOk.tail {t : Tid} {f : Frame A} {below : List (Frame A)}
    (h : StackOk t (f :: below)) : StackOk t below := by
  cases below with
  | nil => trivial
  | cons g rest => exact h.2

/-- What the running activation has in its variables does not matter below it. -/
theorem StackOk.setTop {t : Tid} {f f' : Frame A} {below : List (Frame A)}
    (h : StackOk t (f :: below)) (hcaller : f'.caller = f.caller) (hgiven : f'.given = f.given)
    (hstart : f'.start = f.start) : StackOk t (f' :: below) := by
  cases below with
  | nil =>
    unfold StackOk Bottom at h ⊢
    rwa [hcaller]
  | cons g rest =>
    obtain ⟨hcalls, hrest⟩ := h
    refine ⟨?_, hrest⟩
    unfold Calls at hcalls ⊢
    rwa [hcaller, hgiven, hstart]

/-- Further up activations were called later. -/
theorem StackOk.start_le {t : Tid} {f g : Frame A} {below : List (Frame A)}
    (h : StackOk t (f :: below)) (hg : g ∈ f :: below) : g.start ≤ f.start := by
  induction below generalizing f with
  | nil =>
    exact Nat.le_of_eq (congrArg Frame.start (List.mem_singleton.mp hg))
  | cons f' rest ih =>
    rcases List.mem_cons.mp hg with rfl | hg
    · exact Nat.le_refl _
    · exact Nat.le_trans (ih h.2 hg) (Nat.le_of_lt h.1.1)

/-- Only the first activation was called by `parallel_quick_sort_using_tp`. -/
theorem StackOk.of_sort {t : Tid} {f : Frame A} {below : List (Frame A)}
    (h : StackOk t (f :: below)) (hcaller : f.caller = .sort) : t = 0 ∧ below = [] := by
  cases below with
  | nil =>
    unfold StackOk Bottom at h
    split at h
    · next ht => exact ⟨ht, rfl⟩
    · obtain ⟨id, hid⟩ := h
      cases hcaller.symm.trans hid
  | cons g rest =>
    have hcalls := h.1
    unfold Calls at hcalls
    rw [hcaller] at hcalls
    exact hcalls.2.elim

theorem StackOk.of_doSort {t : Tid} {f : Frame A} {below : List (Frame A)}
    (h : StackOk t (f :: below)) (hcaller : f.caller = .doSort) :
    ∃ g rest, below = g :: rest ∧ g.pc = .higher ∧ f.given = g.chunk := by
  cases below with
  | nil =>
    unfold StackOk Bottom at h
    split at h
    · cases hcaller.symm.trans h
    · obtain ⟨id, hid⟩ := h
      cases hcaller.symm.trans hid
  | cons g rest =>
    have hcalls := h.1
    unfold Calls at hcalls
    rw [hcaller] at hcalls
    exact ⟨g, rest, rfl, hcalls.2⟩

theorem StackOk.of_task {t : Tid} {f : Frame A} {below : List (Frame A)}
    (h : StackOk t (f :: below)) {id : ℕ} (hcaller : f.caller = .task id) :
    (below = [] ∧ t ≠ 0) ∨ ∃ g rest, below = g :: rest ∧ g.pc = .running := by
  cases below with
  | nil =>
    unfold StackOk Bottom at h
    split at h
    · cases hcaller.symm.trans h
    · next ht => exact Or.inl ⟨rfl, ht⟩
  | cons g rest =>
    have hcalls := h.1
    unfold Calls at hcalls
    rw [hcaller] at hcalls
    exact Or.inr ⟨g, rest, rfl, hcalls.2⟩

/-- The task `id`, submitted by an activation called at the time `k`, is in the queue or done,
or an activation called later runs it. -/
def Pending (s : State A) (id k : ℕ) : Prop :=
  (∃ task ∈ s.queue, task.id = id) ∨ (s.futures id).isSome ∨
    ∃ u, ∃ g ∈ s.stack u, g.caller = .task id ∧ k < g.start

end Stacks

/-- What holds of the activations, the queue and the futures. -/
structure Frames (input : List A) (s : State A) : Prop where
  stack : ∀ t, StackOk t (s.stack t)
  started : ∀ t, ∀ f ∈ s.stack t, f.start < s.clock
  frames : ∀ t, ∀ f ∈ s.stack t, FrameOk s f ∧ CallerOk input s f
  lower : ∀ t, ∀ f ∈ s.stack t, ∀ id, f.newLower = some id → Pending s id f.start
  queue : ∀ task ∈ s.queue, s.submitted[task.id]? = some task.chunk
  futures : ∀ id r, s.futures id = some r → ∃ low, s.submitted[id]? = some low ∧ Sorts r low

namespace Frames
variable {input : List A} {s s' : State A} {t : Tid} {f f' : Frame A} {fs below : List (Frame A)}

/-- **One thread moves.**  Its activations are now `fs`; each of them is as it should be, and
waits for a task it waited for before or that is in the queue. -/
theorem change (h : Frames input s) (hstack : s'.stack = Function.update s.stack t fs)
    (hgrows : Grows s s') (hclock : s.clock ≤ s'.clock) (hok : StackOk t fs)
    (hfs : ∀ f ∈ fs, f.start < s'.clock ∧ FrameOk s' f ∧ CallerOk input s' f ∧
      ∀ id, f.newLower = some id → (∃ task ∈ s'.queue, task.id = id) ∨
        ∃ old ∈ s.stack t, old.start = f.start ∧ old.newLower = some id)
    (htasks : ∀ task ∈ s.queue, task ∈ s'.queue ∨
      ∃ g ∈ fs, g.caller = .task task.id ∧ s.clock ≤ g.start)
    (hrunning : ∀ g ∈ s.stack t, ∀ id, g.caller = .task id → (s'.futures id).isSome ∨
      ∃ g' ∈ fs, g'.caller = .task id ∧ g'.start = g.start)
    (hqueue : ∀ task ∈ s'.queue, s'.submitted[task.id]? = some task.chunk)
    (hfutures : ∀ id r, s'.futures id = some r →
      ∃ low, s'.submitted[id]? = some low ∧ Sorts r low) : Frames input s' := by
  have hself : s'.stack t = fs := by rw [hstack, Function.update_self]
  have hother : ∀ u, u ≠ t → s'.stack u = s.stack u := fun u hu => by
    rw [hstack, Function.update_of_ne hu]
  -- what is pending stays so
  have hpending : ∀ id k, Pending s id k → k < s.clock → Pending s' id k := by
    rintro id k (⟨task, htask, rfl⟩ | hready | ⟨u, g, hg, hcaller, hlt⟩) hk
    · rcases htasks task htask with hin | ⟨g, hg, hcaller, hle⟩
      · exact Or.inl ⟨task, hin, rfl⟩
      · exact Or.inr (Or.inr ⟨t, g, hself ▸ hg, hcaller, Nat.lt_of_lt_of_le hk hle⟩)
    · exact Or.inr (Or.inl (hgrows.futures id hready))
    · by_cases hu : u = t
      · subst u
        rcases hrunning g hg id hcaller with hready | ⟨g', hg', hcaller', hstart⟩
        · exact Or.inr (Or.inl hready)
        · exact Or.inr (Or.inr ⟨t, g', hself ▸ hg', hcaller', hstart ▸ hlt⟩)
      · exact Or.inr (Or.inr ⟨u, g, (hother u hu).symm ▸ hg, hcaller, hlt⟩)
  refine ⟨fun u => ?_, fun u f hf => ?_, fun u f hf => ?_, fun u f hf id hid => ?_, hqueue,
    hfutures⟩ <;> by_cases hu : u = t
  · subst u
    rwa [hself]
  · rw [hother u hu]
    exact h.stack u
  · subst u
    exact (hfs f (hself ▸ hf)).1
  · exact Nat.lt_of_lt_of_le (h.started u f (hother u hu ▸ hf)) hclock
  · subst u
    obtain ⟨-, hframe, hcaller, -⟩ := hfs f (hself ▸ hf)
    exact ⟨hframe, hcaller⟩
  · obtain ⟨hframe, hcaller⟩ := h.frames u f (hother u hu ▸ hf)
    exact ⟨hframe.mono hgrows, hcaller.mono hgrows⟩
  · subst u
    obtain ⟨-, -, -, hlower⟩ := hfs f (hself ▸ hf)
    rcases hlower id hid with hin | ⟨old, hold, hstart, hid'⟩
    · exact Or.inl hin
    · have hp := h.lower t old hold id hid'
      exact hstart ▸ hpending id _ hp (h.started t old hold)
  · have hf := hother u hu ▸ hf
    exact hpending id _ (h.lower u f hf id hid) (h.started u f hf)

/-- What `change` asks of an activation holds of those that stay as they are. -/
theorem keep (h : Frames input s) (hgrows : Grows s s') (hclock : s.clock ≤ s'.clock)
    (hf : f ∈ s.stack t) : f.start < s'.clock ∧ FrameOk s' f ∧ CallerOk input s' f ∧
      ∀ id, f.newLower = some id → (∃ task ∈ s'.queue, task.id = id) ∨
        ∃ old ∈ s.stack t, old.start = f.start ∧ old.newLower = some id := by
  obtain ⟨hframe, hcaller⟩ := h.frames t f hf
  exact ⟨Nat.lt_of_lt_of_le (h.started t f hf) hclock, hframe.mono hgrows, hcaller.mono hgrows,
    fun id hid => Or.inr ⟨f, hf, rfl, hid⟩⟩

/-- The running activation goes on within its own variables. -/
theorem setTop (h : Frames input s) (hs : s.stack t = f :: below) (f' : Frame A)
    (hcaller : f'.caller = f.caller)
    (hgiven : f'.given = f.given) (hstart : f'.start = f.start)
    (hlower : f'.newLower = f.newLower ∨ f'.newLower = none)
    (hframe : FrameOk s f') : Frames input (s.setStack t (f' :: below)) := by
  have hgrows : Grows s (s.setStack t (f' :: below)) := ⟨fun _ _ => id, fun _ => id⟩
  have hmem : f ∈ s.stack t := hs ▸ List.mem_cons_self
  refine h.change rfl hgrows (Nat.le_refl _)
    ((hs ▸ h.stack t : StackOk t (f :: below)).setTop hcaller hgiven hstart)
    (fun g hg => ?_) (fun task htask => Or.inl htask) (fun g hg id hid => ?_) h.queue h.futures
  · rcases List.mem_cons.mp hg with rfl | hg
    · obtain ⟨hlt, -, hcaller', hpending⟩ := h.keep hgrows (Nat.le_refl _) hmem
      refine ⟨hstart ▸ hlt, hframe.mono hgrows, ?_, fun id hid => ?_⟩
      · unfold CallerOk at hcaller' ⊢
        rwa [hcaller, hgiven]
      · rcases hlower with hsame | hnone
        · exact Or.inr ⟨f, hmem, hstart.symm, hsame ▸ hid⟩
        · cases hnone.symm.trans hid
    · exact h.keep hgrows (Nat.le_refl _) (hs ▸ List.mem_cons_of_mem f hg)
  · rw [hs] at hg
    rcases List.mem_cons.mp hg with rfl | hg
    · exact Or.inr ⟨f', List.mem_cons_self, hcaller.trans hid, hstart⟩
    · exact Or.inr ⟨g, List.mem_cons_of_mem f' hg, hid, rfl⟩

/-- A new activation is called, perhaps for the first task of the queue. -/
theorem call (h : Frames input s) (caller : Caller) (chunk : List A) {q : List (Task A)}
    (hs : s.stack t = below) (hok : StackOk t (.enter caller chunk s.clock :: below))
    (hq : s.queue = q ∨ ∃ task, s.queue = task :: q ∧ caller = .task task.id)
    (hcaller : CallerOk input s (.enter caller chunk s.clock)) :
    Frames input ({ s with queue := q }.call t below caller chunk) := by
  have hgrows : Grows s ({ s with queue := q }.call t below caller chunk) :=
    ⟨fun _ _ => id, fun _ => id⟩
  have hsub : ∀ task ∈ q, task ∈ s.queue := by
    intro task htask
    rcases hq with hsame | ⟨first, hfirst, -⟩
    · exact hsame ▸ htask
    · exact hfirst ▸ List.mem_cons_of_mem first htask
  refine h.change rfl hgrows (Nat.le_succ _) hok (fun g hg => ?_) (fun task htask => ?_)
    (fun g hg id hid => ?_) (fun task htask => h.queue task (hsub task htask)) h.futures
  · rcases List.mem_cons.mp hg with rfl | hg
    · exact ⟨Nat.lt_succ_self _, ⟨rfl, rfl, rfl⟩, hcaller.mono hgrows, nofun⟩
    · exact h.keep hgrows (Nat.le_succ _) (hs ▸ hg)
  · rcases hq with hsame | ⟨first, hfirst, hcall⟩
    · exact Or.inl (hsame ▸ htask)
    · rw [hfirst] at htask
      rcases List.mem_cons.mp htask with rfl | hin
      · exact Or.inr ⟨_, List.mem_cons_self, hcall, Nat.le_refl _⟩
      · exact Or.inl hin
  · exact Or.inr ⟨g, List.mem_cons_of_mem _ (hs ▸ hg), hid, rfl⟩

/-- The lower part is submitted. -/
theorem submit (h : Frames input s) (hs : s.stack t = f :: below) (f' : Frame A)
    (hcaller : f'.caller = f.caller)
    (hgiven : f'.given = f.given) (hstart : f'.start = f.start) {low : List A}
    (hlower : f'.newLower = some s.submitted.length)
    (hframe : ∀ u : State A, u.submitted = s.submitted ++ [low] → FrameOk u f') :
    Frames input { s.setStack t (f' :: below) with
      queue := s.queue ++ [⟨s.submitted.length, low⟩]
      submitted := s.submitted ++ [low] } := by
  have hsub : ∀ (id : ℕ) (l : List A), s.submitted[id]? = some l →
      (s.submitted ++ [low])[id]? = some l := by
    intro id l hid
    obtain ⟨hlt, -⟩ := List.getElem?_eq_some_iff.mp hid
    rw [List.getElem?_append_left hlt, hid]
  have hgrows : Grows s { s.setStack t (f' :: below) with
      queue := s.queue ++ [⟨s.submitted.length, low⟩]
      submitted := s.submitted ++ [low] } := ⟨hsub, fun _ => id⟩
  have hmem : f ∈ s.stack t := hs ▸ List.mem_cons_self
  refine h.change rfl hgrows (Nat.le_refl _)
    ((hs ▸ h.stack t : StackOk t (f :: below)).setTop hcaller hgiven hstart)
    (fun g hg => ?_) (fun task htask => Or.inl (List.mem_append_left _ htask))
    (fun g hg id hid => ?_) (fun task htask => ?_) (fun id r hr => ?_)
  · -- the frame that has submitted, and those below it
    rcases List.mem_cons.mp hg with rfl | hg
    · obtain ⟨hlt, -, hcaller', -⟩ := h.keep hgrows (Nat.le_refl _) hmem
      refine ⟨hstart ▸ hlt, hframe _ rfl, ?_, fun id hid => Or.inl
        ⟨⟨s.submitted.length, low⟩, List.mem_append_right _ List.mem_cons_self,
          Option.some.inj (hlower.symm.trans hid)⟩⟩
      unfold CallerOk at hcaller' ⊢
      rwa [hcaller, hgiven]
    · exact h.keep hgrows (Nat.le_refl _) (hs ▸ List.mem_cons_of_mem f hg)
  · rw [hs] at hg
    rcases List.mem_cons.mp hg with rfl | hg
    · exact Or.inr ⟨f', List.mem_cons_self, hcaller.trans hid, hstart⟩
    · exact Or.inr ⟨g, List.mem_cons_of_mem f' hg, hid, rfl⟩
  · rcases List.mem_append.mp htask with hold | hnew
    · exact hsub _ _ (h.queue task hold)
    · rw [List.mem_singleton.mp hnew]
      exact List.getElem?_concat_length
  · obtain ⟨l, hl, hsorts⟩ := h.futures id r hr
    exact ⟨l, hsub id l hl, hsorts⟩

/-- The running activation has returned; the future of its task, if it was one, is ready. -/
theorem pop (h : Frames input s) (hs : s.stack t = f :: below) (F : ℕ → Option (List A))
    (hF : ∀ id, (s.futures id).isSome → (F id).isSome)
    (hready : ∀ id, f.caller = .task id → (F id).isSome)
    (hsorts : ∀ id r, F id = some r → ∃ low, s.submitted[id]? = some low ∧ Sorts r low) :
    Frames input { s.setStack t below with futures := F } := by
  have hgrows : Grows s { s.setStack t below with futures := F } := ⟨fun _ _ => id, hF⟩
  refine h.change rfl hgrows (Nat.le_refl _) (hs ▸ h.stack t : StackOk t (f :: below)).tail
    (fun g hg => h.keep hgrows (Nat.le_refl _) (hs ▸ List.mem_cons_of_mem f hg))
    (fun task htask => Or.inl htask) (fun g hg id hid => ?_) h.queue hsorts
  rw [hs] at hg
  rcases List.mem_cons.mp hg with rfl | hg
  · exact Or.inl (hready id hid)
  · exact Or.inr ⟨g, hg, hid, rfl⟩

/-- Only the activations, the queue and the futures matter. -/
theorem congr (h : Frames input s) (hstack : s'.stack = s.stack) (hqueue : s'.queue = s.queue)
    (hfutures : s'.futures = s.futures) (hsubmitted : s'.submitted = s.submitted)
    (hclock : s'.clock = s.clock) : Frames input s' := by
  have hgrows : Grows s s' := by
    constructor
    · rw [hsubmitted]
      exact fun _ _ => id
    · rw [hfutures]
      exact fun _ => id
  have hsame : s'.stack = Function.update s.stack 0 (s.stack 0) := by
    rw [hstack, Function.update_eq_self]
  refine h.change hsame hgrows (Nat.le_of_eq hclock.symm) (h.stack 0)
    (fun g hg => h.keep hgrows (Nat.le_of_eq hclock.symm) hg)
    (fun task htask => Or.inl (hqueue ▸ htask)) (fun g hg id hid => Or.inr ⟨g, hg, hid, rfl⟩) ?_ ?_
  · rw [hqueue, hsubmitted]
    exact h.queue
  · rw [hfutures, hsubmitted]
    exact h.futures

/-- A `do_sort` on thread `t` has taken a step: the first of its activations is running, and
if `parallel_quick_sort_using_tp` has its result now, it is sorted. -/
structure Moved (input : List A) (s s' : State A) (t : Tid) : Prop where
  stack : ∃ fs, s'.stack = Function.update s.stack t fs ∧ ∀ f ∈ fs.head?, OnTop f
  done : s'.done = s.done
  main : (s'.main = s.main ∧ (t = 0 → s'.stack 0 ≠ []) ∧
      (s'.worker = s.worker ∨ t ≠ 0 ∧ s'.worker = Function.update s.worker t .test)) ∨
    (t = 0 ∧ s'.stack 0 = [] ∧ s'.worker = s.worker ∧ ∃ r, s'.main = .destroying r ∧ Sorts r input)

/-- The activation that was called by `parallel_quick_sort_using_tp` does not return. -/
theorem Moved.ofTop {g : Frame A} {rest : List (Frame A)}
    (hstack : s'.stack = Function.update s.stack t (g :: rest)) (htop : OnTop g)
    (hdone : s'.done = s.done) (hmain : s'.main = s.main) (hworker : s'.worker = s.worker) :
    Moved input s s' t := by
  refine ⟨⟨_, hstack, by simpa using htop⟩, hdone, Or.inl ⟨hmain, fun ht => ?_, Or.inl hworker⟩⟩
  subst ht
  simp [hstack]

/-- An activation returns its chunk sorted. -/
theorem ret (h : Frames input s) (hs : s.stack t = f :: below) {r : List A}
    (hsorts : Sorts r f.given) (hstep : s.ret t f below r = some s') :
    Frames input s' ∧ Moved input s s' t := by
  have hok : StackOk t (f :: below) := hs ▸ h.stack t
  have hmem : f ∈ s.stack t := hs ▸ List.mem_cons_self
  unfold State.ret at hstep
  cases hcaller : f.caller with
  | sort =>
    simp only [hcaller, Option.some.injEq] at hstep
    subst hstep
    -- the sort itself has its result
    obtain ⟨rfl, rfl⟩ := hok.of_sort hcaller
    have hpop := h.pop hs s.futures (fun _ => id)
      (fun id hid => absurd (hcaller.symm.trans hid) nofun) h.futures
    have hgiven : f.given = input := by
      have := (h.frames 0 f hmem).2
      simpa only [CallerOk, hcaller] using this
    exact ⟨hpop.congr rfl rfl rfl rfl rfl, ⟨[], rfl, nofun⟩, rfl,
      Or.inr ⟨rfl, by simp [State.setStack], rfl, r, rfl, hgiven ▸ hsorts⟩⟩
  | doSort =>
    -- the frame below gets its higher part
    obtain ⟨g, rest, rfl, hpc, hgiven⟩ := hok.of_doSort hcaller
    simp only [hcaller, Option.some.injEq] at hstep
    subst hstep
    have hpop := h.pop hs s.futures (fun _ => id)
      (fun id hid => absurd (hcaller.symm.trans hid) nofun) h.futures
    have hframe : FrameOk s g := (h.frames t g (hs ▸ by simp)).1
    simp only [FrameOk, hpc] at hframe
    obtain ⟨p, hresult, hsplit⟩ := hframe
    have hself : (s.setStack t (g :: rest)).stack t = g :: rest := Function.update_self ..
    have hset := hpop.setTop hself
      { g with pc := .spliceHigher, chunk := f.chunk, newHigher := r }
      rfl rfl rfl (Or.inl rfl) ⟨p, g.chunk, hresult, hsplit, hgiven ▸ hsorts⟩
    exact ⟨hset.congr (by simp [State.setStack]) rfl rfl rfl rfl,
      .ofTop rfl ⟨nofun, nofun⟩ rfl rfl rfl⟩
  | task id =>
    -- the future of the task gets its value
    have hgiven : s.submitted[id]? = some f.given := by
      have := (h.frames t f hmem).2
      simpa only [CallerOk, hcaller] using this
    have hpop := h.pop hs (Function.update s.futures id (some r)) (fun i hi => ?_)
      (fun i hi => ?_) (fun i r' hr' => ?_)
    rotate_left
    · by_cases hid : i = id
      · simp [hid]
      · rwa [Function.update_of_ne hid]
    · obtain rfl : id = i := Caller.task.inj (hcaller.symm.trans hi)
      simp
    · by_cases hid : i = id
      · subst i
        rw [Function.update_self, Option.some.injEq] at hr'
        exact ⟨f.given, hgiven, hr' ▸ hsorts⟩
      · rw [Function.update_of_ne hid] at hr'
        exact h.futures i r' hr'
    -- a worker looks for the next task; a frame that has run the task polls again
    rcases hok.of_task hcaller with ⟨rfl, ht⟩ | ⟨g, rest, rfl, hpc⟩
    · simp only [hcaller, Option.some.injEq] at hstep
      subst hstep
      exact ⟨hpop.congr rfl rfl rfl rfl rfl, ⟨[], rfl, nofun⟩, rfl,
        Or.inl ⟨rfl, fun h0 => absurd h0 ht, Or.inr ⟨ht, rfl⟩⟩⟩
    · simp only [hcaller, Option.some.injEq] at hstep
      subst hstep
      have hframe := (hpop.frames t g (by simp [State.setStack])).1
      simp only [FrameOk, hpc] at hframe
      have hself : (s.setStack t (g :: rest)).stack t = g :: rest := Function.update_self ..
      have hset := hpop.setTop hself { g with pc := .poll } rfl rfl rfl (Or.inl rfl) hframe
      exact ⟨hset.congr (by simp [State.setStack]) rfl rfl rfl rfl,
        .ofTop rfl ⟨nofun, nofun⟩ rfl rfl rfl⟩

/-- A statement of `do_sort`. -/
theorem doSort (h : Frames input s) (hs : s.stack t = f :: below)
    (hstep : s.doSort t f below = some s') : Frames input s' ∧ Moved input s s' t := by
  have hok : StackOk t (f :: below) := hs ▸ h.stack t
  have hmem : f ∈ s.stack t := hs ▸ List.mem_cons_self
  have hframe : FrameOk s f := (h.frames t f hmem).1
  -- statements that change the variables of the activation only
  have local_ok : ∀ f' : Frame A, f'.caller = f.caller → f'.given = f.given →
      f'.start = f.start → (f'.newLower = f.newLower ∨ f'.newLower = none) → OnTop f' →
      FrameOk s f' → some (s.setStack t (f' :: below)) = some s' →
      Frames input s' ∧ Moved input s s' t := by
    intro f' hcaller hgiven hstart hlower htop hframe' he
    cases he
    exact ⟨h.setTop hs f' hcaller hgiven hstart hlower hframe', .ofTop rfl htop rfl rfl rfl⟩
  unfold State.doSort at hstep
  cases hpc : f.pc with
  | partition | higher | running => simp [hpc] at hstep
  | entry =>
    simp only [FrameOk, hpc] at hframe
    obtain ⟨hgiven, hresult, hlower⟩ := hframe
    cases hchunk : f.chunk with
    | nil =>
      simp only [hpc, hchunk] at hstep
      exact h.ret hs (by rw [← hgiven, hchunk]; exact .nil) hstep
    | cons p chunk =>
      simp only [hpc, hchunk] at hstep
      refine local_ok { f with pc := .partition, chunk := chunk, result := p :: f.result }
        rfl rfl rfl (Or.inl rfl) ⟨nofun, nofun⟩ ⟨hlower, p, ?_, ?_⟩ hstep
      · show p :: f.result = [p]
        rw [hresult]
      · show (p :: chunk).Perm f.given
        rw [← hgiven, hchunk]
  | lower =>
    simp only [FrameOk, hpc] at hframe
    obtain ⟨hlower, p, rest, hresult, hrest, hparts⟩ := hframe
    simp only [hpc] at hstep
    refine local_ok { f with
      pc := .submit
      chunk := f.chunk.drop f.dividePoint
      newLowerChunk := f.newLowerChunk ++ f.chunk.take f.dividePoint }
      rfl rfl rfl (Or.inl rfl) ⟨nofun, nofun⟩ ⟨p, rest, hresult, hrest, ?_⟩ hstep
    simpa [hlower] using hparts
  | submit =>
    simp only [FrameOk, hpc] at hframe
    obtain ⟨p, rest, hresult, hrest, hparts⟩ := hframe
    simp only [hpc, Option.some.injEq] at hstep
    subst hstep
    refine ⟨h.submit hs { f with
      pc := .recurse, newLowerChunk := [], newLower := some s.submitted.length } rfl rfl rfl rfl
      fun u hu => ⟨p, hresult, s.submitted.length, f.newLowerChunk, rest, rfl, ?_, hparts, hrest⟩,
      .ofTop rfl ⟨nofun, nofun⟩ rfl rfl rfl⟩
    rw [hu]
    exact List.getElem?_concat_length
  | recurse =>
    simp only [FrameOk, hpc] at hframe
    simp only [hpc, Option.some.injEq] at hstep
    subst hstep
    have hset := h.setTop hs { f with pc := .higher } rfl rfl rfl (Or.inl rfl) hframe
    have hself : (s.setStack t ({ f with pc := .higher } :: below)).stack t =
        { f with pc := .higher } :: below := Function.update_self ..
    have hcall := hset.call .doSort f.chunk (q := s.queue) hself
      ⟨⟨h.started t f hmem, rfl, rfl⟩, hself ▸ hset.stack t⟩ (Or.inl rfl) trivial
    refine ⟨hcall.congr ?_ rfl rfl rfl rfl, .ofTop rfl ⟨nofun, nofun⟩ rfl rfl rfl⟩
    simp [State.call, State.setStack]
  | spliceHigher =>
    simp only [FrameOk, hpc] at hframe
    obtain ⟨p, high, hresult, hsplit, hsorts⟩ := hframe
    simp only [hpc] at hstep
    refine local_ok { f with pc := .poll, result := f.result ++ f.newHigher, newHigher := [] }
      rfl rfl rfl (Or.inl rfl) ⟨nofun, nofun⟩ ⟨p, high, f.newHigher, ?_, hsplit, hsorts⟩ hstep
    show f.result ++ f.newHigher = p :: f.newHigher
    rw [hresult]
    rfl
  | poll =>
    simp only [FrameOk, hpc] at hframe
    cases hid : f.newLower with
    | none => simp [hpc, hid] at hstep
    | some id =>
      simp only [hpc, hid] at hstep
      rw [← hid] at hstep
      split at hstep
      · next hready =>
        exact local_ok { f with pc := .get } rfl rfl rfl (Or.inl rfl) ⟨nofun, nofun⟩
          ⟨hframe, id, hid, hready⟩ hstep
      · exact local_ok { f with pc := .runPending } rfl rfl rfl (Or.inl rfl) ⟨nofun, nofun⟩
          hframe hstep
  | runPending =>
    simp only [FrameOk, hpc] at hframe
    cases hq : s.queue with
    | nil =>
      simp only [hpc, hq] at hstep
      exact local_ok { f with pc := .poll } rfl rfl rfl (Or.inl rfl) ⟨nofun, nofun⟩ hframe hstep
    | cons task q =>
      simp only [hpc, hq, Option.some.injEq] at hstep
      subst hstep
      have hset := h.setTop hs { f with pc := .running } rfl rfl rfl (Or.inl rfl) hframe
      have hself : (s.setStack t ({ f with pc := .running } :: below)).stack t =
          { f with pc := .running } :: below := Function.update_self ..
      have hcall := hset.call (.task task.id) task.chunk (q := q) hself
        ⟨⟨h.started t f hmem, rfl⟩, hself ▸ hset.stack t⟩ (Or.inr ⟨task, hq, rfl⟩)
        (h.queue task (hq ▸ List.mem_cons_self))
      refine ⟨hcall.congr ?_ rfl rfl rfl rfl, .ofTop rfl ⟨nofun, nofun⟩ rfl rfl rfl⟩
      simp [State.call, State.setStack]
  | get =>
    simp only [FrameOk, hpc] at hframe
    obtain ⟨⟨p, high, hs', hresult, hsplit, hsorts⟩, -⟩ := hframe
    obtain ⟨id, low, rest, hid, hlow, hparts, hrest⟩ := hsplit
    cases hlower : s.futures id with
    | none => simp [hpc, hid, hlower] at hstep
    | some lower =>
      simp only [hpc, hid, Option.bind_some, hlower] at hstep
      obtain ⟨low', hlow', hsorts'⟩ := h.futures id lower hlower
      obtain rfl : low = low' := Option.some.inj (hlow.symm.trans hlow')
      refine local_ok { f with pc := .ret, result := lower ++ f.result, newLower := none }
        rfl rfl rfl (Or.inr rfl) ⟨nofun, nofun⟩ ?_ hstep
      show Sorts (lower ++ f.result) f.given
      rw [hresult]
      exact hsorts'.splice hsorts hparts hrest
  | ret =>
    simp only [FrameOk, hpc] at hframe
    simp only [hpc] at hstep
    exact h.ret hs hframe hstep

/-- The `std::partition` of `do_sort`. -/
theorem partition [DecidableEq A] [DecidableLT A] (h : Frames input s)
    (hs : s.stack t = f :: below) {low high : List A}
    (hstep : s.partition t f below low high = some s') : Frames input s' ∧ Moved input s s' t := by
  have hframe : FrameOk s f := (h.frames t f (hs ▸ List.mem_cons_self)).1
  unfold State.partition at hstep
  split at hstep
  · next pivot rest hpc hresult =>
    split at hstep
    · next hparts =>
      cases hstep
      simp only [FrameOk, hpc] at hframe
      obtain ⟨hlower, p, hp, hgiven⟩ := hframe
      obtain ⟨rfl, rfl⟩ : pivot = p ∧ rest = [] := by simpa [hresult] using hp
      refine ⟨h.setTop hs _ rfl rfl rfl (Or.inl rfl)
        ⟨hlower, pivot, f.chunk, hresult, hgiven, ?_⟩, .ofTop rfl ⟨nofun, nofun⟩ rfl rfl rfl⟩
      simpa using hparts
    · cases hstep
  · cases hstep

end Frames

/-! ## The threads -/

/-- The workers have been started. -/
def Born (workers : ℕ) (s : State A) : Prop := ∀ t, 0 < t → t ≤ workers → s.worker t ≠ .absent

/-- What holds at each point of `parallel_quick_sort_using_tp`. -/
def MainOk (workers : ℕ) (input : List A) (s : State A) : Prop :=
  match s.main with
  | .begin => ∀ t, s.stack t = [] ∧ s.worker t = .absent
  | .sorting => s.stack 0 ≠ [] ∧ Born workers s
  | .destroying r => s.stack 0 = [] ∧ Born workers s ∧ Sorts r input
  | .joining r k => s.stack 0 = [] ∧ Born workers s ∧ Sorts r input ∧ s.done = true ∧ 0 < k
  | .returned r => s.stack 0 = [] ∧ Sorts r input

/-- The invariant. -/
structure Inv (workers : ℕ) (input : List A) (s : State A) : Prop where
  frames : Frames input s
  top : ∀ t, ∀ f ∈ (s.stack t).head?, OnTop f
  absent : ∀ t, workers < t → s.stack t = [] ∧ s.worker t = .absent
  zero : s.worker 0 = .absent
  main : MainOk workers input s

namespace Inv
variable {workers : ℕ} {input : List A} {s s' : State A} {t : Tid}

/-- `do_sort` runs on thread `0` only within `parallel_quick_sort_using_tp`. -/
theorem sorting_iff (h : Inv workers input s) : s.main = .sorting ↔ s.stack 0 ≠ [] := by
  have hmain := h.main
  unfold MainOk at hmain
  cases hm : s.main with
  | sorting =>
    simp only [hm] at hmain
    exact iff_of_true rfl hmain.1
  | begin =>
    simp only [hm] at hmain
    exact iff_of_false nofun (not_not_intro (hmain 0).1)
  | destroying r | joining r k | returned r =>
    simp only [hm] at hmain
    exact iff_of_false nofun (not_not_intro hmain.1)

/-- A `do_sort` has taken a step, or a worker calls one. -/
theorem moved (h : Inv workers input s) (hs : s.stack t ≠ [] ∨ s.worker t ≠ .absent)
    (hframes : Frames input s') (hmoved : Frames.Moved input s s' t) : Inv workers input s' := by
  obtain ⟨⟨fs, hstack, hfs⟩, hdone, hmain⟩ := hmoved
  have ht : t ≤ workers := by
    by_contra hlt
    obtain ⟨hempty, habsent⟩ := h.absent t (Nat.lt_of_not_le hlt)
    exact hs.elim (· hempty) (· habsent)
  have hzero_stack : t = 0 → s.stack 0 ≠ [] := by
    rintro rfl
    exact hs.resolve_right (not_not_intro h.zero)
  have hborn : Born workers s → (s'.worker = s.worker ∨
      t ≠ 0 ∧ s'.worker = Function.update s.worker t .test) → Born workers s' := by
    rintro hborn (hw | ⟨-, hw⟩) u hpos hle
    · rw [hw]
      exact hborn u hpos hle
    · rw [hw]
      by_cases hu : u = t
      · simp [hu]
      · rw [Function.update_of_ne hu]
        exact hborn u hpos hle
  have hworker : s'.worker = s.worker ∨
      t ≠ 0 ∧ s'.worker = Function.update s.worker t .test := by
    rcases hmain with ⟨-, -, hw⟩ | ⟨-, -, hw, -⟩
    · exact hw
    · exact Or.inl hw
  refine ⟨hframes, fun u f hf => ?_, fun u hu => ⟨?_, ?_⟩, ?_, ?_⟩
  · rw [hstack] at hf
    by_cases hut : u = t
    · subst u
      rw [Function.update_self] at hf
      exact hfs f hf
    · rw [Function.update_of_ne hut] at hf
      exact h.top u f hf
  · have hut : u ≠ t := fun he => absurd ht (Nat.not_le_of_lt (he ▸ hu))
    rw [hstack, Function.update_of_ne hut]
    exact (h.absent u hu).1
  · have hut : u ≠ t := fun he => absurd ht (Nat.not_le_of_lt (he ▸ hu))
    rcases hworker with hw | ⟨-, hw⟩
    · rw [hw]
      exact (h.absent u hu).2
    · rw [hw, Function.update_of_ne hut]
      exact (h.absent u hu).2
  · rcases hworker with hw | ⟨hne, hw⟩
    · rw [hw]
      exact h.zero
    · rw [hw, Function.update_of_ne (Ne.symm hne)]
      exact h.zero
  · -- the main thread is where it was, or has left the sort
    have hold := h.main
    rcases hmain with ⟨hmain, hzero, -⟩ | ⟨rfl, hempty, -, r, hmain, hsorts⟩
    · have hzero' : s.stack 0 = [] → s'.stack 0 = [] := by
        intro h0
        have hne : (0 : Tid) ≠ t := fun he => hzero_stack he.symm h0
        rw [hstack, Function.update_of_ne hne, h0]
      unfold MainOk at hold ⊢
      rw [hmain]
      cases hm : s.main with
      | begin =>
        simp only [hm] at hold
        exact (hs.elim (· (hold t).1) (· (hold t).2)).elim
      | sorting =>
        simp only [hm] at hold ⊢
        refine ⟨?_, hborn hold.2 hworker⟩
        by_cases h0 : t = 0
        · exact hzero h0
        · rw [hstack, Function.update_of_ne (Ne.symm h0)]
          exact hold.1
      | destroying r =>
        simp only [hm] at hold ⊢
        exact ⟨hzero' hold.1, hborn hold.2.1 hworker, hold.2.2⟩
      | joining r k =>
        simp only [hm] at hold ⊢
        exact ⟨hzero' hold.1, hborn hold.2.1 hworker, hold.2.2.1, hdone.trans hold.2.2.2.1,
          hold.2.2.2.2⟩
      | returned r =>
        simp only [hm] at hold ⊢
        exact ⟨hzero' hold.1, hold.2⟩
    · have hsorting := h.sorting_iff.mpr (hzero_stack rfl)
      unfold MainOk at hold ⊢
      rw [hsorting] at hold
      rw [hmain]
      exact ⟨hempty, hborn hold.2 hworker, hsorts⟩

/-- Only the phases of the threads change. -/
theorem phases (h : Inv workers input s) (hstack : s'.stack = s.stack) (hqueue : s'.queue = s.queue)
    (hfutures : s'.futures = s.futures) (hsubmitted : s'.submitted = s.submitted)
    (hclock : s'.clock = s.clock)
    (hworker : ∀ u, s'.worker u = s.worker u ∨ 0 < u ∧ u ≤ workers)
    (hmain : MainOk workers input s') : Inv workers input s' where
  frames := h.frames.congr hstack hqueue hfutures hsubmitted hclock
  top := by
    rw [hstack]
    exact h.top
  absent u hu := by
    rw [hstack]
    rcases hworker u with hsame | ⟨-, hle⟩
    · rw [hsame]
      exact h.absent u hu
    · exact absurd hle (Nat.not_le_of_lt hu)
  zero := by
    rcases hworker 0 with hsame | ⟨hpos, -⟩
    · exact hsame.trans h.zero
    · exact absurd hpos (Nat.lt_irrefl 0)
  main := hmain

/-- A step of the loop of a worker. -/
theorem workerThread (h : Inv workers input s) (hs : s.stack t = [])
    (hstep : s.workerThread t = some s') : Inv workers input s' := by
  have ht : s.worker t ≠ .absent → 0 < t ∧ t ≤ workers := by
    intro hw
    refine ⟨Nat.pos_of_ne_zero fun h0 => hw (h0 ▸ h.zero), ?_⟩
    by_contra hlt
    exact hw (h.absent t (Nat.lt_of_not_le hlt)).2
  -- only the phase of the worker changes
  have hphase : ∀ w : Worker, s.worker t ≠ .absent → w ≠ .absent →
      Inv workers input { s with worker := Function.update s.worker t w } := by
    intro w hw hne
    refine h.phases rfl rfl rfl rfl rfl (fun u => ?_) ?_
    · by_cases hu : u = t
      · exact Or.inr (hu ▸ ht hw)
      · exact Or.inl (Function.update_of_ne hu ..)
    · have hborn : Born workers s →
          Born workers { s with worker := Function.update s.worker t w } := by
        intro hborn u hpos hle
        by_cases hu : u = t
        · simpa [hu] using hne
        · simpa [hu] using hborn u hpos hle
      have hmain := h.main
      unfold MainOk at hmain ⊢
      cases hm : s.main with
      | begin =>
        simp only [hm] at hmain
        exact absurd (hmain t).2 hw
      | sorting =>
        simp only [hm] at hmain ⊢
        exact ⟨hmain.1, hborn hmain.2⟩
      | destroying r | joining r k =>
        simp only [hm] at hmain ⊢
        exact ⟨hmain.1, hborn hmain.2.1, hmain.2.2⟩
      | returned r =>
        simp only [hm] at hmain ⊢
        exact hmain
  unfold State.workerThread at hstep
  cases hw : s.worker t with
  | absent | exited => simp [hw] at hstep
  | test =>
    simp only [hw, Option.some.injEq] at hstep
    subst hstep
    exact hphase _ (hw ▸ nofun) (by split <;> nofun)
  | call =>
    cases hq : s.queue with
    | nil =>
      simp only [hw, hq, Option.some.injEq] at hstep
      subst hstep
      simpa only [hq] using hphase .test (hw ▸ nofun) nofun
    | cons task q =>
      simp only [hw, hq, Option.some.injEq] at hstep
      subst hstep
      have hpos : t ≠ 0 := fun h0 => by
        have hzero := h.zero
        rw [← h0, hw] at hzero
        cases hzero
      have hbottom : StackOk t [Frame.enter (.task task.id) task.chunk s.clock] := by
        unfold StackOk Bottom
        rw [if_neg hpos]
        exact ⟨task.id, rfl⟩
      exact h.moved (Or.inr (hw ▸ nofun)) (h.frames.call _ _ hs hbottom (Or.inr ⟨task, hq, rfl⟩)
        (h.frames.queue task (hq ▸ List.mem_cons_self))) (.ofTop rfl ⟨nofun, nofun⟩ rfl rfl rfl)

/-- A step of `parallel_quick_sort_using_tp` itself. -/
theorem quickSort (h : Inv workers input s) (hstep : s.quickSort workers input = some s') :
    Inv workers input s' := by
  have hmain := h.main
  unfold MainOk at hmain
  unfold State.quickSort at hstep
  cases hm : s.main with
  | sorting | returned r => simp [hm] at hstep
  | begin =>
    simp only [hm] at hmain hstep
    split at hstep
    · next hinput =>
      cases hstep
      refine h.phases rfl rfl rfl rfl rfl (fun _ => Or.inl rfl) ⟨(hmain 0).1, ?_⟩
      rw [List.isEmpty_iff.mp hinput]
      exact .nil
    · cases hstep
      -- the workers are started, and the main thread is in `do_sort`
      have hcall := h.frames.call .sort input (q := s.queue) (hmain 0).1
        (by rfl) (Or.inl rfl) rfl
      refine ⟨hcall.congr rfl rfl rfl rfl rfl, fun t f hf => ?_, fun t ht => ⟨?_, ?_⟩, ?_, ?_, ?_⟩
      · by_cases h0 : t = 0
        · subst t
          have hf : f ∈ ([Frame.enter .sort input s.clock] : List (Frame A)).head? := by
            simpa [State.call] using hf
          cases hf
          exact ⟨nofun, nofun⟩
        · exact h.top t f (by simpa [State.call, h0] using hf)
      · have h0 : t ≠ 0 := Nat.ne_of_gt (Nat.lt_of_le_of_lt (Nat.zero_le _) ht)
        simpa [State.call, h0] using (hmain t).1
      · simp [State.call, Nat.not_le_of_lt ht]
      · simp [State.call]
      · simp [State.call]
      · intro t hpos hle
        simp [State.call, hpos, hle]
  | destroying r =>
    simp only [hm, Option.some.injEq] at hmain hstep
    subst hstep
    exact h.phases rfl rfl rfl rfl rfl (fun _ => Or.inl rfl)
      ⟨hmain.1, hmain.2.1, hmain.2.2, rfl, Nat.one_pos⟩
  | joining r k =>
    simp only [hm] at hmain hstep
    split at hstep
    · split at hstep
      · cases hstep
        exact h.phases rfl rfl rfl rfl rfl (fun _ => Or.inl rfl)
          ⟨hmain.1, hmain.2.1, hmain.2.2.1, hmain.2.2.2.1, Nat.succ_pos k⟩
      · cases hstep
    · cases hstep
      exact h.phases rfl rfl rfl rfl rfl (fun _ => Or.inl rfl) ⟨hmain.1, hmain.2.2.1⟩

variable [DecidableEq A] [DecidableLT A]

omit [DecidableEq A] [DecidableLT A] in
theorem init (s : State A) (hmain : s.main = .begin) (hqueue : s.queue = [])
    (hfutures : s.futures = fun _ => none) (hstack : s.stack = fun _ => [])
    (hworker : s.worker = fun _ => .absent) : Inv workers input s where
  frames := by
    refine ⟨fun t => ?_, fun t f hf => ?_, fun t f hf => ?_, fun t f hf => ?_, fun task htask => ?_,
      fun id r hr => ?_⟩
    · rw [hstack]
      trivial
    · rw [hstack] at hf
      cases hf
    · rw [hstack] at hf
      cases hf
    · rw [hstack] at hf
      cases hf
    · rw [hqueue] at htask
      cases htask
    · rw [hfutures] at hr
      cases hr
  top t f hf := by
    rw [hstack] at hf
    cases hf
  absent t _ := by rw [hstack, hworker]; exact ⟨rfl, rfl⟩
  zero := by rw [hworker]
  main := by
    unfold MainOk
    rw [hmain, hstack, hworker]
    exact fun _ => ⟨rfl, rfl⟩

theorem step (h : Inv workers input s) {l : Label A}
    (hstep : (machine workers input).step s l = some s') : Inv workers input s' := by
  cases l with
  | main => exact h.quickSort hstep
  | next t =>
    simp only [machine] at hstep
    split at hstep
    · next f below hs =>
      obtain ⟨hframes, hmoved⟩ := h.frames.doSort hs hstep
      exact h.moved (Or.inl (hs ▸ nofun)) hframes hmoved
    · cases hstep
  | partition t low high =>
    simp only [machine] at hstep
    split at hstep
    · next f below hs =>
      obtain ⟨hframes, hmoved⟩ := h.frames.partition hs hstep
      exact h.moved (Or.inl (hs ▸ nofun)) hframes hmoved
    · cases hstep
  | worker t =>
    simp only [machine] at hstep
    split at hstep
    · next hs => exact h.workerThread hs hstep
    · cases hstep

end Inv

theorem reachable_inv [DecidableEq A] [DecidableLT A] {workers : ℕ} {input : List A} {s : State A}
    (h : (machine workers input).Reachable s) : Inv workers input s :=
  h.invariant (.init _ rfl rfl rfl rfl rfl) fun _ _ _ hs hstep => hs.step hstep

/-- What `parallel_quick_sort_using_tp` has returned is its input sorted. -/
theorem Inv.sorts {workers : ℕ} {input : List A} {s : State A} (h : Inv workers input s)
    {r : List A} (hr : s.main = .returned r) : Sorts r input := by
  have hmain := h.main
  unfold MainOk at hmain
  rw [hr] at hmain
  exact hmain.2

end Sundries.QuickSort
