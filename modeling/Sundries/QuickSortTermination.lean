import Mathlib.Algebra.BigOperators.Group.Finset.Basic
import Mathlib.Order.RelClasses
import Sundries.Fairness
import Sundries.QuickSortProgress

/-!
# The quicksort terminates

Every step but an unsuccessful poll brings the sort forward: a sort of `n` elements makes
`2 * n + 1` calls of `do_sort`, each of a bounded number of statements.  The polls in vain,
of `do_sort` and of the workers, do not end by themselves, but since the quicksort never
gets stuck some thread is one or two turns away from a step that counts.  So the sort ends
under every schedule that is fair to the threads.
-/
namespace Sundries.QuickSort

variable {A : Type}

/-! ## The work that is left -/

/-- More than the statements of all calls in a sort of `n` elements. -/
def cost (n : ℕ) : ℕ := 12 * (2 * n + 1)

/-- More than the statements an activation and the calls that it makes have left. -/
def Frame.work (f : Frame A) : ℕ :=
  match f.pc with
  | .entry => cost f.chunk.length
  | .partition => 24 * (f.chunk.length + 1) + 11
  | .lower => 24 * (f.chunk.length + 1) + 10
  | .submit => 24 * (f.newLowerChunk.length + f.chunk.length + 1) + 9
  | .recurse => cost f.chunk.length + 7
  | .higher => 6
  | .spliceHigher => 5
  | .poll | .runPending | .running => 4
  | .get => 3
  | .ret => 2

def stackWork : List (Frame A) → ℕ
  | [] => 0
  | f :: fs => f.work + stackWork fs

def queueWork : List (Task A) → ℕ
  | [] => 0
  | task :: q => cost task.chunk.length + 1 + queueWork q

def Worker.work : Worker → ℕ
  | .test | .call => 1
  | .absent | .exited => 0

def Main.work (workers : ℕ) (input : List A) : Main A → ℕ
  | .begin => cost input.length + 2 * workers + 6
  | .sorting => workers + 4
  | .destroying _ => workers + 3
  | .joining _ k => workers + 1 - k + 1
  | .returned _ => 0

/-- What is left to do outside the other threads, as seen from thread `t`. -/
def workAt (workers : ℕ) (input : List A) (s : State A) (t : Tid) : ℕ :=
  stackWork (s.stack t) + (s.worker t).work + queueWork s.queue + s.main.work workers input

/-- What is left to do. -/
def work (workers : ℕ) (input : List A) (s : State A) : ℕ :=
  ∑ t ∈ Finset.range (workers + 1), (stackWork (s.stack t) + (s.worker t).work) +
    queueWork s.queue + s.main.work workers input

variable {workers : ℕ} {input : List A} {s s' : State A} {t : Tid} {f : Frame A}
  {below : List (Frame A)}

/-- **One thread moves**: the work left changes as it does for this thread. -/
theorem work_add_workAt (input : List A) (ht : t ≤ workers)
    (hother : ∀ u, u ≠ t → s'.stack u = s.stack u ∧ s'.worker u = s.worker u) :
    work workers input s' + workAt workers input s t =
      work workers input s + workAt workers input s' t := by
  have hmem : t ∈ Finset.range (workers + 1) := Finset.mem_range.mpr (Nat.lt_succ_of_le ht)
  have hrest : ∑ u ∈ (Finset.range (workers + 1)).erase t,
        (stackWork (s'.stack u) + (s'.worker u).work) =
      ∑ u ∈ (Finset.range (workers + 1)).erase t, (stackWork (s.stack u) + (s.worker u).work) :=
    Finset.sum_congr rfl fun u hu => by
      obtain ⟨hstack, hworker⟩ := hother u (Finset.ne_of_mem_erase hu)
      rw [hstack, hworker]
  have hnew := Finset.add_sum_erase (Finset.range (workers + 1))
    (fun u : ℕ => stackWork (s'.stack u) + (s'.worker u).work) hmem
  have hold := Finset.add_sum_erase (Finset.range (workers + 1))
    (fun u : ℕ => stackWork (s.stack u) + (s.worker u).work) hmem
  rw [hrest] at hnew
  unfold work workAt
  omega

@[simp] theorem stackWork_cons (f : Frame A) (fs : List (Frame A)) :
    stackWork (f :: fs) = f.work + stackWork fs := rfl

@[simp] theorem stackWork_nil : stackWork ([] : List (Frame A)) = 0 := rfl

@[simp] theorem queueWork_cons (task : Task A) (q : List (Task A)) :
    queueWork (task :: q) = cost task.chunk.length + 1 + queueWork q := rfl

@[simp] theorem queueWork_concat (task : Task A) (q : List (Task A)) :
    queueWork (q ++ [task]) = queueWork q + cost task.chunk.length + 1 := by
  induction q with
  | nil => simp [queueWork]
  | cons first q ih =>
    rw [List.cons_append, queueWork_cons, queueWork_cons, ih]
    omega

/-- A poll that does not bring the sort forward. -/
def Idles (s s' : State A) (t : Tid) (f : Frame A) (below : List (Frame A)) : Prop :=
  (f.pc = .poll ∧ ¬ LowerReady s f ∧ s' = s.setStack t ({ f with pc := .runPending } :: below)) ∨
    (f.pc = .runPending ∧ s.queue = [] ∧ s' = s.setStack t ({ f with pc := .poll } :: below))

variable [LT A]

/-- A return brings the sort forward. -/
theorem ret_work (h : Inv workers input s) (hs : s.stack t = f :: below) (hf : 2 ≤ f.work)
    {r : List A} (hstep : s.ret t f below r = some s') :
    workAt workers input s' t < workAt workers input s t := by
  have hok : StackOk t (f :: below) := hs ▸ h.frames.stack t
  unfold State.ret at hstep
  cases hcaller : f.caller with
  | sort =>
    simp only [hcaller, Option.some.injEq] at hstep
    subst hstep
    obtain ⟨rfl, rfl⟩ := hok.of_sort hcaller
    have hm : s.main = .sorting := h.sorting_iff.mpr (by simp [hs])
    simp only [workAt, State.setStack, Function.update_self, hs, stackWork_cons, hm, Main.work]
    omega
  | doSort =>
    obtain ⟨g, rest, rfl, hpc, -⟩ := hok.of_doSort hcaller
    simp only [hcaller, Option.some.injEq] at hstep
    subst hstep
    have hg : g.work = 6 := by simp [Frame.work, hpc]
    have hg' : ({ g with pc := .spliceHigher, chunk := f.chunk, newHigher := r } : Frame A).work =
        5 := rfl
    simp only [workAt, State.setStack, Function.update_self, hs, stackWork_cons, hg, hg']
    omega
  | task id =>
    rcases hok.of_task hcaller with ⟨rfl, -⟩ | ⟨g, rest, rfl, hpc⟩
    · simp only [hcaller, Option.some.injEq] at hstep
      subst hstep
      simp only [workAt, State.setStack, Function.update_self, hs, stackWork_cons, stackWork_nil,
        Worker.work]
      omega
    · simp only [hcaller, Option.some.injEq] at hstep
      subst hstep
      have hg : g.work = 4 := by simp [Frame.work, hpc]
      have hg' : ({ g with pc := .poll } : Frame A).work = 4 := rfl
      simp only [workAt, State.setStack, Function.update_self, hs, stackWork_cons, hg, hg']
      omega

/-- Every statement of `do_sort` but a poll in vain brings the sort forward. -/
theorem doSort_work (h : Inv workers input s) (hs : s.stack t = f :: below)
    (hstep : s.doSort t f below = some s') :
    workAt workers input s' t < workAt workers input s t ∨ Idles s s' t f below := by
  have hframe : FrameOk s f := (h.frames.frames t f (hs ▸ List.mem_cons_self)).1
  unfold FrameOk at hframe
  unfold State.doSort at hstep
  cases hpc : f.pc with
  | partition | higher | running => simp [hpc] at hstep
  | entry =>
    cases hchunk : f.chunk with
    | nil =>
      simp only [hpc, hchunk] at hstep
      exact Or.inl (ret_work h hs (by simp [Frame.work, hpc, hchunk, cost]) hstep)
    | cons p chunk =>
      simp only [hpc, hchunk, Option.some.injEq] at hstep
      subst hstep
      refine Or.inl ?_
      simp only [workAt, State.setStack, Function.update_self, hs, stackWork_cons, Frame.work, hpc,
        hchunk, List.length_cons, cost]
      omega
  | lower =>
    simp only [hpc, Option.some.injEq] at hstep hframe
    subst hstep
    refine Or.inl ?_
    simp only [workAt, State.setStack, Function.update_self, hs, stackWork_cons, Frame.work, hpc,
      hframe.1, List.nil_append, List.length_take, List.length_drop]
    omega
  | submit =>
    simp only [hpc, Option.some.injEq] at hstep
    subst hstep
    refine Or.inl ?_
    simp only [workAt, State.setStack, Function.update_self, hs, stackWork_cons, Frame.work, hpc,
      queueWork_concat, cost]
    omega
  | recurse =>
    simp only [hpc, Option.some.injEq] at hstep
    subst hstep
    refine Or.inl ?_
    simp only [workAt, State.call, Frame.enter, Function.update_self, hs, stackWork_cons,
      Frame.work, hpc]
    omega
  | spliceHigher =>
    simp only [hpc, Option.some.injEq] at hstep
    subst hstep
    refine Or.inl ?_
    simp only [workAt, State.setStack, Function.update_self, hs, stackWork_cons, Frame.work, hpc]
    omega
  | poll =>
    cases hid : f.newLower with
    | none => simp [hpc, hid] at hstep
    | some id =>
      simp only [hpc, hid] at hstep
      rw [← hid] at hstep
      split at hstep
      · simp only [Option.some.injEq] at hstep
        subst hstep
        refine Or.inl ?_
        simp only [workAt, State.setStack, Function.update_self, hs, stackWork_cons, Frame.work,
          hpc]
        omega
      · next hready =>
        simp only [Option.some.injEq] at hstep
        -- a poll in vain
        exact Or.inr (Or.inl ⟨hpc, fun hr => hready ((lowerReady_iff hid).mp hr), hstep.symm⟩)
  | runPending =>
    cases hq : s.queue with
    | nil =>
      simp only [hpc, hq, Option.some.injEq] at hstep
      -- no task in the queue
      exact Or.inr (Or.inr ⟨hpc, hq, hstep.symm⟩)
    | cons task q =>
      simp only [hpc, hq, Option.some.injEq] at hstep
      subst hstep
      refine Or.inl ?_
      simp only [workAt, State.call, Frame.enter, Function.update_self, hs, stackWork_cons,
        Frame.work, hpc, hq, queueWork_cons]
      omega
  | get =>
    simp only [hpc] at hstep
    split at hstep
    · simp only [Option.some.injEq] at hstep
      subst hstep
      refine Or.inl ?_
      simp only [workAt, State.setStack, Function.update_self, hs, stackWork_cons, Frame.work, hpc]
      omega
    · cases hstep
  | ret =>
    simp only [hpc] at hstep
    exact Or.inl (ret_work h hs (by simp [Frame.work, hpc]) hstep)

/-- So does `std::partition`. -/
theorem partition_work [DecidableEq A] [DecidableLT A] (hs : s.stack t = f :: below)
    {low high : List A} (hstep : s.partition t f below low high = some s') :
    workAt workers input s' t < workAt workers input s t := by
  unfold State.partition at hstep
  split at hstep
  · next hpc hresult =>
    split at hstep
    · next hparts =>
      cases hstep
      have hlen : (low ++ high).length = f.chunk.length := hparts.1.length_eq
      simp only [workAt, State.setStack, Function.update_self, hs, stackWork_cons, Frame.work, hpc,
        hlen]
      omega
    · cases hstep
  · cases hstep

/-! ## Whose turns bring the sort forward -/

section Turns
omit [LT A]

/-- How many steps the activation `f` at the top of a stack needs, alone, to bring the sort
forward; `0` if it would poll in vain. -/
def Frame.turns (s : State A) (f : Frame A) : ℕ :=
  match f.pc with
  | .poll => if LowerReady s f then 1 else if s.queue.isEmpty then 0 else 2
  | .runPending => if s.queue.isEmpty then if LowerReady s f then 2 else 0 else 1
  | _ => 1

/-- The same for a worker in its loop. -/
def Worker.turns (s : State A) : Worker → ℕ
  | .test => if s.done then 1 else if s.queue.isEmpty then 0 else 2
  | .call => if s.queue.isEmpty then if s.done then 2 else 0 else 1
  | .absent | .exited => 0

/-- The same for `parallel_quick_sort_using_tp`, which may wait to join a worker. -/
def Main.turns (workers : ℕ) (s : State A) : ℕ :=
  match s.main with
  | .begin | .destroying _ => 1
  | .joining _ k => if k ≤ workers ∧ s.worker k ≠ .exited then 0 else 1
  | .sorting | .returned _ => 0

def turns (workers : ℕ) (s : State A) (t : Tid) : ℕ :=
  match s.stack t with
  | f :: _ => f.turns s
  | [] => if t = 0 then Main.turns workers s else (s.worker t).turns s

theorem turns_of_cons (hs : s.stack t = f :: below) : turns workers s t = f.turns s := by
  rw [turns, hs]

theorem turns_of_nil (hs : s.stack t = []) (ht : t ≠ 0) :
    turns workers s t = (s.worker t).turns s := by
  rw [turns, hs]
  exact if_neg ht

/-- As long as the sort has not returned, a turn of some thread brings it forward. -/
theorem exists_turns [LT A] (h : Inv workers input s) (hnot : ¬ ∃ r, s.main = .returned r) :
    ∃ t, turns workers s t ≠ 0 := by
  by_cases hbusy : ∃ t, s.stack t ≠ []
  · -- some frame is not blocked: what it polls for is there, or a task is
    obtain ⟨t, ht⟩ := hbusy
    obtain ⟨u, f, below, hf, hfree⟩ := h.frames.exists_unblocked ht
    refine ⟨u, ?_⟩
    rw [turns_of_cons hf]
    have hwait : f.Polls → ¬ LowerReady s f → s.queue.isEmpty = false := by
      intro hpolls hready
      obtain ⟨task, htask, -⟩ := (hfree hpolls).resolve_left hready
      exact List.isEmpty_eq_false_iff.mpr (List.ne_nil_of_mem htask)
    unfold Frame.turns
    cases hpc : f.pc with
    | poll =>
      by_cases hready : LowerReady s f
      · simp [hready]
      · simp [hready, hwait (Or.inl hpc) hready]
    | runPending =>
      by_cases hready : LowerReady s f
      · cases hq : s.queue.isEmpty <;> simp [hready]
      · simp [hwait (Or.inr hpc) hready]
    | _ => exact Nat.one_ne_zero
  · -- no sort is running: the main thread goes on, or the worker that it joins
    have hempty : ∀ t, s.stack t = [] := fun t => by
      by_contra hne
      exact hbusy ⟨t, hne⟩
    have hmain := h.main
    unfold MainOk at hmain
    have hzero : turns workers s 0 = Main.turns workers s := by
      rw [turns, hempty 0]
      exact if_pos rfl
    cases hm : s.main with
    | begin | destroying r => exact ⟨0, by simp [hzero, Main.turns, hm]⟩
    | sorting => exact absurd (hempty 0) (h.sorting_iff.mp hm)
    | returned r => exact absurd ⟨r, hm⟩ hnot
    | joining r k =>
      simp only [hm] at hmain
      obtain ⟨-, hborn, -, hdone, hpos⟩ := hmain
      by_cases hk : k ≤ workers ∧ s.worker k ≠ .exited
      · refine ⟨k, ?_⟩
        rw [turns_of_nil (hempty k) (Nat.ne_of_gt hpos)]
        cases hw : s.worker k with
        | absent => exact absurd hw (hborn k hpos hk.1)
        | exited => exact absurd hw hk.2
        | test => simp [Worker.turns, hdone]
        | call => cases hq : s.queue.isEmpty <;> simp [Worker.turns, hdone, hq]
      · exact ⟨0, by simp [hzero, Main.turns, hm, hk]⟩

end Turns

/-! ## Every step brings the sort forward, or takes no thread further away -/

/-- What a step does that does not bring the sort forward: it is a poll in vain, of `do_sort`
or of a worker. -/
def Vain (s s' : State A) (t : Tid) : Prop :=
  (∃ f below, s.stack t = f :: below ∧ Idles s s' t f below) ∨
    (s.stack t = [] ∧
      ((s.worker t = .test ∧ s.done = false ∧
          s' = { s with worker := Function.update s.worker t .call }) ∨
        (s.worker t = .call ∧ s.queue = [] ∧
          s' = { s with worker := Function.update s.worker t .test })))

section Vain
omit [LT A]

/-- Turns depend on the thread, the queue, the futures and the phases. -/
theorem turns_congr {u : Tid} (hstack : s'.stack u = s.stack u)
    (hworker : s'.worker u = s.worker u) (hqueue : s'.queue = s.queue)
    (hfutures : s'.futures = s.futures) (hdone : s'.done = s.done) (hmain : s'.main = s.main)
    (hexited : ∀ k, s'.worker k = .exited ↔ s.worker k = .exited) :
    turns workers s' u = turns workers s u := by
  unfold turns Frame.turns Worker.turns Main.turns LowerReady
  simp only [hstack, hworker, hqueue, hfutures, hdone, hmain, ne_eq, hexited]
  rfl

/-- A thread whose turns go down to one while the others stay as they are. -/
theorem turns_step {u : Tid} (hself : turns workers s t ≠ 0 →
      turns workers s t = 2 ∧ turns workers s' t = 1)
    (hother : u ≠ t → turns workers s' u = turns workers s u) (hu : turns workers s u ≠ 0) :
    turns workers s' u ≠ 0 ∧ turns workers s' u ≤ turns workers s u ∧
      (t = u → turns workers s' u < turns workers s u) := by
  by_cases hut : u = t
  · subst u
    obtain ⟨htwo, hone⟩ := hself hu
    rw [htwo, hone]
    exact ⟨Nat.one_ne_zero, Nat.le_succ 1, fun _ => Nat.one_lt_two⟩
  · rw [hother hut]
    exact ⟨hu, Nat.le_refl _, fun he => absurd he.symm hut⟩

/-- A step in vain leaves all other threads where they are, and is one turn of its thread. -/
theorem vain_turns (h : Vain s s' t) (hzero : s.worker 0 = .absent) {u : Tid}
    (hu : turns workers s u ≠ 0) :
    turns workers s' u ≠ 0 ∧ turns workers s' u ≤ turns workers s u ∧
      (t = u → turns workers s' u < turns workers s u) := by
  rcases h with ⟨f, below, hs, hidle⟩ | ⟨hs, hloop⟩
  · have hset : ∀ g : Frame A, u ≠ t →
        turns workers (s.setStack t (g :: below)) u = turns workers s u := fun g hut =>
      turns_congr (Function.update_of_ne hut ..) rfl rfl rfl rfl rfl fun _ => Iff.rfl
    rcases hidle with ⟨hpc, hready, rfl⟩ | ⟨hpc, hq, rfl⟩
    · -- a poll in vain; a task was in the queue
      refine turns_step (fun hne => ?_) (hset _) hu
      rw [turns_of_cons hs, Frame.turns, hpc, if_neg hready] at hne ⊢
      rw [turns_of_cons (Function.update_self ..)]
      cases hq : s.queue.isEmpty with
      | true => exact absurd (by simp [hq]) hne
      | false => exact ⟨by simp, by simp [Frame.turns, State.setStack, hq]⟩
    · -- no task to run; the lower part was ready
      refine turns_step (fun hne => ?_) (hset _) hu
      rw [turns_of_cons hs, Frame.turns, hpc, hq] at hne ⊢
      rw [turns_of_cons (Function.update_self ..)]
      by_cases hready : LowerReady s f
      · exact ⟨by simp [hready], if_pos hready⟩
      · exact absurd (by simp [hready]) hne
  · have hpos : s.worker t ≠ .absent → t ≠ 0 := fun hw ht => hw (ht ▸ hzero)
    have hset : ∀ w : Worker, (w = .exited ↔ s.worker t = .exited) → u ≠ t →
        turns workers { s with worker := Function.update s.worker t w } u = turns workers s u := by
      intro w hw hut
      refine turns_congr rfl (Function.update_of_ne hut ..) rfl rfl rfl rfl fun k => ?_
      by_cases hk : k = t
      · simpa [hk] using hw
      · simp [hk]
    rcases hloop with ⟨hw, hdone, rfl⟩ | ⟨hw, hq, rfl⟩
    · -- `done` is not set; a task was in the queue
      have ht := hpos (by simp [hw])
      refine turns_step (fun hne => ?_) (hset _ (by simp [hw])) hu
      rw [turns_of_nil hs ht, hw, Worker.turns, hdone] at hne ⊢
      rw [turns_of_nil (by exact hs) ht]
      cases hq : s.queue.isEmpty with
      | true => exact absurd (by simp [hq]) hne
      | false => exact ⟨by simp, by simp [Worker.turns, hq]⟩
    · -- no task for the worker; `done` was set
      have ht := hpos (by simp [hw])
      refine turns_step (fun hne => ?_) (hset _ (by simp [hw])) hu
      rw [turns_of_nil hs ht, hw, Worker.turns, hq] at hne ⊢
      rw [turns_of_nil (by exact hs) ht]
      cases hdone : s.done with
      | true => exact ⟨by simp, by simp [Worker.turns]⟩
      | false => exact absurd (by simp [hdone]) hne

end Vain

omit [LT A] in
/-- The work left is compared at the thread that moves. -/
theorem work_lt (ht : t ≤ workers)
    (hother : ∀ u, u ≠ t → s'.stack u = s.stack u ∧ s'.worker u = s.worker u)
    (hlt : workAt workers input s' t < workAt workers input s t) :
    work workers input s' < work workers input s := by
  have hsum := work_add_workAt input ht hother
  omega

/-- The threads that have activations are those of the pool and the caller's. -/
theorem Inv.le_workers (h : Inv workers input s) (hs : s.stack t ≠ [] ∨ s.worker t ≠ .absent) :
    t ≤ workers := by
  by_contra hlt
  obtain ⟨hempty, habsent⟩ := h.absent t (Nat.lt_of_not_le hlt)
  exact hs.elim (· hempty) (· habsent)

omit [LT A] in
theorem Frames.Moved.other [LT A] (h : Frames.Moved input s s' t) (u : Tid) (hu : u ≠ t) :
    s'.stack u = s.stack u ∧ s'.worker u = s.worker u := by
  obtain ⟨⟨fs, hstack, -⟩, -, hmain⟩ := h
  refine ⟨by rw [hstack, Function.update_of_ne hu], ?_⟩
  rcases hmain with ⟨-, -, hw | ⟨-, hw⟩⟩ | ⟨-, -, hw, -⟩
  · rw [hw]
  · rw [hw, Function.update_of_ne hu]
  · rw [hw]

omit [LT A] in
/-- A step in vain leaves as much to do. -/
theorem Vain.work_eq (h : Vain s s' t) (ht : t ≤ workers) :
    work workers input s' = work workers input s := by
  rcases h with ⟨f, below, hs, hidle⟩ | ⟨hs, hloop⟩
  · have hset : ∀ g : Frame A, g.work = f.work →
        work workers input (s.setStack t (g :: below)) = work workers input s := by
      intro g hg
      have hother : ∀ u, u ≠ t → (s.setStack t (g :: below)).stack u = s.stack u ∧
          (s.setStack t (g :: below)).worker u = s.worker u :=
        fun u hu => ⟨Function.update_of_ne hu .., rfl⟩
      have hsum := work_add_workAt input ht hother
      have hat : workAt workers input (s.setStack t (g :: below)) t = workAt workers input s t := by
        simp [workAt, State.setStack, hs, hg]
      omega
    rcases hidle with ⟨hpc, -, rfl⟩ | ⟨hpc, -, rfl⟩
    · exact hset _ (by simp [Frame.work, hpc])
    · exact hset _ (by simp [Frame.work, hpc])
  · have hset : ∀ w : Worker, w.work = (s.worker t).work →
        work workers input { s with worker := Function.update s.worker t w } =
          work workers input s := by
      intro w hw
      have hother : ∀ u, u ≠ t →
          ({ s with worker := Function.update s.worker t w } : State A).stack u = s.stack u ∧
          ({ s with worker := Function.update s.worker t w } : State A).worker u = s.worker u :=
        fun u hu => ⟨rfl, Function.update_of_ne hu ..⟩
      have hsum := work_add_workAt input ht hother
      have hat : workAt workers input { s with worker := Function.update s.worker t w } t =
          workAt workers input s t := by
        simp [workAt, hw]
      omega
    rcases hloop with ⟨hw, -, rfl⟩ | ⟨hw, -, rfl⟩
    · exact hset _ (by simp [Worker.work, hw])
    · exact hset _ (by simp [Worker.work, hw])

/-- A step of a worker's loop is in vain, or the worker takes a task or ends. -/
theorem workerThread_work (h : Inv workers input s) (hs : s.stack t = [])
    (hstep : s.workerThread t = some s') :
    work workers input s' < work workers input s ∨ Vain s s' t := by
  unfold State.workerThread at hstep
  cases hw : s.worker t with
  | absent | exited => simp [hw] at hstep
  | test =>
    simp only [hw, Option.some.injEq] at hstep
    subst hstep
    cases hdone : s.done with
    | false =>
      refine Or.inr (Or.inr ⟨hs, Or.inl ⟨hw, hdone, ?_⟩⟩)
      simp [hdone]
    | true =>
      refine Or.inl (work_lt (h.le_workers (Or.inr (by simp [hw])))
        (fun u hu => ⟨rfl, Function.update_of_ne hu ..⟩) ?_)
      simp [workAt, hw, Worker.work]
  | call =>
    cases hq : s.queue with
    | nil =>
      simp only [hw, hq, Option.some.injEq] at hstep
      refine Or.inr (Or.inr ⟨hs, Or.inr ⟨hw, hq, ?_⟩⟩)
      rw [← hstep, hq]
    | cons task q =>
      simp only [hw, hq, Option.some.injEq] at hstep
      subst hstep
      refine Or.inl (work_lt (h.le_workers (Or.inr (by simp [hw])))
        (fun u hu => ⟨Function.update_of_ne hu .., rfl⟩) ?_)
      simp only [workAt, State.call, Frame.enter, Function.update_self, hs, stackWork_cons,
        stackWork_nil, Frame.work, hq, queueWork_cons]
      omega

/-- The steps of `parallel_quick_sort_using_tp` itself all count. -/
theorem quickSort_work (h : Inv workers input s) (hstep : s.quickSort workers input = some s') :
    work workers input s' < work workers input s := by
  unfold State.quickSort at hstep
  cases hm : s.main with
  | sorting | returned r => simp [hm] at hstep
  | begin =>
    simp only [hm] at hstep
    split at hstep
    · cases hstep
      simp only [work, hm, Main.work]
      omega
    · cases hstep
      have hmain := h.main
      unfold MainOk at hmain
      simp only [hm] at hmain
      -- the workers have a step to take each, the caller the call of `do_sort`
      have hsum : ∑ t ∈ Finset.range (workers + 1),
          (stackWork (Function.update s.stack 0 [Frame.enter .sort input s.clock] t) +
            (if 0 < t ∧ t ≤ workers then Worker.test else .absent).work) =
          workers + cost input.length := by
        rw [Finset.sum_range_succ', Finset.sum_congr rfl (g := fun _ => 1)]
        · simp [Frame.enter, Frame.work, Worker.work]
        · intro t ht
          have hle : t + 1 ≤ workers := Finset.mem_range.mp ht
          simp [hmain, hle, Worker.work]
      simp only [work, State.call, hm, Main.work, hsum]
      omega
  | destroying r =>
    simp only [hm, Option.some.injEq] at hstep
    subst hstep
    simp only [work, hm, Main.work]
    omega
  | joining r k =>
    simp only [hm] at hstep
    split at hstep
    · next hk =>
      split at hstep
      · cases hstep
        have hlt : workers + 1 - (k + 1) < workers + 1 - k :=
          Nat.sub_lt_sub_left (Nat.lt_succ_of_le hk) (Nat.lt_succ_self k)
        simp only [work, hm, Main.work]
        exact Nat.add_lt_add_left (Nat.succ_lt_succ hlt) _
      · cases hstep
    · cases hstep
      simp only [work, hm, Main.work]
      omega

variable [DecidableEq A] [DecidableLT A]

/-- Every step brings the sort forward or is in vain. -/
theorem step_work (h : Inv workers input s) {l : Label A}
    (hstep : (machine workers input).step s l = some s') :
    work workers input s' < work workers input s ∨
      (work workers input s' = work workers input s ∧ Vain s s' l.owner) := by
  cases l with
  | main => exact Or.inl (quickSort_work h hstep)
  | next t =>
    simp only [machine] at hstep
    split at hstep
    · next f below hs =>
      have ht := h.le_workers (Or.inl (by simp [hs] : s.stack t ≠ []))
      rcases doSort_work h hs hstep with hlt | hidle
      · exact Or.inl (work_lt ht (h.frames.doSort hs hstep).2.other hlt)
      · have hvain : Vain s s' t := Or.inl ⟨f, below, hs, hidle⟩
        exact Or.inr ⟨hvain.work_eq ht, hvain⟩
    · cases hstep
  | partition t low high =>
    simp only [machine] at hstep
    split at hstep
    · next f below hs =>
      have ht := h.le_workers (Or.inl (by simp [hs] : s.stack t ≠ []))
      exact Or.inl (work_lt ht (h.frames.partition hs hstep).2.other (partition_work hs hstep))
    · cases hstep
  | worker t =>
    simp only [machine] at hstep
    split at hstep
    · next hs =>
      rcases workerThread_work h hs hstep with hlt | hvain
      · exact Or.inl hlt
      · have hw : s.worker t ≠ .absent := by
          rcases hvain with ⟨f, below, hs', -⟩ | ⟨-, ⟨hw, -⟩ | ⟨hw, -⟩⟩
          · cases hs.symm.trans hs'
          · simp [hw]
          · simp [hw]
        exact Or.inr ⟨hvain.work_eq (h.le_workers (Or.inr hw)), hvain⟩
    · cases hstep

/-- A thread with a turn has a step. -/
theorem enabled_of_turns (h : Inv workers input s) (hturns : turns workers s t ≠ 0) :
    (machine workers input).Enabled Label.owner s t := by
  cases hs : s.stack t with
  | cons f below =>
    obtain ⟨l, s', hl, hstep⟩ := h.exists_step hs
    refine ⟨l, s', ?_, hstep⟩
    rcases hl with rfl | ⟨low, high, rfl⟩ <;> rfl
  | nil =>
    by_cases ht : t = 0
    · subst t
      rw [turns, hs] at hturns
      have hmain : Main.turns workers s ≠ 0 := by simpa using hturns
      have hstep : ∃ s', s.quickSort workers input = some s' := by
        unfold Main.turns at hmain
        unfold State.quickSort
        cases hm : s.main with
        | sorting | returned r => simp [hm] at hmain
        | begin =>
          simp only
          split <;> exact ⟨_, rfl⟩
        | destroying r => exact ⟨_, rfl⟩
        | joining r k =>
          simp only [hm] at hmain ⊢
          by_cases hk : k ≤ workers
          · by_cases hexited : s.worker k = .exited
            · rw [if_pos hk, if_pos hexited]
              exact ⟨_, rfl⟩
            · simp [hk, hexited] at hmain
          · rw [if_neg hk]
            exact ⟨_, rfl⟩
      obtain ⟨s', hs'⟩ := hstep
      exact ⟨.main, s', rfl, hs'⟩
    · rw [turns_of_nil hs ht] at hturns
      have hstep : ∃ s', s.workerThread t = some s' := by
        unfold State.workerThread
        cases hw : s.worker t with
        | absent | exited => simp [hw, Worker.turns] at hturns
        | test => exact ⟨_, rfl⟩
        | call => cases s.queue <;> exact ⟨_, rfl⟩
      obtain ⟨s', hs'⟩ := hstep
      refine ⟨.worker t, s', rfl, ?_⟩
      simp only [machine, hs]
      exact hs'

/-- What brings fair executions to their end. -/
theorem ranking (workers : ℕ) (input : List A) :
    Machine.Ranking (machine workers input) Label.owner (Inv workers input)
      (fun s => ∃ r, s.main = .returned r) (work workers input) (turns workers) where
  init := .init _ rfl rfl rfl rfl rfl
  preserved _ _ _ h hstep := h.step hstep
  helpful _ h hnot := exists_turns h hnot
  enabled _ _ h hturns := enabled_of_turns h hturns
  step s l s' h hstep := by
    rcases step_work h hstep with hlt | ⟨heq, hvain⟩
    · exact Or.inl hlt
    · exact Or.inr ⟨heq, fun t ht => vain_turns hvain h.zero ht⟩

/-- **The quicksort sorts.**  In every execution that is fair to the threads
`parallel_quick_sort_using_tp` returns; and whatever the schedule, the partitions and the
threads that run the tasks, what it returns is a permutation of its input in which no
element is less than an earlier one. -/
theorem sorts_of_fair [IsStrictWeakOrder A (· < ·)] (workers : ℕ) (input : List A) :
    (∀ e : (machine workers input).Execution, e.Fair Label.owner →
      ∃ n r, (e.state n).main = .returned r ∧ r.Perm input ∧ r.Pairwise fun x y => ¬ y < x) ∧
    ∀ s, (machine workers input).Reachable s → ∀ r, s.main = .returned r →
      r.Perm input ∧ r.Pairwise fun x y => ¬ y < x := by
  have hsorts : ∀ s, (machine workers input).Reachable s → ∀ r, s.main = .returned r →
      r.Perm input ∧ r.Pairwise fun x y => ¬ y < x := by
    intro s hs r hr
    obtain ⟨hperm, hsorted⟩ := (reachable_inv hs).sorts hr
    exact ⟨hperm, hsorted inferInstance⟩
  refine ⟨fun e fair => ?_, hsorts⟩
  obtain ⟨n, r, hr⟩ := (ranking workers input).reaches fair
  exact ⟨n, r, hr, hsorts _ (e.reachable n) r hr⟩

omit [DecidableEq A] [DecidableLT A] in
/-- Without workers nothing can happen any more when the sort has returned. -/
theorem not_enabled_of_returned [DecidableEq A] [DecidableLT A] {r : List A}
    (h : Inv 0 input s) (hr : s.main = .returned r) (t : Tid) :
    ¬ (machine 0 input).Enabled Label.owner s t := by
  have hmain := h.main
  unfold MainOk at hmain
  simp only [hr] at hmain
  have hidle : ∀ u, s.stack u = [] ∧ s.worker u = .absent := by
    intro u
    by_cases hu : u = 0
    · exact hu ▸ ⟨hmain.1, h.zero⟩
    · exact h.absent u (Nat.pos_of_ne_zero hu)
  rintro ⟨l, s', -, hstep⟩
  cases l with
  | main => simp [machine, State.quickSort, hr] at hstep
  | next u => simp [machine, (hidle u).1] at hstep
  | partition u low high => simp [machine, (hidle u).1] at hstep
  | worker u => simp [machine, (hidle u).1, State.workerThread, (hidle u).2] at hstep

/-- A sort of two elements without workers: the caller runs the tasks itself, one of them
within the other. -/
theorem twoElements_sorts :
    ∃ (e : (machine 0 [2, 1]).Execution) (n : ℕ) (r : List ℕ), e.Fair Label.owner ∧
      (e.state n).main = .returned r ∧ r.Perm [2, 1] ∧ r.Pairwise fun x y => ¬ y < x := by
  have hrun : ∃ s : State ℕ, (machine 0 [2, 1]).run (machine 0 [2, 1]).init
      [.main, .next 0, .partition 0 [1] [], .next 0, .next 0, .next 0, .next 0, .next 0, .next 0,
        .next 0, .next 0, .partition 0 [] [], .next 0, .next 0, .next 0, .next 0, .next 0, .next 0,
        .next 0, .next 0, .next 0, .next 0, .next 0, .next 0, .next 0, .next 0, .main, .main] =
      some s ∧ s.main = .returned [1, 2] :=
    ⟨_, rfl, rfl⟩
  obtain ⟨s, hs, hmain⟩ := hrun
  have hinv : Inv 0 [2, 1] s := reachable_inv (Machine.reachable_of_run _ hs)
  have fair := Machine.Execution.ofRun_fair hs (not_enabled_of_returned hinv hmain)
  have horder : IsStrictWeakOrder ℕ (· < ·) := isStrictWeakOrder_of_isOrderConnected
  obtain ⟨n, r, hr, hperm, hsorted⟩ := (sorts_of_fair (A := ℕ) 0 [2, 1]).1 _ fair
  exact ⟨_, n, r, fair, hr, hperm, hsorted⟩

end Sundries.QuickSort
