import Sundries.QuickSort

/-!
# The quicksort never gets stuck

A `do_sort` that waits for its lower part runs whatever task comes next on top of itself, so
that a task may well be under a `do_sort` that waits for another one.  What orders the
waiting is the time of the calls: a `do_sort` waits for a task that it has submitted
itself, so the activation that runs this task was called later, and so were all those above
that one.  The activation called last, among those at the top of a stack, can therefore go
on, or what it waits for is in the queue.
-/
namespace Sundries.QuickSort

variable {A : Type}

/-- In the loop that waits for the lower part. -/
def Frame.Polls (f : Frame A) : Prop := f.pc = .poll ∨ f.pc = .runPending

/-- The future the activation waits for is ready. -/
def LowerReady (s : State A) (f : Frame A) : Prop := (f.newLower.bind s.futures).isSome

instance (s : State A) (f : Frame A) : Decidable (LowerReady s f) :=
  inferInstanceAs (Decidable (_ = true))

theorem lowerReady_iff {s : State A} {f : Frame A} {id : ℕ} (hid : f.newLower = some id) :
    LowerReady s f ↔ (s.futures id).isSome := by
  rw [LowerReady, hid, Option.bind_some]

/-- What the activation waits for is in the queue. -/
def LowerQueued (s : State A) (f : Frame A) : Prop :=
  ∃ task ∈ s.queue, f.newLower = some task.id

variable [LT A] {input : List A} {workers : ℕ} {s : State A} {t : Tid} {f : Frame A}
  {below : List (Frame A)}

/-- An activation that polls has a future. -/
theorem Frames.exists_newLower (h : Frames input s) (hf : f ∈ s.stack t) (hpolls : f.Polls) :
    ∃ id, f.newLower = some id := by
  have hframe := (h.frames t f hf).1
  unfold FrameOk at hframe
  rcases hpolls with hpc | hpc
  all_goals
    simp only [hpc] at hframe
    obtain ⟨-, -, -, -, ⟨id, -, -, hid, -⟩, -⟩ := hframe
    exact ⟨id, hid⟩

/-- **No cycle through the stacks.**  Some activation at the top of a stack does not wait, or
its future is ready, or what it waits for is in the queue. -/
theorem Frames.exists_unblocked (h : Frames input s) (hs : s.stack t ≠ []) :
    ∃ u f below, s.stack u = f :: below ∧ (f.Polls → LowerReady s f ∨ LowerQueued s f) := by
  obtain ⟨f, below, hf⟩ := List.exists_cons_of_ne_nil hs
  -- the times of the calls go up along the waiting, and are bounded by the clock
  suffices key : ∀ n t f below, s.stack t = f :: below → s.clock - f.start = n →
      ∃ u f below, s.stack u = f :: below ∧ (f.Polls → LowerReady s f ∨ LowerQueued s f) from
    key _ t f below hf rfl
  intro n
  induction n using Nat.strongRecOn with
  | ind n ih =>
    intro t f below hf hn
    by_cases hblocked : f.Polls → LowerReady s f ∨ LowerQueued s f
    · exact ⟨t, f, below, hf, hblocked⟩
    · obtain ⟨hpolls, hnot⟩ := Classical.not_imp.mp hblocked
      have hmem : f ∈ s.stack t := hf ▸ List.mem_cons_self
      obtain ⟨id, hid⟩ := h.exists_newLower hmem hpolls
      rcases h.lower t f hmem id hid with ⟨task, htask, rfl⟩ | hready | ⟨u, g, hg, -, hlt⟩
      · exact absurd (Or.inr ⟨task, htask, hid⟩) hnot
      · exact absurd (Or.inl ((lowerReady_iff hid).mpr hready)) hnot
      · -- the activation that runs the task, and the one at the top of its stack
        obtain ⟨f', below', hf'⟩ := List.exists_cons_of_ne_nil (List.ne_nil_of_mem hg)
        have hle : g.start ≤ f'.start := (hf' ▸ h.stack u).start_le (hf' ▸ hg)
        have hclock : f'.start < s.clock := h.started u f' (hf' ▸ List.mem_cons_self)
        have hless : f.start < f'.start := Nat.lt_of_lt_of_le hlt hle
        exact ih (s.clock - f'.start)
          (hn ▸ Nat.sub_lt_sub_left (Nat.lt_trans hless hclock) hless) u f' below' hf' rfl

/-- A returning activation has something to return to. -/
theorem Frames.exists_ret (h : Frames input s) (hs : s.stack t = f :: below) (r : List A) :
    ∃ s', s.ret t f below r = some s' := by
  have hok : StackOk t (f :: below) := hs ▸ h.stack t
  unfold State.ret
  cases hcaller : f.caller with
  | sort => exact ⟨_, rfl⟩
  | doSort =>
    obtain ⟨g, rest, rfl, -⟩ := hok.of_doSort hcaller
    exact ⟨_, rfl⟩
  | task id => cases below <;> exact ⟨_, rfl⟩

variable [DecidableEq A] [DecidableLT A]

/-- The labels of the steps that the activation at the top of the stack of `t` takes. -/
def Label.OfTop (l : Label A) (t : Tid) : Prop :=
  l = .next t ∨ ∃ low high, l = .partition t low high

omit [DecidableEq A] in
theorem State.exists_partitioned (p : A) (chunk : List A) :
    ∃ low high, State.Partitioned p low high chunk := by
  refine ⟨chunk.filter (· < p), chunk.filter (¬ · < p), ?_, fun x hx => ?_, fun y hy => ?_⟩
  · simpa using List.filter_append_perm (fun x => decide (x < p)) chunk
  · simpa using (List.mem_filter.mp hx).2
  · simpa using (List.mem_filter.mp hy).2

/-- An activation at the top of a stack has a next step. -/
theorem Inv.exists_step (h : Inv workers input s) (hs : s.stack t = f :: below) :
    ∃ l s', Label.OfTop l t ∧ (machine workers input).step s l = some s' := by
  have hframe : FrameOk s f := (h.frames.frames t f (hs ▸ List.mem_cons_self)).1
  have htop : OnTop f := h.top t f (by simp [hs])
  unfold FrameOk at hframe
  -- all but `std::partition` are statements of `doSort`
  have hnext : (∃ s', s.doSort t f below = some s') →
      ∃ l s', Label.OfTop l t ∧ (machine workers input).step s l = some s' := by
    rintro ⟨s', hs'⟩
    refine ⟨.next t, s', Or.inl rfl, ?_⟩
    simp only [machine, hs]
    exact hs'
  cases hpc : f.pc with
  | higher => exact absurd hpc htop.1
  | running => exact absurd hpc htop.2
  | partition =>
    simp only [hpc] at hframe
    obtain ⟨-, p, hresult, -⟩ := hframe
    obtain ⟨low, high, hparts⟩ := State.exists_partitioned p f.chunk
    have hstep : ∃ s', (machine workers input).step s (.partition t low high) = some s' := by
      simp only [machine, hs, State.partition, hpc, hresult]
      exact ⟨_, if_pos hparts⟩
    obtain ⟨s', hstep⟩ := hstep
    exact ⟨_, s', Or.inr ⟨low, high, rfl⟩, hstep⟩
  | entry =>
    refine hnext ?_
    unfold State.doSort
    simp only [hpc]
    cases f.chunk with
    | nil => exact h.frames.exists_ret hs []
    | cons p chunk => exact ⟨_, rfl⟩
  | lower | submit | recurse | spliceHigher =>
    refine hnext ?_
    unfold State.doSort
    simp only [hpc]
    exact ⟨_, rfl⟩
  | poll =>
    obtain ⟨id, hid⟩ := h.frames.exists_newLower (hs ▸ List.mem_cons_self) (Or.inl hpc)
    refine hnext ?_
    unfold State.doSort
    simp only [hpc, hid]
    split <;> exact ⟨_, rfl⟩
  | runPending =>
    refine hnext ?_
    unfold State.doSort
    simp only [hpc]
    cases s.queue <;> exact ⟨_, rfl⟩
  | get =>
    simp only [hpc] at hframe
    obtain ⟨-, id, hid, hready⟩ := hframe
    obtain ⟨lower, hlower⟩ := Option.isSome_iff_exists.mp hready
    refine hnext ?_
    unfold State.doSort
    simp only [hpc, hid, Option.bind_some, hlower]
    exact ⟨_, rfl⟩
  | ret =>
    refine hnext ?_
    unfold State.doSort
    simp only [hpc]
    exact h.frames.exists_ret hs f.result

/-- The activation polls, and its future is not ready. -/
def PollsInVain (s : State A) (f : Frame A) : Prop := f.Polls ∧ ¬ LowerReady s f

/-- The activation polls for a task that is neither done nor in the queue, and that no
activation at the top of a stack runs: those below could complete it. -/
def WaitsForBuried (s : State A) (f : Frame A) : Prop :=
  f.Polls ∧ ∃ id, f.newLower = some id ∧ s.futures id = none ∧ (∀ task ∈ s.queue, task.id ≠ id) ∧
    ∀ u g below, s.stack u = g :: below → g.caller ≠ .task id

/-- A polling thread takes the first task of the queue. -/
theorem exists_take (hs : s.stack t = f :: below) (hvain : PollsInVain s f)
    (hlower : ∃ id, f.newLower = some id) {task : Task A} {q : List (Task A)}
    (hq : s.queue = task :: q) :
    ∃ k s', (machine workers input).run s (List.replicate k (.next t)) = some s' ∧ s'.queue = q ∧
      ∃ g rest, s'.stack t = g :: rest ∧ g.caller = .task task.id ∧ g.given = task.chunk := by
  -- from `run_pending_task` on
  have htake : ∀ (u : State A) (f : Frame A), u.stack t = f :: below → f.pc = .runPending →
      u.queue = task :: q → ∃ s', (machine workers input).run u (List.replicate 1 (.next t)) =
        some s' ∧ s'.queue = q ∧
        ∃ g rest, s'.stack t = g :: rest ∧ g.caller = .task task.id ∧ g.given = task.chunk := by
    intro u f hu hpc huq
    refine ⟨{ u with queue := q }.call t ({ f with pc := .running } :: below) (.task task.id)
      task.chunk, ?_, rfl, _, _, Function.update_self .., rfl, rfl⟩
    simp [machine, hu, State.doSort, hpc, huq]
  obtain ⟨hpolls, hready⟩ := hvain
  rcases hpolls with hpc | hpc
  · obtain ⟨id, hid⟩ := hlower
    have hnot : ¬ (s.futures id).isSome := fun h => hready ((lowerReady_iff hid).mpr h)
    have hpoll : (machine workers input).step s (.next t) =
        some (s.setStack t ({ f with pc := .runPending } :: below)) := by
      simp [machine, hs, State.doSort, hpc, hid, hnot]
    have hself : (s.setStack t ({ f with pc := .runPending } :: below)).stack t =
        { f with pc := .runPending } :: below := Function.update_self ..
    obtain ⟨s', hrun, hrest⟩ := htake _ _ hself rfl hq
    exact ⟨2, s', (machine workers input).run_cons_eq_some.mpr ⟨_, hpoll, hrun⟩, hrest⟩
  · obtain ⟨s', hrun, hrest⟩ := htake s f hs hpc hq
    exact ⟨1, s', hrun, hrest⟩

/-- **The quicksort never gets stuck.**  As long as `do_sort` has not returned to
`parallel_quick_sort_using_tp`, or any other activation is left, an activation at the top of
a stack can take a step and does not poll in vain, or a polling thread can take a task from
the queue; it is not so that all wait for tasks that are under other activations.  When none
is left, `parallel_quick_sort_using_tp` has returned or takes a step, or so does the worker
it is joining. -/
theorem never_stuck (h : (machine workers input).Reachable s) :
    (s.main = .sorting → s.stack 0 ≠ []) ∧
    ((∃ t, s.stack t ≠ []) →
      ((∃ t f below l s', s.stack t = f :: below ∧ ¬ PollsInVain s f ∧ Label.OfTop l t ∧
          (machine workers input).step s l = some s') ∨
        ∃ t f below task q, s.stack t = f :: below ∧ f.Polls ∧ s.queue = task :: q ∧
          ∃ k s', (machine workers input).run s (List.replicate k (.next t)) = some s' ∧
            s'.queue = q ∧ ∃ g rest, s'.stack t = g :: rest ∧ g.caller = .task task.id ∧
              g.given = task.chunk) ∧
      ¬ ∀ t f below, s.stack t = f :: below → WaitsForBuried s f) ∧
    ((∀ t, s.stack t = []) →
      (∃ r, s.main = .returned r) ∨ (∃ s', (machine workers input).step s .main = some s') ∨
        ∃ r k s', s.main = .joining r k ∧ (machine workers input).step s (.worker k) = some s') := by
  have hinv := reachable_inv h
  refine ⟨hinv.sorting_iff.mp, fun ⟨t, ht⟩ => ?_, fun hempty => ?_⟩
  · obtain ⟨u, f, below, hf, hfree⟩ := hinv.frames.exists_unblocked ht
    constructor
    · by_cases hvain : PollsInVain s f
      · rcases hfree hvain.1 with hready | ⟨task, htask, hid⟩
        · exact absurd hready hvain.2
        · obtain ⟨first, q, hq⟩ := List.exists_cons_of_ne_nil (List.ne_nil_of_mem htask)
          exact Or.inr ⟨u, f, below, first, q, hf, hvain.1, hq,
            exists_take hf hvain ⟨_, hid⟩ hq⟩
      · obtain ⟨l, s', hl, hstep⟩ := hinv.exists_step hf
        exact Or.inl ⟨u, f, below, l, s', hf, hvain, hl, hstep⟩
    · intro hall
      obtain ⟨hpolls, id, hid, hnone, hqueue, -⟩ := hall u f below hf
      rcases hfree hpolls with hready | ⟨task, htask, hid'⟩
      · rw [lowerReady_iff hid, hnone] at hready
        cases hready
      · exact hqueue task htask (Option.some.inj (hid'.symm.trans hid))
  · have hmain := hinv.main
    unfold MainOk at hmain
    cases hm : s.main with
    | begin =>
      refine Or.inr (Or.inl ?_)
      simp only [machine, State.quickSort, hm]
      split <;> exact ⟨_, rfl⟩
    | sorting => exact absurd (hempty 0) (hinv.sorting_iff.mp hm)
    | destroying r =>
      refine Or.inr (Or.inl ?_)
      simp only [machine, State.quickSort, hm]
      exact ⟨_, rfl⟩
    | returned r => exact Or.inl ⟨r, rfl⟩
    | joining r k =>
      simp only [hm] at hmain
      obtain ⟨-, hborn, -, -, hpos⟩ := hmain
      refine Or.inr ?_
      by_cases hk : k ≤ workers
      · by_cases hexited : s.worker k = .exited
        · refine Or.inl ?_
          simp only [machine, State.quickSort, hm, if_pos hk, if_pos hexited]
          exact ⟨_, rfl⟩
        · refine Or.inr ⟨r, k, ?_⟩
          simp only [machine, hempty k, State.workerThread]
          cases hw : s.worker k with
          | absent => exact absurd hw (hborn k hpos hk)
          | exited => exact absurd hw hexited
          | test => exact ⟨_, by trivial, rfl⟩
          | call => cases s.queue <;> exact ⟨_, by trivial, rfl⟩
      · refine Or.inl ?_
        simp only [machine, State.quickSort, hm, if_neg hk]
        exact ⟨_, rfl⟩

/-- A sort of two elements that polls for its lower part, with one worker. -/
theorem polling_never_stuck :
    ∃ s : State ℕ, (machine 1 [2, 1]).Reachable s ∧ s.main = .sorting ∧ s.queue ≠ [] ∧
      ¬ ∀ t f below, s.stack t = f :: below → WaitsForBuried s f := by
  have hrun : ∃ s : State ℕ, (machine 1 [2, 1]).run (machine 1 [2, 1]).init
      [.main, .next 0, .partition 0 [1] [], .next 0, .next 0, .next 0, .next 0, .next 0,
        .next 0] = some s ∧ s.main = .sorting ∧ s.queue = [⟨0, [1]⟩] :=
    ⟨_, rfl, rfl, rfl⟩
  obtain ⟨s, hs, hmain, hqueue⟩ := hrun
  have hreach := Machine.reachable_of_run _ hs
  obtain ⟨hbusy, hgo, -⟩ := never_stuck hreach
  exact ⟨s, hreach, hmain, hqueue ▸ nofun, (hgo ⟨0, hbusy hmain⟩).2⟩

end Sundries.QuickSort
