import Sundries.LockFreeStack

/-!
# Popping an empty `lock_free_stack`

A pop that has found `_head` null calls `try_reclaim` all the same.  If it is
alone in `pop` it takes the pending nodes and `delete old_head` has no effect;
but if another thread is inside, it goes on to `chain_pending_nodes(old_head,
old_head)` and writes `last->next` through the null pointer
(`overlappingEmptyPops_nullDeref`).  That branch is the only way to a null
pointer: as long as no pop that has found `_head` null takes it, none is
followed (`harmless_of_emptyPopAlone`).
-/
namespace Sundries.LockFreeStack

variable {Tid α : Type}

/-- No null pointer has been followed, and a pop that has found `_head` null
returns no value. -/
def EmptyPopHarmless (s : State Tid α) : Prop :=
  (∀ t, s.pc t ≠ .nullDeref) ∧ ∀ t f, s.pc t = .ret f → f.oldHead = none → f.res = none

/-- A pop that has found `_head` null is alone in `pop` when it reads the count. -/
def EmptyPopAlone (s : State Tid α) : Label Tid α → Prop
  | .next t _ => ∀ f, s.pc t = .testCount f → f.oldHead = none → s.threadsInPop = 1
  | _ => True

/-- The pop's locals. -/
def Pc.frame : Pc α → Option (Frame α)
  | .testCount f | .exchange f | .decrement f _ | .deleteRead f _ | .deleteNode f _ _ | .walk f _ _
  | .pendLoad f _ _ _ | .pendSetNext f _ _ _ _ | .pendReadNext f _ _ _ | .pendCas f _ _ _ _
  | .leave f | .deleteOld f | .ret f => some f
  | _ => none

/-- About to follow a null pointer, or done so. -/
def Pc.followsNull : Pc α → Bool
  | .pendLoad _ _ _ last | .pendSetNext _ _ _ last _ | .pendReadNext _ _ _ last
  | .pendCas _ _ _ last _ => last = none
  | .nullDeref => true
  | _ => false

/-- What such runs keep of every program point. -/
structure Pc.Sound (pc : Pc α) : Prop where
  notNull : pc.followsNull = false
  empty : ∀ f, pc.frame = some f → f.oldHead = none → f.res = none

variable [DecidableEq Tid] {s s' : State Tid α} {t : Tid}

/-- Thread `t` has moved to a sound program point and nobody else has moved. -/
def MovesSoundly (s : State Tid α) (t : Tid) (s' : State Tid α) : Prop :=
  ∃ x : Pc α, s'.pc = Function.update s.pc t x ∧ x.Sound

theorem sound_useAfterFree : (Pc.useAfterFree : Pc α).Sound := ⟨rfl, nofun⟩

theorem sound_deleteLoop {f : Frame α} (hf : f.oldHead = none → f.res = none) (p : Option Addr) :
    (Pc.deleteLoop f p).Sound := by
  cases p <;> exact ⟨rfl, by rintro g ⟨⟩; exact hf⟩

theorem sound_rechain {f : Frame α} (hf : f.oldHead = none → f.res = none) (p : Option Addr) :
    (Pc.rechain f p).Sound := by
  cases p <;> exact ⟨rfl, by rintro g ⟨⟩; exact hf⟩

theorem sound_popLoop (p : Option Addr) : (Pc.popLoop p : Pc α).Sound := by
  cases p with
  | none => exact ⟨rfl, by rintro g ⟨⟩ _; rfl⟩
  | some old => exact ⟨rfl, nofun⟩

theorem movesSoundly_readNext {a : Addr} {pc : Option Addr → Pc α} (h : ∀ p, (pc p).Sound) :
    MovesSoundly s t (s.readNext t (some a) pc) :=
  State.access_some ⟨_, rfl, sound_useAfterFree⟩ fun _ _ => ⟨_, rfl, h _⟩

theorem movesSoundly_setNext {a : Addr} {q : Option Addr} {pc : Pc α} (h : pc.Sound) :
    MovesSoundly s t (s.setNext t (some a) q pc) :=
  State.access_some ⟨_, rfl, sound_useAfterFree⟩ fun _ _ => ⟨_, rfl, h⟩

theorem movesSoundly_delete {p : Option Addr} {pc : Pc α} (h : pc.Sound) :
    MovesSoundly s t (s.delete t p pc) := by
  cases p with
  | none => exact ⟨_, rfl, h⟩
  | some a =>
    exact State.access_some (P := MovesSoundly s t) ⟨_, rfl, sound_useAfterFree⟩
      fun _ _ => ⟨_, rfl, h⟩

/-- **One step** of a pop or push at a sound program point, whose count test, if
it is one with a null pointer, finds it alone. -/
theorem movesSoundly_next {spurious : Bool} (h : (s.pc t).Sound)
    (hok : EmptyPopAlone s (.next t spurious)) (hstep : s.next t spurious = some s') :
    MovesSoundly s t s' := by
  obtain ⟨hnull, hempty⟩ := h
  cases hpc : s.pc t <;> rw [hpc] at hnull hempty <;> simp only [State.next, hpc] at hstep <;>
    cases hstep
  case pushLoad n => exact ⟨_, rfl, rfl, nofun⟩
  case pushSetNext n q => exact movesSoundly_setNext ⟨rfl, nofun⟩
  case pushReadNext n => exact movesSoundly_readNext fun p => ⟨rfl, nofun⟩
  case pushCas n exp =>
    unfold State.pushCas
    split <;> exact ⟨_, rfl, rfl, nofun⟩
  case popEnter => exact ⟨_, rfl, rfl, nofun⟩
  case popLoad => exact ⟨_, rfl, sound_popLoop _⟩
  case popReadNext old => exact movesSoundly_readNext fun p => ⟨rfl, nofun⟩
  case popCas old next =>
    unfold State.popCas
    split
    · exact ⟨_, rfl, rfl, nofun⟩
    · exact ⟨_, rfl, sound_popLoop _⟩
  case popSwap old =>
    refine State.access_some ⟨_, rfl, sound_useAfterFree⟩ fun nd _ => ⟨_, rfl, rfl, ?_⟩
    rintro f ⟨⟩ ⟨⟩
  case testCount f =>
    unfold State.testCount
    split
    · exact ⟨_, rfl, rfl, hempty⟩
    · -- a null pointer would have been alone
      rename_i hcount
      refine ⟨_, rfl, ?_, hempty⟩
      have hold : f.oldHead ≠ none := fun hold => hcount (hok f hpc hold)
      simpa [Pc.followsNull] using hold
  case exchange f => exact ⟨_, rfl, rfl, hempty⟩
  case decrement f nodes =>
    unfold State.decrement
    split
    · exact ⟨_, rfl, sound_deleteLoop (hempty f rfl) _⟩
    · exact ⟨_, rfl, sound_rechain (hempty f rfl) _⟩
  case deleteRead f n => exact movesSoundly_readNext fun p => ⟨rfl, hempty⟩
  case deleteNode f n next => exact movesSoundly_delete (sound_deleteLoop (hempty f rfl) _)
  case walk f nodes last =>
    refine movesSoundly_readNext fun p => ?_
    cases p <;> exact ⟨rfl, hempty⟩
  case pendLoad f k first last => exact ⟨_, rfl, hnull, hempty⟩
  case pendSetNext f k first last q =>
    cases last with
    | none => cases hnull
    | some a => exact movesSoundly_setNext ⟨rfl, hempty⟩
  case pendReadNext f k first last =>
    cases last with
    | none => cases hnull
    | some a => exact movesSoundly_readNext fun p => ⟨rfl, hempty⟩
  case pendCas f k first last exp =>
    unfold State.pendCas
    split
    · cases k <;> exact ⟨_, rfl, rfl, hempty⟩
    · exact ⟨_, rfl, hnull, hempty⟩
  case leave f => exact ⟨_, rfl, rfl, hempty⟩
  case deleteOld f => exact movesSoundly_delete ⟨rfl, hempty⟩
  case ret f => exact ⟨_, rfl, rfl, nofun⟩

theorem sound_step {lab : Label Tid α} (h : ∀ t, (s.pc t).Sound) (hok : EmptyPopAlone s lab)
    (hstep : machine.step s lab = some s') (t : Tid) : (s'.pc t).Sound := by
  have hmoves : ∃ u, MovesSoundly s u s' := by
    cases lab with
    | push u v n =>
      obtain ⟨-, -, rfl⟩ := step_push hstep
      exact ⟨u, _, rfl, rfl, nofun⟩
    | pop u =>
      obtain ⟨-, rfl⟩ := step_pop hstep
      exact ⟨u, _, rfl, rfl, nofun⟩
    | next u spurious => exact ⟨u, movesSoundly_next (h u) hok hstep⟩
  obtain ⟨u, x, hpc, hx⟩ := hmoves
  rw [hpc]
  by_cases ht : t = u
  · subst t
    simpa using hx
  · simpa [ht] using h t

/-- A pop that has found `_head` null and reads another count than 1 follows the
null pointer two steps later. -/
theorem nullDeref_of_overlap {f : Frame α} (hpc : s.pc t = .testCount f) (hold : f.oldHead = none)
    (hcount : s.threadsInPop ≠ 1) :
    ∃ s', machine.run s [.next t false, .next t false, .next t false] = some s' ∧
      s'.pc t = .nullDeref := by
  simp [Machine.run, machine, State.next, hpc, State.testCount, hcount, State.goto, hold,
    State.setNext, State.access]

/-- **Popping an empty stack is harmless to pops that do not overlap.**  In every
run in which each pop that has found `_head` null is alone in `pop` when it reads
the count, no null pointer is followed and such pops return no value.  The
condition is exact: a pop that is not alone then goes on to follow the null
pointer. -/
theorem harmless_of_emptyPopAlone (s : State Tid α)
    (h : (machine : Machine (State Tid α) (Label Tid α)).ReachableBy EmptyPopAlone s) :
    EmptyPopHarmless s ∧ ∀ t spurious, ¬ EmptyPopAlone s (.next t spurious) →
      ∃ s', machine.run s [.next t false, .next t false, .next t false] = some s' ∧
        ¬ EmptyPopHarmless s' := by
  have hsound : ∀ t, (s.pc t).Sound :=
    h.invariant (P := fun s => ∀ t, (s.pc t).Sound) (fun t => ⟨rfl, nofun⟩)
      fun s lab s' hs hok hstep => sound_step hs hok hstep
  refine ⟨⟨fun t hpc => ?_, fun t f hpc => ?_⟩, fun t spurious hnot => ?_⟩
  · have := (hsound t).notNull
    rw [hpc] at this
    cases this
  · have := (hsound t).empty f
    rw [hpc] at this
    exact this rfl
  · simp only [EmptyPopAlone, not_forall] at hnot
    obtain ⟨f, hpc, hold, hcount⟩ := hnot
    obtain ⟨s', hrun, hnull⟩ := nullDeref_of_overlap hpc hold hcount
    exact ⟨s', hrun, fun hh => hh.1 t hnull⟩

/-- Two pops of an empty stack overlap. -/
def overlappingEmptyPops : List (Label Two Nat) :=
  [.pop .a, .pop .b, .next .a false, .next .b false, .next .a false, .next .a false, .next .a false,
    .next .a false]

theorem overlappingEmptyPops_nullDeref :
    ¬ ∀ s, (machine : Machine (State Two Nat) (Label Two Nat)).Reachable s →
      EmptyPopHarmless s := by
  intro h
  exact (h _ (Machine.reachable_of_run overlappingEmptyPops rfl)).1 .a rfl

/-- A pop of an empty stack, alone. -/
def loneEmptyPop : List (Label Two Nat) := .pop .a :: List.replicate 6 (.next .a false)

theorem loneEmptyPop_harmless :
    ∃ s, (machine : Machine (State Two Nat) (Label Two Nat)).run machine.init loneEmptyPop =
      some s ∧ EmptyPopHarmless s := by
  refine ⟨_, rfl, (harmless_of_emptyPopAlone _
    (Machine.reachableBy_of_run loneEmptyPop ?_ rfl)).1⟩
  refine ⟨trivial, nofun, nofun, fun _ _ _ => rfl, nofun, nofun, nofun, trivial⟩

end Sundries.LockFreeStack
