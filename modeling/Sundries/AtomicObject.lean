import Mathlib.Data.List.Perm.Subperm
import Sundries.Machine
import Sundries.Tally

/-!
# Atomic objects

A `SequentialObject` says what each operation does when operations run one at a
time; `apply` is `none` where an operation has to wait.  The machine `atomic`
is the concurrent object in which every operation takes effect in one
indivisible step between its invocation and its response.  A concurrent
implementation is linearizable when it is simulated by that machine: the
`linearize` events of the simulation are its linearization points, and `log`
lists the operations in their order.

`container` is the object every queue and stack here refines: `place` says
where a pushed value goes, and a pop takes the first one.
-/
namespace Sundries

/-- What each operation does to the state and what it answers, operations running
one at a time. -/
structure SequentialObject (State Op Res : Type*) where
  init : State
  apply : State → Op → Option (State × Res)

namespace SequentialObject
variable {State Op Res : Type*} (obj : SequentialObject State Op Res)

/-- The operations `h`, with the answers recorded, lead from `x` to `y`. -/
def Legal : State → List (Op × Res) → State → Prop
  | x, [], y => x = y
  | x, (op, r) :: h, y => ∃ x', obj.apply x op = some (x', r) ∧ Legal x' h y

theorem Legal.concat {obj : SequentialObject State Op Res} {x y z : State} {h : List (Op × Res)}
    {op : Op} {r : Res} (hl : obj.Legal x h y) (ha : obj.apply y op = some (z, r)) :
    obj.Legal x (h ++ [(op, r)]) z := by
  induction h generalizing x with
  | nil =>
    cases hl
    exact ⟨z, ha, rfl⟩
  | cons e h ih =>
    obtain ⟨x', hx, hrest⟩ := hl
    exact ⟨x', hx, ih hrest⟩

/-- The answers to the operations `ops`, from `x` on; `none` if one of them has none. -/
def answers : State → List Op → Option (List Res)
  | _, [] => some []
  | x, op :: ops => (obj.apply x op).bind fun y => (answers y.1 ops).map (y.2 :: ·)

variable {obj}

theorem answers_cons {x x' : State} {op : Op} {r : Res} {ops : List Op}
    (h : obj.apply x op = some (x', r)) :
    obj.answers x (op :: ops) = (obj.answers x' ops).map (r :: ·) := by
  rw [answers, h, Option.bind_some]

theorem answers_cons_none {x : State} {op : Op} {ops : List Op} (h : obj.apply x op = none) :
    obj.answers x (op :: ops) = none := by
  rw [answers, h, Option.bind_none]

end SequentialObject

/-- Where a thread is in its current operation. -/
inductive Phase (Op Res : Type*) where
  | idle
  | pending (op : Op)
  | answered (op : Op) (r : Res)
  deriving DecidableEq

/-- The events of an operation: it is invoked, takes effect, and responds. -/
inductive Action (Tid Op Res : Type*) where
  | invoke (t : Tid) (op : Op)
  | linearize (t : Tid)
  | respond (t : Tid) (r : Res)
  deriving DecidableEq

/-- The object, the threads' phases, and the operations that have taken effect,
in order, each with its thread and its answer. -/
structure AtomicState (Tid State Op Res : Type*) where
  object : State
  phase : Tid → Phase Op Res
  log : List (Tid × Op × Res)

section Atomic
variable {Tid State Op Res : Type*} [DecidableEq Tid] (obj : SequentialObject State Op Res)

open scoped Classical in
/-- The atomic object. -/
noncomputable def atomic : Machine (AtomicState Tid State Op Res) (Action Tid Op Res) where
  init := ⟨obj.init, fun _ => .idle, []⟩
  step a
    | .invoke t op =>
      match a.phase t with
      | .idle => some { a with phase := Function.update a.phase t (.pending op) }
      | _ => none
    | .linearize t =>
      match a.phase t with
      | .pending op =>
        (obj.apply a.object op).map fun (x, r) =>
          ⟨x, Function.update a.phase t (.answered op r), a.log ++ [(t, op, r)]⟩
      | _ => none
    | .respond t r =>
      match a.phase t with
      | .answered _ r' =>
        if r' = r then some { a with phase := Function.update a.phase t .idle } else none
      | _ => none

namespace AtomicState
variable (a : AtomicState Tid State Op Res)

/-- The operations that have taken effect, without their threads. -/
def history : List (Op × Res) := a.log.map Prod.snd

/-- The answers of `t`'s operations that have taken effect. -/
def answersOf (t : Tid) : List Res := (a.log.filter fun e => e.1 = t).map fun e => e.2.2

end AtomicState

variable {obj} {a a' : AtomicState Tid State Op Res} {t : Tid}

theorem atomic_invoke {op : Op} (h : a.phase t = .idle) :
    (atomic obj).step a (.invoke t op) =
      some { a with phase := Function.update a.phase t (.pending op) } := by
  simp [atomic, h]

theorem atomic_linearize {op : Op} {x : State} {r : Res} (h : a.phase t = .pending op)
    (ha : obj.apply a.object op = some (x, r)) :
    (atomic obj).step a (.linearize t) =
      some ⟨x, Function.update a.phase t (.answered op r), a.log ++ [(t, op, r)]⟩ := by
  simp [atomic, h, ha]

theorem atomic_respond {op : Op} {r : Res} (h : a.phase t = .answered op r) :
    (atomic obj).step a (.respond t r) =
      some { a with phase := Function.update a.phase t .idle } := by
  simp [atomic, h]

/-- A step that shows no event leaves the atomic object where it is. -/
theorem AtomicState.update_phase_self {ph : Phase Op Res} (h : a.phase t = ph) :
    (⟨a.object, Function.update a.phase t ph, a.log⟩ : AtomicState Tid State Op Res) = a := by
  rw [← h, Function.update_eq_self]

/-- **What a step of the atomic object does**, its condition included. -/
theorem atomic_step_cases {l : Action Tid Op Res} (h : (atomic obj).step a l = some a') :
    (∃ t op, l = .invoke t op ∧ a.phase t = .idle ∧
        a' = { a with phase := Function.update a.phase t (.pending op) }) ∨
      (∃ t op x r, l = .linearize t ∧ a.phase t = .pending op ∧
        obj.apply a.object op = some (x, r) ∧
        a' = ⟨x, Function.update a.phase t (.answered op r), a.log ++ [(t, op, r)]⟩) ∨
      ∃ t op r, l = .respond t r ∧ a.phase t = .answered op r ∧
        a' = { a with phase := Function.update a.phase t .idle } := by
  cases l with
  | invoke t op =>
    cases hp : a.phase t with
    | idle =>
      rw [atomic_invoke hp, Option.some.injEq] at h
      exact Or.inl ⟨t, op, rfl, hp, h.symm⟩
    | _ => simp [atomic, hp] at h
  | linearize t =>
    cases hp : a.phase t with
    | pending op =>
      simp only [atomic, hp, Option.map_eq_some_iff] at h
      obtain ⟨⟨x, r⟩, hx, rfl⟩ := h
      exact Or.inr (Or.inl ⟨t, op, x, r, rfl, hp, hx, rfl⟩)
    | _ => simp [atomic, hp] at h
  | respond t r =>
    cases hp : a.phase t with
    | answered op r' =>
      simp only [atomic, hp] at h
      obtain ⟨rfl, ⟨⟩⟩ := Option.ite_none_right_eq_some.mp h
      exact Or.inr (Or.inr ⟨t, op, r', rfl, hp, rfl⟩)
    | _ => simp [atomic, hp] at h

theorem atomic_object_invoke {op : Op} (h : (atomic obj).step a (.invoke t op) = some a') :
    a'.object = a.object := by
  rcases atomic_step_cases h with ⟨u, op', -, -, rfl⟩ | ⟨u, op', x, r, hl, -⟩ | ⟨u, op', r, hl, -⟩
  · rfl
  · cases hl
  · cases hl

theorem atomic_object_respond {r : Res} (h : (atomic obj).step a (.respond t r) = some a') :
    a'.object = a.object := by
  rcases atomic_step_cases h with ⟨u, op', hl, -⟩ | ⟨u, op', x, r, hl, -⟩ | ⟨u, op', r, -, -, rfl⟩
  · cases hl
  · cases hl
  · rfl

theorem atomic_object_linearize {op : Op} (hp : a.phase t = .pending op)
    (h : (atomic obj).step a (.linearize t) = some a') :
    ∃ r, obj.apply a.object op = some (a'.object, r) := by
  rcases atomic_step_cases h with ⟨u, op', hl, -⟩ | ⟨u, op', x, r, hl, hp', ha, rfl⟩ |
    ⟨u, op', r, hl, -⟩
  · cases hl
  · cases hl
    cases hp.symm.trans hp'
    exact ⟨r, ha⟩
  · cases hl

/-- The operations take effect as the sequential object prescribes. -/
theorem atomic_legal (h : (atomic obj).Reachable a) : obj.Legal obj.init a.history a.object := by
  refine h.invariant (P := fun a => obj.Legal obj.init a.history a.object) ?_ ?_
  · exact rfl
  intro a l a' hl hstep
  rcases atomic_step_cases hstep with
    ⟨t, op, -, -, rfl⟩ | ⟨t, op, x, r, -, -, hx, rfl⟩ | ⟨t, op, r, -, -, rfl⟩
  · exact hl
  · simpa [AtomicState.history] using hl.concat hx
  · exact hl

/-- The answers thread `t` has been given in the events `τ`. -/
def responsesOf (t : Tid) (τ : List (Action Tid Op Res)) : List Res :=
  τ.filterMap fun e => match e with
    | .respond u r => if u = t then some r else none
    | _ => none

/-- The answer a thread is about to give. -/
def Phase.answer : Phase Op Res → List Res
  | .answered _ r => [r]
  | _ => []

/-- **Responses are the answers of the log**: the responses of a thread are, in
order, the answers its operations got when they took effect; only that of its
current operation may still be outstanding. -/
theorem atomic_responses {τ : List (Action Tid Op Res)}
    (h : (atomic obj).run (atomic obj).init τ = some a) (t : Tid) :
    a.answersOf t = responsesOf t τ ++ (a.phase t).answer := by
  refine Machine.run_induction (atomic obj)
    (P := fun τ a => a.answersOf t = responsesOf t τ ++ (a.phase t).answer) rfl ?_ h
  intro τ a l a' ih hstep
  rcases atomic_step_cases hstep with
    ⟨u, op, rfl, hp, rfl⟩ | ⟨u, op, x, r, rfl, hp, -, rfl⟩ | ⟨u, op, r, rfl, hp, rfl⟩
  · by_cases hu : t = u
    · subst u
      simpa [AtomicState.answersOf, responsesOf, hp, Phase.answer] using ih
    · simpa [AtomicState.answersOf, responsesOf, hu] using ih
  · by_cases hu : t = u
    · subst u
      simpa [AtomicState.answersOf, responsesOf, hp, Phase.answer] using ih
    · simpa [AtomicState.answersOf, responsesOf, hu, Ne.symm hu] using ih
  · by_cases hu : t = u
    · subst u
      simpa [AtomicState.answersOf, responsesOf, hp, Phase.answer] using ih
    · simpa [AtomicState.answersOf, responsesOf, hu, Ne.symm hu] using ih

end Atomic

/-! ## Containers -/

/-- A value is put in, or one is taken out; a pop that waits has no effect on an
empty container. -/
inductive ContainerOp (α : Type*) where
  | push (v : α)
  | pop (waits : Bool)
  deriving DecidableEq

/-- A push answers nothing, a pop the value taken out, if any. -/
inductive Reply (α : Type*) where
  | pushed
  | popped (v : Option α)
  deriving DecidableEq

variable {α : Type*}

/-- The container whose pushes insert by `place` and whose pops take the first
value. -/
def container (place : List α → α → List α) :
    SequentialObject (List α) (ContainerOp α) (Reply α) where
  init := []
  apply
    | q, .push v => some (place q v, .pushed)
    | [], .pop waits => if waits then none else some ([], .popped none)
    | v :: q, .pop _ => some (q, .popped (some v))

/-- First in, first out. -/
def fifo : SequentialObject (List α) (ContainerOp α) (Reply α) := container fun q v => q ++ [v]

/-- Last in, first out. -/
def lifo : SequentialObject (List α) (ContainerOp α) (Reply α) := container fun q v => v :: q

/-- The values pushed, in order. -/
def pushes (h : List (ContainerOp α × Reply α)) : List α :=
  h.filterMap fun e => match e.1 with
    | .push v => some v
    | .pop _ => none

/-- The values popped, in order. -/
def pops (h : List (ContainerOp α × Reply α)) : List α :=
  h.filterMap fun e => match e.2 with
    | .popped v => v
    | .pushed => none

section Container
variable {place : List α → α → List α}

/-- **What a container operation does.** -/
theorem container_apply_cases {q q' : List α} {op : ContainerOp α} {r : Reply α}
    (h : (container place).apply q op = some (q', r)) :
    (∃ v, op = .push v ∧ r = .pushed ∧ q' = place q v) ∨
      (q = [] ∧ op = .pop false ∧ r = .popped none ∧ q' = []) ∨
      ∃ v waits, op = .pop waits ∧ r = .popped (some v) ∧ q = v :: q' := by
  cases op with
  | push v =>
    simp only [container, Option.some.injEq, Prod.mk.injEq] at h
    exact Or.inl ⟨v, rfl, h.2.symm, h.1.symm⟩
  | pop waits =>
    cases q with
    | nil =>
      cases waits <;> simp [container] at h
      exact Or.inr (Or.inl ⟨rfl, rfl, h.2.symm, h.1⟩)
    | cons v q =>
      simp only [container, Option.some.injEq, Prod.mk.injEq] at h
      exact Or.inr (Or.inr ⟨v, waits, rfl, h.2.symm, by rw [h.1]⟩)

/-- Wherever pushed values go, what was there and what is pushed is what is
popped and what stays, values counted as often as they occur. -/
theorem container_conserves (hplace : ∀ q v, (place q v).Perm (v :: q)) {q q' : List α}
    {h : List (ContainerOp α × Reply α)} (hl : (container place).Legal q h q') :
    (q ++ pushes h).Perm (pops h ++ q') := by
  induction h generalizing q with
  | nil =>
    cases hl
    simp [pushes, pops]
  | cons e h ih =>
    obtain ⟨op, r⟩ := e
    obtain ⟨x, hx, hrest⟩ := hl
    have hperm := ih hrest
    rcases container_apply_cases hx with
      ⟨v, rfl, rfl, rfl⟩ | ⟨rfl, rfl, rfl, rfl⟩ | ⟨v, waits, rfl, rfl, rfl⟩
    · have hput : (q ++ v :: pushes h).Perm (place q v ++ pushes h) :=
        List.perm_middle.trans ((hplace q v).symm.append_right _)
      simpa [pushes, pops] using hput.trans hperm
    · simpa [pushes, pops] using hperm
    · simpa [pushes, pops] using hperm.cons v

end Container

/-- **Queues deliver in order**: the values popped, followed by the values still
there, are the values that were there followed by the values pushed. -/
theorem fifo_order {q q' : List α} {h : List (ContainerOp α × Reply α)}
    (hl : fifo.Legal q h q') : q ++ pushes h = pops h ++ q' := by
  induction h generalizing q with
  | nil =>
    cases hl
    simp [pushes, pops]
  | cons e h ih =>
    obtain ⟨op, r⟩ := e
    obtain ⟨x, hx, hrest⟩ := hl
    have heq := ih hrest
    rcases container_apply_cases hx with
      ⟨v, rfl, rfl, rfl⟩ | ⟨rfl, rfl, rfl, rfl⟩ | ⟨v, waits, rfl, rfl, rfl⟩
    · simpa [pushes, pops] using heq
    · simpa [pushes, pops] using heq
    · simpa [pushes, pops] using heq

theorem lifo_conserves {q q' : List α} {h : List (ContainerOp α × Reply α)}
    (hl : lifo.Legal q h q') : (q ++ pushes h).Perm (pops h ++ q') :=
  container_conserves (fun _ _ => List.Perm.refl _) hl

section Delivered
variable {Tid State : Type*} [DecidableEq Tid]

/-- The values the responses in `τ` hand to their callers, in order. -/
def delivered (τ : List (Action Tid (ContainerOp α) (Reply α))) : List α :=
  τ.filterMap fun e => match e with
    | .respond _ (.popped v) => v
    | _ => none

/-- The thread is about to hand `v` to its caller. -/
def delivers [DecidableEq α] (v : α) : Phase (ContainerOp α) (Reply α) → Bool
  | .answered _ (.popped (some w)) => w = v
  | _ => false

variable [Fintype Tid] {obj : SequentialObject State (ContainerOp α) (Reply α)}
  {a : AtomicState Tid State (ContainerOp α) (Reply α)}

/-- Every popped value has been handed to its caller or is about to be. -/
theorem count_delivered [DecidableEq α] {τ : List (Action Tid (ContainerOp α) (Reply α))}
    (h : (atomic obj).run (atomic obj).init τ = some a) (v : α) :
    (delivered τ).count v + tally a.phase (delivers v) = (pops a.history).count v := by
  refine Machine.run_induction (atomic obj) (P := fun τ a =>
    (delivered τ).count v + tally a.phase (delivers v) = (pops a.history).count v) ?_ ?_ h
  · simp [delivered, atomic, AtomicState.history, pops, tally_eq_zero, delivers]
  intro τ a l a' ih hstep
  rcases atomic_step_cases hstep with
    ⟨u, op, rfl, hp, rfl⟩ | ⟨u, op, x, r, rfl, hp, -, rfl⟩ | ⟨u, op, r, rfl, hp, rfl⟩
  · have hsame : tally (Function.update a.phase u (.pending op)) (delivers v) =
        tally a.phase (delivers v) := tally_update_same (by simp [hp, delivers])
    simpa [delivered, AtomicState.history, hsame] using ih
  · have hmove := tally_update a.phase u (.answered op r) (delivers v)
    simp only [hp, delivers, Bool.toNat_false, Nat.add_zero] at hmove
    rcases r with _ | _ | w
    · simpa [delivered, AtomicState.history, pops, hmove, delivers] using ih
    · simpa [delivered, AtomicState.history, pops, hmove, delivers] using ih
    · simp [delivered, AtomicState.history, pops, hmove, List.count_cons] at ih ⊢
      by_cases hw : w = v <;> simp [hw] <;> omega
  · have hmove := tally_update a.phase u .idle (delivers v)
    rw [hp] at hmove
    rcases r with _ | _ | w
    · simp [delivers] at hmove
      simpa [delivered, AtomicState.history, hmove] using ih
    · simp [delivers] at hmove
      simpa [delivered, AtomicState.history, hmove] using ih
    · simp [delivers] at hmove
      simp [delivered, AtomicState.history, List.count_cons] at ih ⊢
      by_cases hw : w = v <;> simp [hw] at hmove ⊢ <;> omega

/-- No popped value is handed out more often than it was popped. -/
theorem delivered_subperm {τ : List (Action Tid (ContainerOp α) (Reply α))}
    (h : (atomic obj).run (atomic obj).init τ = some a) :
    (delivered τ).Subperm (pops a.history) := by
  classical
  rw [List.subperm_ext_iff]
  intro v _
  have := count_delivered h v
  omega

end Delivered

/-! ## LIFO runs -/

/-- The events `τ` are a run of the atomic stack to `a`: the operations in the
order of their linearization points are a legal history of a stack, the
responses are their answers, and so no value is handed out more often than it
was pushed. -/
structure LifoRun {Tid : Type*} [DecidableEq Tid]
    (τ : List (Action Tid (ContainerOp α) (Reply α)))
    (a : AtomicState Tid (List α) (ContainerOp α) (Reply α)) : Prop where
  run : (atomic lifo).run (atomic lifo).init τ = some a
  legal : lifo.Legal [] a.history a.object
  responses : ∀ t, a.answersOf t = responsesOf t τ ++ (a.phase t).answer
  subperm : (delivered τ).Subperm (pushes a.history)

section Lifo
variable {Tid : Type*} [DecidableEq Tid]
  {a : AtomicState Tid (List α) (ContainerOp α) (Reply α)} {t : Tid} {v : α} {q : List α}

/-- A push that takes effect and returns at once. -/
theorem lifo_push (h : a.phase t = .pending (.push v)) :
    (atomic lifo).run a [.linearize t, .respond t .pushed] =
      some ⟨v :: a.object, Function.update a.phase t .idle, a.log ++ [(t, .push v, .pushed)]⟩ := by
  have happ : lifo.apply a.object (.push v) = some (v :: a.object, .pushed) := rfl
  refine (Machine.run_cons_eq_some _).mpr ⟨_, atomic_linearize h happ, ?_⟩
  rw [Machine.run_singleton, atomic_respond (Function.update_self t _ _), Function.update_idem]

theorem lifo_pop (h : a.phase t = .pending (.pop false)) (hobj : a.object = v :: q) :
    (atomic lifo).run a [.linearize t] =
      some ⟨q, Function.update a.phase t (.answered (.pop false) (.popped (some v))),
        a.log ++ [(t, .pop false, .popped (some v))]⟩ := by
  have happ : lifo.apply a.object (.pop false) = some (q, .popped (some v)) := by rw [hobj]; rfl
  rw [Machine.run_singleton, atomic_linearize h happ]

theorem lifo_pop_empty (h : a.phase t = .pending (.pop false)) (hobj : a.object = []) :
    (atomic lifo).run a [.linearize t] =
      some ⟨[], Function.update a.phase t (.answered (.pop false) (.popped none)),
        a.log ++ [(t, .pop false, .popped none)]⟩ := by
  have happ : lifo.apply a.object (.pop false) = some ([], .popped none) := by rw [hobj]; rfl
  rw [Machine.run_singleton, atomic_linearize h happ]

end Lifo

theorem LifoRun.of_run {Tid : Type*} [DecidableEq Tid] [Fintype Tid]
    {τ : List (Action Tid (ContainerOp α) (Reply α))}
    {a : AtomicState Tid (List α) (ContainerOp α) (Reply α)}
    (h : (atomic lifo).run (atomic lifo).init τ = some a) : LifoRun τ a := by
  have hlegal : lifo.Legal [] a.history a.object := atomic_legal (Machine.reachable_of_run _ h)
  refine ⟨h, hlegal, atomic_responses h, (delivered_subperm h).trans ?_⟩
  -- what has been popped is part of what has been pushed
  exact (List.sublist_append_left _ _).subperm.trans (lifo_conserves hlegal).symm.subperm

end Sundries
