import Mathlib.Data.Fintype.Basic
import Sundries.AtomicObject
import Sundries.Segment

/-!
# `threadsafe_queue`

The waitable queue with two locks.  The nodes form a chain from `_head`, owned
through the `unique_ptr`s `_head` and `next`, to the dummy node `_tail` points
to.  A push fills the dummy node and appends a new one under `_tail_mutex`, then
notifies the condition variable; a pop holds `_head_mutex` while it compares
`_head` with `get_tail()` and, later, takes the head node out.

Everything done under `_tail_mutex` is one step here, so that mutex needs no
state of its own.  The steps under `_head_mutex` are: acquiring it, evaluating
`_head` against `get_tail()`, taking the head node out and releasing it.  A
waiting pop whose predicate is false falls asleep, releasing the mutex, in a
further step.  After a pop has let go of `_head_mutex` it still owns the node it
took out, reads its data and destroys it.

A dereference of a null pointer, or of a pointer to a destroyed node, ends the
thread in the program point `fault`.
-/
namespace Sundries.ThreadsafeQueue

/-- Addresses of nodes; a destroyed node's address may be used again. -/
abbrev Addr := Nat

/-- `node`, its two pointers null or not. -/
structure Node (α : Type) where
  data : Option α
  next : Option Addr
  deriving DecidableEq

/-- The four ways to take a value out. -/
inductive PopCall where
  | tryPop
  | tryPopRef
  | waitAndPop
  | waitAndPopRef
  deriving DecidableEq

/-- The call waits for a value. -/
def PopCall.waits : PopCall → Bool
  | .tryPop | .tryPopRef => false
  | .waitAndPop | .waitAndPopRef => true

/-- The call moves the value out of the head node, under the lock, into its
reference parameter. -/
def PopCall.byRef : PopCall → Bool
  | .tryPop | .waitAndPop => false
  | .tryPopRef | .waitAndPopRef => true

/-- Where a thread is in the member functions. -/
inductive Pc (α : Type) where
  | idle
  /-- `push` has made its value and the new dummy node `n`; the update of the
  tail comes next. -/
  | updateTail (v : α) (n : Addr)
  /-- The tail is updated; `_cond.notify_one()` comes next. -/
  | notify
  /-- About to lock `_head_mutex`: at the start of a pop, or woken by a
  notification. -/
  | lockHead (c : PopCall)
  /-- Holds `_head_mutex`; `_head` is about to be compared with `get_tail()`. -/
  | evaluate (c : PopCall)
  /-- The predicate was false; `_cond.wait` is about to release the mutex and
  fall asleep. -/
  | fallAsleep (c : PopCall)
  /-- Asleep on `_cond`, not notified. -/
  | asleep (c : PopCall)
  /-- Holds `_head_mutex`, the comparison found a node to take. -/
  | popHead (c : PopCall)
  /-- Owns the node `old`; `moved` is the value already moved out of it. -/
  | finish (c : PopCall) (old : Addr) (moved : Option α)
  /-- A `try_pop` that found no node. -/
  | returnEmpty (c : PopCall)
  | fault
  deriving DecidableEq

/-- The nodes, the queue's fields and the threads' program points. -/
structure State (Tid α : Type) where
  heap : Addr → Option (Node α)
  /-- `_head`. -/
  head : Option Addr
  /-- `_tail`. -/
  tail : Option Addr
  /-- Who holds `_head_mutex`. -/
  headMutex : Option Tid
  pc : Tid → Pc α

/-- The steps; `push` is labelled with the address of its new dummy node and
`notifyOne` with the thread it wakes, if any. -/
inductive Label (Tid α : Type) where
  | push (t : Tid) (v : α) (n : Addr)
  | updateTail (t : Tid)
  | notifyOne (t : Tid) (woken : Option Tid)
  | pop (t : Tid) (c : PopCall)
  | lockHead (t : Tid)
  | evaluate (t : Tid)
  | fallAsleep (t : Tid)
  | popHead (t : Tid)
  | finish (t : Tid)
  deriving DecidableEq

variable {Tid α : Type}

/-- The node a pointer leads to, with its address. -/
def deref (heap : Addr → Option (Node α)) (p : Option Addr) : Option (Addr × Node α) :=
  p.bind fun a => (heap a).map fun nd => (a, nd)

/-- The pointer in `next` of the node at `a`. -/
def nextAt (heap : Addr → Option (Node α)) (a : Addr) : Option Addr :=
  (heap a).bind Node.next

/-- The value `data` of the node at `a` points to. -/
def dataAt (heap : Addr → Option (Node α)) (a : Addr) : Option α :=
  (heap a).bind Node.data

/-- The thread sleeps without having been notified. -/
def Pc.isAsleep : Pc α → Bool
  | .asleep _ => true
  | _ => false

variable [DecidableEq Tid]

namespace State

/-- Thread `t` goes to `pc`. -/
def goto (s : State Tid α) (t : Tid) (pc : Pc α) : State Tid α :=
  { s with pc := Function.update s.pc t pc }

/-- `push` up to its lock: the value and the new dummy node are made. -/
def push (s : State Tid α) (t : Tid) (v : α) (n : Addr) : State Tid α :=
  { s with heap := Function.update s.heap n (some ⟨none, none⟩) }.goto t (.updateTail v n)

/-- The critical section of `push`: set the data, link the new dummy node, make
it the tail. -/
def updateTail (s : State Tid α) (t : Tid) (v : α) (n : Addr) : State Tid α :=
  match deref s.heap s.tail with
  | none => s.goto t .fault
  | some (a, _) =>
    { s with heap := Function.update s.heap a (some ⟨some v, some n⟩), tail := some n }.goto t
      .notify

/-- The comparison of `_head` with `get_tail()`, and what follows it: a call
that waits falls asleep next, a `try_pop` releases the lock with no node. -/
def evaluate (s : State Tid α) (t : Tid) (c : PopCall) : State Tid α :=
  if s.head = s.tail then
    if c.waits then s.goto t (.fallAsleep c)
    else { s with headMutex := none }.goto t (.returnEmpty c)
  else s.goto t (.popHead c)

/-- `value = std::move(*_head->data)` where the call has a reference parameter,
then `pop_head`, then the release of `_head_mutex`. -/
def popHead (s : State Tid α) (t : Tid) (c : PopCall) : State Tid α :=
  match deref s.heap s.head with
  | none => s.goto t .fault
  | some (old, nd) =>
    if c.byRef ∧ nd.data.isNone then s.goto t .fault
    else
      { s with
        heap := Function.update s.heap old (some ⟨nd.data, none⟩)
        head := nd.next
        headMutex := none }.goto t (.finish c old (if c.byRef then nd.data else none))

/-- What the call of `t` hands back: the value moved into the reference, or
`old->data`. -/
def result (s : State Tid α) (t : Tid) : Option α :=
  match s.pc t with
  | .finish c old moved => if c.byRef then moved else dataAt s.heap old
  | _ => none

/-- The pop returns; `old` goes out of scope and its node is destroyed. -/
def returnOld (s : State Tid α) (t : Tid) (old : Addr) : State Tid α :=
  { s with heap := Function.update s.heap old none }.goto t .idle

end State

/-- The queue with any number of threads. -/
def machine [Fintype Tid] : Machine (State Tid α) (Label Tid α) where
  init := ⟨fun a => if a = 0 then some ⟨none, none⟩ else none, some 0, some 0, none,
    fun _ => .idle⟩
  step s
    | .push t v n =>
      match s.pc t, s.heap n with
      | .idle, none => some (s.push t v n)
      | _, _ => none
    | .updateTail t =>
      match s.pc t with
      | .updateTail v n => some (s.updateTail t v n)
      | _ => none
    | .notifyOne t woken =>
      match s.pc t, woken with
      | .notify, some u =>
        match s.pc u with
        | .asleep c => some ((s.goto t .idle).goto u (.lockHead c))
        | _ => none
      | .notify, none =>
        if ∀ u, (s.pc u).isAsleep = false then some (s.goto t .idle) else none
      | _, _ => none
    | .pop t c =>
      match s.pc t with
      | .idle => some (s.goto t (.lockHead c))
      | _ => none
    | .lockHead t =>
      match s.pc t, s.headMutex with
      | .lockHead c, none => some ({ s with headMutex := some t }.goto t (.evaluate c))
      | _, _ => none
    | .evaluate t =>
      match s.pc t with
      | .evaluate c => some (s.evaluate t c)
      | _ => none
    | .fallAsleep t =>
      match s.pc t with
      | .fallAsleep c => some ({ s with headMutex := none }.goto t (.asleep c))
      | _ => none
    | .popHead t =>
      match s.pc t with
      | .popHead c => some (s.popHead t c)
      | _ => none
    | .finish t =>
      match s.pc t with
      | .finish _ old _ => some (s.returnOld t old)
      | .returnEmpty _ => some (s.goto t .idle)
      | _ => none

/-- What each step asks of the state, and where it leads. -/
inductive Moves (s : State Tid α) : Label Tid α → State Tid α → Prop
  | push (t : Tid) (v : α) (n : Addr) (hpc : s.pc t = .idle) (hn : s.heap n = none) :
    Moves s (.push t v n) (s.push t v n)
  | updateTail (t : Tid) (v : α) (n : Addr) (hpc : s.pc t = .updateTail v n) :
    Moves s (.updateTail t) (s.updateTail t v n)
  | notifyOne (t u : Tid) (c : PopCall) (hpc : s.pc t = .notify) (hu : s.pc u = .asleep c) :
    Moves s (.notifyOne t (some u)) ((s.goto t .idle).goto u (.lockHead c))
  | notifyNone (t : Tid) (hpc : s.pc t = .notify) (hnone : ∀ u, (s.pc u).isAsleep = false) :
    Moves s (.notifyOne t none) (s.goto t .idle)
  | pop (t : Tid) (c : PopCall) (hpc : s.pc t = .idle) : Moves s (.pop t c) (s.goto t (.lockHead c))
  | lockHead (t : Tid) (c : PopCall) (hpc : s.pc t = .lockHead c) (hfree : s.headMutex = none) :
    Moves s (.lockHead t) ({ s with headMutex := some t }.goto t (.evaluate c))
  | evaluate (t : Tid) (c : PopCall) (hpc : s.pc t = .evaluate c) :
    Moves s (.evaluate t) (s.evaluate t c)
  | fallAsleep (t : Tid) (c : PopCall) (hpc : s.pc t = .fallAsleep c) :
    Moves s (.fallAsleep t) ({ s with headMutex := none }.goto t (.asleep c))
  | popHead (t : Tid) (c : PopCall) (hpc : s.pc t = .popHead c) :
    Moves s (.popHead t) (s.popHead t c)
  | finish (t : Tid) (c : PopCall) (old : Addr) (moved : Option α)
    (hpc : s.pc t = .finish c old moved) : Moves s (.finish t) (s.returnOld t old)
  | returnEmpty (t : Tid) (c : PopCall) (hpc : s.pc t = .returnEmpty c) :
    Moves s (.finish t) (s.goto t .idle)

theorem moves_of_step [Fintype Tid] {s s' : State Tid α} {lab : Label Tid α}
    (hstep : machine.step s lab = some s') : Moves s lab s' := by
  cases lab with
  | notifyOne t woken =>
    simp only [machine] at hstep
    split at hstep
    · next u hpc =>
      split at hstep
      · next c hu =>
        cases hstep
        exact .notifyOne t u c hpc hu
      · cases hstep
    · next hpc =>
      obtain ⟨hnone, ⟨⟩⟩ := Option.ite_none_right_eq_some.mp hstep
      exact .notifyNone t hpc hnone
    · cases hstep
  | push t v n =>
    simp only [machine] at hstep
    split at hstep
    · next hpc hn =>
      cases hstep
      exact .push t v n hpc hn
    · cases hstep
  | updateTail t =>
    simp only [machine] at hstep
    split at hstep
    · next v n hpc =>
      cases hstep
      exact .updateTail t v n hpc
    · cases hstep
  | pop t c =>
    simp only [machine] at hstep
    split at hstep
    · next hpc =>
      cases hstep
      exact .pop t c hpc
    · cases hstep
  | lockHead t =>
    simp only [machine] at hstep
    split at hstep
    · next c hpc hfree =>
      cases hstep
      exact .lockHead t c hpc hfree
    · cases hstep
  | evaluate t =>
    simp only [machine] at hstep
    split at hstep
    · next c hpc =>
      cases hstep
      exact .evaluate t c hpc
    · cases hstep
  | fallAsleep t =>
    simp only [machine] at hstep
    split at hstep
    · next c hpc =>
      cases hstep
      exact .fallAsleep t c hpc
    · cases hstep
  | popHead t =>
    simp only [machine] at hstep
    split at hstep
    · next c hpc =>
      cases hstep
      exact .popHead t c hpc
    · cases hstep
  | finish t =>
    simp only [machine] at hstep
    split at hstep
    · next c old moved hpc =>
      cases hstep
      exact .finish t c old moved hpc
    · next c hpc =>
      cases hstep
      exact .returnEmpty t c hpc
    · cases hstep

/-- The events a step shows: the invocation and the return of each call, the
update of the tail and the removal of the head node as the points where a push
and a successful pop take effect, and the comparison that finds no node as the
one where a `try_pop` fails. -/
def event (s : State Tid α) : Label Tid α → List (Action Tid (ContainerOp α) (Reply α))
  | .push t v _ => [.invoke t (.push v)]
  | .updateTail t => [.linearize t]
  | .notifyOne t _ => [.respond t .pushed]
  | .pop t c => [.invoke t (.pop c.waits)]
  | .lockHead _ | .fallAsleep _ => []
  | .evaluate t =>
    match s.pc t with
    | .evaluate c => if s.head = s.tail ∧ c.waits = false then [.linearize t] else []
    | _ => []
  | .popHead t => [.linearize t]
  | .finish t => [.respond t (.popped (s.result t))]

end Sundries.ThreadsafeQueue
