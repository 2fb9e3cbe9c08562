import Sundries.AtomicObject
import Sundries.Segment

/-!
# `lock_free_stack`

The lock-free stack that counts the threads inside `pop`.  A pop unlinks the
first node and then tries to reclaim it: if it is alone in `pop` it takes the
list of pending nodes, and, if it is still alone when it leaves, deletes them;
otherwise nodes are chained to `_to_be_deleted` for a later pop.

A step is one atomic operation (load, compare-exchange, exchange, increment,
decrement), one read or write of a node's `next`, one access to its `data`, or
one deletion.  A dereference of a null pointer ends the thread in the program
point `nullDeref`; one of a deleted node, or its second deletion, in
`useAfterFree`.  `_threads_in_pop` is a natural number: it counts threads
(`Refines.counted`), so it wraps around only with as many threads as `unsigned`
has values.
-/
namespace Sundries.LockFreeStack

/-- Addresses of nodes; a deleted node's address may be used again. -/
abbrev Addr := Nat

/-- `node`. -/
structure Node (α : Type) where
  data : Option α
  next : Option Addr
  deriving DecidableEq

/-- The locals `old_head` and `res` of `pop`. -/
structure Frame (α : Type) where
  oldHead : Option Addr
  res : Option α
  deriving DecidableEq

/-- What `try_reclaim` does after `chain_pending_nodes`: `--_threads_in_pop`, or
`delete old_head`. -/
inductive After where
  | leave
  | deleteOld
  deriving DecidableEq

/-- Where a thread is: the next thing it does. -/
inductive Pc (α : Type) where
  | idle
  /-- `push`: read `_head` for the new node `n`. -/
  | pushLoad (n : Addr)
  /-- Write `h` to `n->next`. -/
  | pushSetNext (n : Addr) (h : Option Addr)
  /-- Read `n->next`, the value `_head` is expected to have. -/
  | pushReadNext (n : Addr)
  /-- The exchange of `_head`, expected to be `exp`, for `n`. -/
  | pushCas (n : Addr) (exp : Option Addr)
  /-- `pop`: `++_threads_in_pop`. -/
  | popEnter
  | popLoad
  /-- Read `old_head->next`. -/
  | popReadNext (old : Addr)
  /-- The exchange of `_head`, expected to be `old`, for `next`. -/
  | popCas (old : Addr) (next : Option Addr)
  /-- `res.swap(old_head->data)`. -/
  | popSwap (old : Addr)
  /-- `try_reclaim`: compare `_threads_in_pop` with 1. -/
  | testCount (f : Frame α)
  /-- `_to_be_deleted.exchange(nullptr)`. -/
  | exchange (f : Frame α)
  /-- `--_threads_in_pop`, with `nodes_to_delete` taken. -/
  | decrement (f : Frame α) (nodes : Option Addr)
  /-- `delete_nodes`: read `n->next`. -/
  | deleteRead (f : Frame α) (n : Addr)
  /-- Delete `n`, then go on with `next`. -/
  | deleteNode (f : Frame α) (n : Addr) (next : Option Addr)
  /-- `chain_pending_nodes(nodes)`: read `last->next`. -/
  | walk (f : Frame α) (nodes last : Addr)
  /-- `chain_pending_nodes(first, last)`: read `_to_be_deleted`. -/
  | pendLoad (f : Frame α) (k : After) (first last : Option Addr)
  /-- Write `p` to `last->next`. -/
  | pendSetNext (f : Frame α) (k : After) (first last p : Option Addr)
  /-- Read `last->next`, the value `_to_be_deleted` is expected to have. -/
  | pendReadNext (f : Frame α) (k : After) (first last : Option Addr)
  /-- The exchange of `_to_be_deleted`, expected to be `exp`, for `first`. -/
  | pendCas (f : Frame α) (k : After) (first last exp : Option Addr)
  /-- `--_threads_in_pop`, after chaining `old_head`. -/
  | leave (f : Frame α)
  /-- `delete old_head`. -/
  | deleteOld (f : Frame α)
  | ret (f : Frame α)
  | nullDeref
  | useAfterFree
  deriving DecidableEq

/-- The nodes, the stack's fields and the threads' program points. -/
structure State (Tid α : Type) where
  heap : Addr → Option (Node α)
  head : Option Addr
  toBeDeleted : Option Addr
  threadsInPop : Nat
  pc : Tid → Pc α

/-- The steps; `push` is labelled with the address of its node, and `next` says
whether a weak exchange fails spuriously. -/
inductive Label (Tid α : Type) where
  | push (t : Tid) (v : α) (n : Addr)
  | pop (t : Tid)
  | next (t : Tid) (spurious : Bool)
  deriving DecidableEq

variable {Tid α : Type}

/-- The `next` of the node at `a`. -/
def nextAt (heap : Addr → Option (Node α)) (a : Addr) : Option Addr :=
  (heap a).bind Node.next

/-- The value `data` of the node at `a` points to. -/
def dataAt (heap : Addr → Option (Node α)) (a : Addr) : Option α :=
  (heap a).bind Node.data

namespace Pc

/-- The loop of `pop` with `old_head`: it ends with a null pointer. -/
def popLoop : Option Addr → Pc α
  | none => .testCount ⟨none, none⟩
  | some old => .popReadNext old

/-- The loop of `delete_nodes`, and what follows it. -/
def deleteLoop (f : Frame α) : Option Addr → Pc α
  | none => .deleteOld f
  | some n => .deleteRead f n

/-- `chain_pending_nodes(nodes)`, unless there are none. -/
def rechain (f : Frame α) : Option Addr → Pc α
  | none => .deleteOld f
  | some n => .walk f n n

/-- The loop of `chain_pending_nodes(nodes)`, with `last->next` read. -/
def walkLoop (f : Frame α) (nodes last : Addr) : Option Addr → Pc α
  | none => .pendLoad f .deleteOld (some nodes) (some last)
  | some next => .walk f nodes next

def after (f : Frame α) : After → Pc α
  | .leave => .leave f
  | .deleteOld => .deleteOld f

end Pc

variable [DecidableEq Tid]

namespace State

/-- Thread `t` goes to `pc`. -/
def goto (s : State Tid α) (t : Tid) (pc : Pc α) : State Tid α :=
  { s with pc := Function.update s.pc t pc }

/-- `new node(data)`; its `next` is not set. -/
def push (s : State Tid α) (t : Tid) (v : α) (n : Addr) : State Tid α :=
  { s with heap := Function.update s.heap n (some ⟨some v, none⟩) }.goto t (.pushLoad n)

/-- Thread `t` follows the pointer `p`. -/
def access (s : State Tid α) (t : Tid) (p : Option Addr) (k : Addr → Node α → State Tid α) :
    State Tid α :=
  match p with
  | none => s.goto t .nullDeref
  | some a =>
    match s.heap a with
    | none => s.goto t .useAfterFree
    | some nd => k a nd

theorem access_gone {s : State Tid α} {t : Tid} {a : Addr} {k : Addr → Node α → State Tid α}
    (h : s.heap a = none) : s.access t (some a) k = s.goto t .useAfterFree := by
  rw [access, h]

theorem access_node {s : State Tid α} {t : Tid} {a : Addr} {nd : Node α}
    {k : Addr → Node α → State Tid α} (h : s.heap a = some nd) :
    s.access t (some a) k = k a nd := by
  rw [access, h]

/-- An access through a pointer that is not null: either the node is gone, or the
step goes on with it. -/
theorem access_some {s : State Tid α} {t : Tid} {a : Addr} {k : Addr → Node α → State Tid α}
    {P : State Tid α → Prop} (hgone : P (s.goto t .useAfterFree))
    (hnode : ∀ nd, s.heap a = some nd → P (k a nd)) : P (s.access t (some a) k) := by
  cases hnd : s.heap a with
  | none =>
    rw [access_gone hnd]
    exact hgone
  | some nd =>
    rw [access_node hnd]
    exact hnode nd hnd

/-- `p->next` is read. -/
def readNext (s : State Tid α) (t : Tid) (p : Option Addr) (pc : Option Addr → Pc α) :
    State Tid α :=
  s.access t p fun _ nd => s.goto t (pc nd.next)

/-- `q` is written to `p->next`. -/
def setNext (s : State Tid α) (t : Tid) (p q : Option Addr) (pc : Pc α) : State Tid α :=
  s.access t p fun a nd =>
    { s with heap := Function.update s.heap a (some { nd with next := q }) }.goto t pc

/-- `res.swap(old_head->data)`. -/
def swapData (s : State Tid α) (t : Tid) (old : Addr) : State Tid α :=
  s.access t (some old) fun a nd =>
    { s with heap := Function.update s.heap a (some { nd with data := none }) }.goto t
      (.testCount ⟨some old, nd.data⟩)

/-- `delete p`; deleting null has no effect. -/
def delete (s : State Tid α) (t : Tid) (p : Option Addr) (pc : Pc α) : State Tid α :=
  match p with
  | none => s.goto t pc
  | some a => s.access t (some a) fun a _ =>
    { s with heap := Function.update s.heap a none }.goto t pc

/-- `_head.compare_exchange_weak(new_node->next, new_node)`. -/
def pushCas (s : State Tid α) (t : Tid) (n : Addr) (exp : Option Addr) (spurious : Bool) :
    State Tid α :=
  if s.head = exp ∧ spurious = false then { s with head := some n }.goto t .idle
  else s.goto t (.pushSetNext n s.head)

/-- `_head.compare_exchange_weak(old_head, old_head->next)`. -/
def popCas (s : State Tid α) (t : Tid) (old : Addr) (next : Option Addr) (spurious : Bool) :
    State Tid α :=
  if s.head = some old ∧ spurious = false then { s with head := next }.goto t (.popSwap old)
  else s.goto t (Pc.popLoop s.head)

/-- `1 == _threads_in_pop`. -/
def testCount (s : State Tid α) (t : Tid) (f : Frame α) : State Tid α :=
  if s.threadsInPop = 1 then s.goto t (.exchange f)
  else s.goto t (.pendLoad f .leave f.oldHead f.oldHead)

/-- `0 == --_threads_in_pop`, with `nodes_to_delete` taken. -/
def decrement (s : State Tid α) (t : Tid) (f : Frame α) (nodes : Option Addr) : State Tid α :=
  { s with threadsInPop := s.threadsInPop - 1 }.goto t
    (if s.threadsInPop - 1 = 0 then Pc.deleteLoop f nodes else Pc.rechain f nodes)

/-- `_to_be_deleted.compare_exchange_weak(last->next, first)`. -/
def pendCas (s : State Tid α) (t : Tid) (f : Frame α) (k : After) (first last exp : Option Addr)
    (spurious : Bool) : State Tid α :=
  if s.toBeDeleted = exp ∧ spurious = false then
    { s with toBeDeleted := first }.goto t (Pc.after f k)
  else s.goto t (.pendSetNext f k first last s.toBeDeleted)

/-- The next step of thread `t` inside `push` or `pop`. -/
def next (s : State Tid α) (t : Tid) (spurious : Bool) : Option (State Tid α) :=
  match s.pc t with
  | .pushLoad n => some (s.goto t (.pushSetNext n s.head))
  | .pushSetNext n h => some (s.setNext t (some n) h (.pushReadNext n))
  | .pushReadNext n => some (s.readNext t (some n) (.pushCas n))
  | .pushCas n exp => some (s.pushCas t n exp spurious)
  | .popEnter => some ({ s with threadsInPop := s.threadsInPop + 1 }.goto t .popLoad)
  | .popLoad => some (s.goto t (Pc.popLoop s.head))
  | .popReadNext old => some (s.readNext t (some old) (.popCas old))
  | .popCas old next => some (s.popCas t old next spurious)
  | .popSwap old => some (s.swapData t old)
  | .testCount f => some (s.testCount t f)
  | .exchange f => some ({ s with toBeDeleted := none }.goto t (.decrement f s.toBeDeleted))
  | .decrement f nodes => some (s.decrement t f nodes)
  | .deleteRead f n => some (s.readNext t (some n) (.deleteNode f n))
  | .deleteNode f n next => some (s.delete t (some n) (Pc.deleteLoop f next))
  | .walk f nodes last => some (s.readNext t (some last) (Pc.walkLoop f nodes last))
  | .pendLoad f k first last => some (s.goto t (.pendSetNext f k first last s.toBeDeleted))
  | .pendSetNext f k first last p => some (s.setNext t last p (.pendReadNext f k first last))
  | .pendReadNext f k first last => some (s.readNext t last (.pendCas f k first last))
  | .pendCas f k first last exp => some (s.pendCas t f k first last exp spurious)
  | .leave f => some ({ s with threadsInPop := s.threadsInPop - 1 }.goto t (.ret f))
  | .deleteOld f => some (s.delete t f.oldHead (.ret f))
  | .ret _ => some (s.goto t .idle)
  | .idle | .nullDeref | .useAfterFree => none

end State

/-- The stack with any number of threads. -/
def machine : Machine (State Tid α) (Label Tid α) where
  init := ⟨fun _ => none, none, none, 0, fun _ => .idle⟩
  step s
    | .push t v n =>
      match s.pc t, s.heap n with
      | .idle, none => some (s.push t v n)
      | _, _ => none
    | .pop t =>
      match s.pc t with
      | .idle => some (s.goto t .popEnter)
      | _ => none
    | .next t spurious => s.next t spurious

section
variable {s s' : State Tid α} {t : Tid}

/-- `push` is called by a thread that is in no other call, and its node is new. -/
theorem step_push {v : α} {n : Addr} (h : machine.step s (.push t v n) = some s') :
    s.pc t = .idle ∧ s.heap n = none ∧ s' = s.push t v n := by
  simp only [machine] at h
  split at h
  · next hpc hfree =>
    cases h
    exact ⟨hpc, hfree, rfl⟩
  · cases h

theorem step_pop (h : machine.step s (.pop t) = some s') :
    s.pc t = .idle ∧ s' = s.goto t .popEnter := by
  simp only [machine] at h
  split at h
  · next hpc =>
    cases h
    exact ⟨hpc, rfl⟩
  · cases h

end

/-- The events a step shows.  A push takes effect when its exchange succeeds, a
pop when it unlinks a node, or when it finds `_head` null. -/
def event (s : State Tid α) : Label Tid α → List (Action Tid (ContainerOp α) (Reply α))
  | .push t v _ => [.invoke t (.push v)]
  | .pop t => [.invoke t (.pop false)]
  | .next t spurious =>
    match s.pc t with
    | .pushCas _ exp =>
      if s.head = exp ∧ spurious = false then [.linearize t, .respond t .pushed] else []
    | .popLoad => if s.head = none then [.linearize t] else []
    | .popCas old _ =>
      if s.head = none ∨ s.head = some old ∧ spurious = false then [.linearize t] else []
    | .ret f => [.respond t (.popped f.res)]
    | _ => []

end Sundries.LockFreeStack
