import Sundries.AtomicObject
import Sundries.Segment

/-!
# `lock_free_stack_with_rc`

The lock-free stack with split reference counts.  Every counted pointer carries
an external count, raised by each pop that is about to follow it, and every node
an internal count, lowered by each pop that lets go of it; the pop that unlinks
the node adds the external count it found to the internal one.  Whoever brings
the sum to zero deletes the node.

A step is one atomic operation (load, compare-exchange, fetch-and-add) or one
access to a node that other threads may know.  The construction of a node and
the writes to its `next` before it is published go with the atomic operation
next to them, and the `delete` a thread decides on goes with the fetch-and-add
it decides by, the earliest moment it can happen.  A step that touches a deleted
node ends its thread in the program point `fault`.
-/
namespace Sundries.LockFreeStackWithRc

/-- Addresses of nodes; a deleted node's address may be used again. -/
abbrev Addr := Nat

/-- `counted_node_ptr`. -/
structure CountedNodePtr where
  externalCount : Int
  ptr : Option Addr
  deriving DecidableEq

/-- `node`. -/
structure Node (α : Type) where
  data : Option α
  internalCount : Int
  next : CountedNodePtr
  deriving DecidableEq

/-- Where a thread is in `push` and `pop`. -/
inductive Pc (α : Type) where
  | idle
  /-- `push` has made the node `n` and set its `next`; the exchange comes next. -/
  | pushCas (n : Addr)
  /-- `increase_head_count` is about to exchange `old` for one more reference. -/
  | increase (old : CountedNodePtr)
  /-- Holds a reference to the node `p`, about to read its `next`. -/
  | readNext (old : CountedNodePtr) (p : Addr)
  /-- About to exchange `old` for `next`, as read from the node `p`. -/
  | unlink (old : CountedNodePtr) (p : Addr) (next : CountedNodePtr)
  /-- Has unlinked `p` and is about to take its data. -/
  | swapData (old : CountedNodePtr) (p : Addr)
  /-- About to add the external count to the internal count of `p`. -/
  | addCount (old : CountedNodePtr) (p : Addr) (res : Option α)
  /-- Has failed to unlink `p`, about to lower its internal count; `old` is the
  head just read. -/
  | subCount (old : CountedNodePtr) (p : Addr)
  | ret (res : Option α)
  | fault
  deriving DecidableEq

/-- The nodes, `_head` and the threads' program points. -/
structure State (Tid α : Type) where
  heap : Addr → Option (Node α)
  head : CountedNodePtr
  pc : Tid → Pc α

/-- The steps; `push` is labelled with the address of its node, and the weak
exchange may fail spuriously. -/
inductive Label (Tid α : Type) where
  | push (t : Tid) (v : α) (n : Addr)
  | pushCas (t : Tid) (spurious : Bool)
  | pop (t : Tid)
  | next (t : Tid)
  deriving DecidableEq

variable {Tid α : Type}

/-- The `next` of the node at `a`. -/
def nextAt (heap : Addr → Option (Node α)) (a : Addr) : Option CountedNodePtr :=
  (heap a).map Node.next

/-- The value `data` of the node at `a` points to. -/
def dataAt (heap : Addr → Option (Node α)) (a : Addr) : Option α :=
  (heap a).bind Node.data

variable [DecidableEq Tid]

namespace State

/-- Thread `t` goes to `pc`. -/
def goto (s : State Tid α) (t : Tid) (pc : Pc α) : State Tid α :=
  { s with pc := Function.update s.pc t pc }

/-- `new node(data)`, then `new_node.ptr->next = _head.load()`. -/
def push (s : State Tid α) (t : Tid) (v : α) (n : Addr) : State Tid α :=
  { s with heap := Function.update s.heap n (some ⟨some v, 0, s.head⟩) }.goto t (.pushCas n)

/-- `_head.compare_exchange_weak(new_node.ptr->next, new_node)`. -/
def pushCas (s : State Tid α) (t : Tid) (n : Addr) (spurious : Bool) : State Tid α :=
  match s.heap n with
  | none => s.goto t .fault
  | some nd =>
    if s.head = nd.next ∧ spurious = false then { s with head := ⟨1, some n⟩ }.goto t .idle
    else
      { s with heap := Function.update s.heap n (some { nd with next := s.head }) }.goto t
        (.pushCas n)

/-- `_head.compare_exchange_strong(old_counter, new_counter)`; a pop that has
raised the count of a null pointer is done. -/
def increase (s : State Tid α) (t : Tid) (old : CountedNodePtr) : State Tid α :=
  if s.head = old then
    let new : CountedNodePtr := { old with externalCount := old.externalCount + 1 }
    { s with head := new }.goto t <|
      match new.ptr with
      | none => .ret none
      | some p => .readNext new p
  else s.goto t (.increase s.head)

/-- The argument `ptr->next`. -/
def readNext (s : State Tid α) (t : Tid) (old : CountedNodePtr) (p : Addr) : State Tid α :=
  match s.heap p with
  | none => s.goto t .fault
  | some nd => s.goto t (.unlink old p nd.next)

/-- `_head.compare_exchange_strong(old_head, ptr->next)`. -/
def unlink (s : State Tid α) (t : Tid) (old : CountedNodePtr) (p : Addr)
    (next : CountedNodePtr) : State Tid α :=
  if s.head = old then { s with head := next }.goto t (.swapData old p)
  else s.goto t (.subCount s.head p)

/-- `res.swap(ptr->data)`. -/
def swapData (s : State Tid α) (t : Tid) (old : CountedNodePtr) (p : Addr) : State Tid α :=
  match s.heap p with
  | none => s.goto t .fault
  | some nd =>
    { s with heap := Function.update s.heap p (some { nd with data := none }) }.goto t
      (.addCount old p nd.data)

/-- `ptr->internal_count` is changed by `d`; `ptr` is deleted if it was `limit`. -/
def fetchAdd (s : State Tid α) (t : Tid) (p : Addr) (d limit : Int) (pc : Pc α) : State Tid α :=
  match s.heap p with
  | none => s.goto t .fault
  | some nd =>
    { s with
      heap := Function.update s.heap p
        (if nd.internalCount = limit then none
         else some { nd with internalCount := nd.internalCount + d }) }.goto t pc

theorem fetchAdd_last {s : State Tid α} {p : Addr} {nd : Node α} {d limit : Int}
    (hnd : s.heap p = some nd) (h : nd.internalCount = limit) (t : Tid) (pc : Pc α) :
    s.fetchAdd t p d limit pc = { s with heap := Function.update s.heap p none }.goto t pc := by
  simp [fetchAdd, hnd, h]

theorem fetchAdd_more {s : State Tid α} {p : Addr} {nd : Node α} {d limit : Int}
    (hnd : s.heap p = some nd) (h : nd.internalCount ≠ limit) (t : Tid) (pc : Pc α) :
    s.fetchAdd t p d limit pc =
      { s with
        heap := Function.update s.heap p
          (some { nd with internalCount := nd.internalCount + d }) }.goto t pc := by
  simp [fetchAdd, hnd, h]

/-- `fetch_add(count_increase) == -count_increase`. -/
def addCount (s : State Tid α) (t : Tid) (old : CountedNodePtr) (p : Addr) (res : Option α) :
    State Tid α :=
  s.fetchAdd t p (old.externalCount - 2) (-(old.externalCount - 2)) (.ret res)

/-- `fetch_sub(1) == 1`, then the next round of the loop. -/
def subCount (s : State Tid α) (t : Tid) (old : CountedNodePtr) (p : Addr) : State Tid α :=
  s.fetchAdd t p (-1) 1 (.increase old)

end State

/-- The stack with any number of threads. -/
def machine : Machine (State Tid α) (Label Tid α) where
  init := ⟨fun _ => none, ⟨0, none⟩, fun _ => .idle⟩
  step s
    | .push t v n =>
      match s.pc t, s.heap n with
      | .idle, none => some (s.push t v n)
      | _, _ => none
    | .pushCas t spurious =>
      match s.pc t with
      | .pushCas n => some (s.pushCas t n spurious)
      | _ => none
    | .pop t =>
      match s.pc t with
      | .idle => some (s.goto t (.increase s.head))
      | _ => none
    | .next t =>
      match s.pc t with
      | .increase old => some (s.increase t old)
      | .readNext old p => some (s.readNext t old p)
      | .unlink old p next => some (s.unlink t old p next)
      | .swapData old p => some (s.swapData t old p)
      | .addCount old p res => some (s.addCount t old p res)
      | .subCount old p => some (s.subCount t old p)
      | .ret _ => some (s.goto t .idle)
      | _ => none

section
variable {s s' : State Tid α} {t : Tid}

/-- `push` is called by a thread that is in no other call, and its node is new. -/
theorem step_push {v : α} {n : Addr} (h : machine.step s (.push t v n) = some s') :
    s.pc t = .idle ∧ s.heap n = none ∧ s' = s.push t v n := by
  simp only [machine] at h
  split at h
  · next hpc hfree =>
    cases h
    exact ⟨hpc, hfree, rfl⟩
  · cases h

theorem step_pushCas {spurious : Bool} (h : machine.step s (.pushCas t spurious) = some s') :
    ∃ n, s.pc t = .pushCas n ∧ s' = s.pushCas t n spurious := by
  simp only [machine] at h
  split at h
  · next n hpc =>
    cases h
    exact ⟨n, hpc, rfl⟩
  · cases h

theorem step_pop (h : machine.step s (.pop t) = some s') :
    s.pc t = .idle ∧ s' = s.goto t (.increase s.head) := by
  simp only [machine] at h
  split at h
  · next hpc =>
    cases h
    exact ⟨hpc, rfl⟩
  · cases h

end

/-- The events a step shows.  A push takes effect when its exchange succeeds, a
pop when it unlinks a node, or when it raises the count of a null head. -/
def event (s : State Tid α) : Label Tid α → List (Action Tid (ContainerOp α) (Reply α))
  | .push t v _ => [.invoke t (.push v)]
  | .pushCas t spurious =>
    match s.pc t with
    | .pushCas n =>
      if nextAt s.heap n = some s.head ∧ spurious = false then
        [.linearize t, .respond t .pushed]
      else []
    | _ => []
  | .pop t => [.invoke t (.pop false)]
  | .next t =>
    match s.pc t with
    | .increase old => if s.head = old ∧ old.ptr = none then [.linearize t] else []
    | .unlink old _ _ => if s.head = old then [.linearize t] else []
    | .ret res => [.respond t (.popped res)]
    | _ => []

end Sundries.LockFreeStackWithRc
