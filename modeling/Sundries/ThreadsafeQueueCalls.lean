import Sundries.SimpleQueues
import Sundries.Throwing

/-!
# The calls of `threadsafe_queue`, with exceptions

Each member function of `threadsafe_queue` is a program that may throw where `T` is copied or
moved and where memory is allocated.  The locks are scopes: a `lock_guard` or `unique_lock`
releases its mutex on every exit.  Locking a mutex that is held already, waiting on an empty
queue, and following a null pointer or one to a destroyed node leave a program stuck.

The nodes are those of `simple_queue_dummy`, and so is what they are to be.  A value that was
moved out of a node is not read again before the node is destroyed, so it is not recorded that
it was moved from.
-/
namespace Sundries.ThreadsafeQueueCalls
open SimpleQueues (Addr Node Heap SimpleQueueDummy)

/-- Where a call may throw. -/
inductive ThrowPoint where
  /-- The parameter of `push` is copied or moved from the argument. -/
  | parameter
  /-- The allocation of `std::make_shared<T>`. -/
  | makeShared
  /-- The move of the value into what `std::make_shared<T>` has allocated. -/
  | moveIntoShared
  /-- The allocation of `new node`. -/
  | newNode
  /-- The move assignment to a reference parameter. -/
  | moveAssignment
  deriving DecidableEq

/-- The nodes, `_head`, `_tail`, and whether `_head_mutex` and `_tail_mutex` are held. -/
structure Queue (α : Type) where
  heap : Heap (Option α)
  head : Option Addr
  tail : Option Addr
  headMutex : Bool
  tailMutex : Bool

/-- The member functions. -/
inductive Call (α : Type) where
  | push (v : α)
  | tryPop
  | tryPopRef
  | waitAndPop
  | waitAndPopRef

/-- What a call gives its caller. -/
inductive Result (α : Type) where
  | pushed
  /-- A `shared_ptr`, null or to a value. -/
  | pointer (v : Option α)
  /-- The value assigned to a reference parameter. -/
  | assigned (v : Option α)
  /-- The value assigned to a reference parameter, if any, and the boolean returned. -/
  | tried (v : Option α) (b : Bool)
  deriving DecidableEq

variable {α A : Type}

/-- A piece of a member function. -/
abbrev Op (α A : Type) : Type := Throwing ThrowPoint (Queue α) A

/-! ## The member functions -/

/-- A block under `_head_mutex`. -/
def lockHead (body : Op α A) : Op α A :=
  Throwing.holding (fun q => if q.headMutex then none else some { q with headMutex := true })
    (fun q => { q with headMutex := false }) body

/-- A block under `_tail_mutex`. -/
def lockTail (body : Op α A) : Op α A :=
  Throwing.holding (fun q => if q.tailMutex then none else some { q with tailMutex := true })
    (fun q => { q with tailMutex := false }) body

def getTail : Op α (Option Addr) := lockTail (Throwing.access fun q => some (q.tail, q))

/-- `_head.get() == get_tail()`. -/
def isEmpty : Op α Bool := do
  let tail ← getTail
  Throwing.access fun q => some (q.head == tail, q)

/-- `old = std::move(_head)` and `_head = std::move(old->next)`. -/
def popHead : Op α Addr :=
  Throwing.access fun q => do
    let old ← q.head
    let nd ← q.heap.node old
    some (old, { q with heap := q.heap.write old { nd with next := none }, head := nd.next })

/-- `value = std::move(*_head->data)`. -/
def moveHeadData : Op α α := do
  let v ← Throwing.access fun q => do
    let a ← q.head
    let nd ← q.heap.node a
    let v ← nd.data
    some (v, q)
  Throwing.point .moveAssignment
  return v

/-- The wait for `_head.get() != get_tail()`, under `_head_mutex`. -/
def waitForData : Op α Unit := do
  let empty ← isEmpty
  Throwing.access fun q => if empty then none else some ((), q)

def waitPopHead : Op α Addr := lockHead do
  waitForData
  popHead

def waitPopHeadRef : Op α (Addr × α) := lockHead do
  waitForData
  let v ← moveHeadData
  let old ← popHead
  return (old, v)

def tryPopHead : Op α (Option Addr) := lockHead do
  let empty ← isEmpty
  if empty then return none
  else
    let old ← popHead
    return some old

def tryPopHeadRef : Op α (Option (Addr × α)) := lockHead do
  let empty ← isEmpty
  if empty then return none
  else
    let v ← moveHeadData
    let old ← popHead
    return some (old, v)

/-- `old->data`. -/
def dataOf (old : Addr) : Op α (Option α) :=
  Throwing.access fun q => (q.heap.node old).map fun nd => (nd.data, q)

/-- The node that `old` owns is destroyed when `old` goes out of scope. -/
def destroy (old : Addr) : Op α Unit :=
  Throwing.access fun q => (q.heap.node old).map fun _ => ((), { q with heap := q.heap.delete old })

def waitAndPop : Op α (Result α) := do
  let old ← waitPopHead
  let data ← dataOf old
  destroy old
  return .pointer data

def waitAndPopRef : Op α (Result α) := do
  let (old, v) ← waitPopHeadRef
  destroy old
  return .assigned (some v)

def tryPop : Op α (Result α) := do
  match ← tryPopHead with
  | none => return .pointer none
  | some old =>
    let data ← dataOf old
    destroy old
    return .pointer data

def tryPopRef : Op α (Result α) := do
  match ← tryPopHeadRef with
  | none => return .tried none false
  | some (old, v) =>
    destroy old
    return .tried (some v) true

/-- An assignment to a field of the node at `_tail`. -/
def setTail (f : Node (Option α) → Node (Option α)) : Op α Unit :=
  Throwing.access fun q => do
    let t ← q.tail
    let nd ← q.heap.node t
    some ((), { q with heap := q.heap.write t (f nd) })

def push (v : α) : Op α (Result α) := do
  Throwing.point .parameter
  Throwing.point .makeShared
  Throwing.point .moveIntoShared
  Throwing.point .newNode
  let newTail ← Throwing.access fun q =>
    some (q.heap.allocated, { q with heap := q.heap.new ⟨none, none⟩ })
  lockTail do
    setTail fun nd => { nd with data := some v }
    setTail fun nd => { nd with next := some newTail }
    Throwing.access fun q => some ((), { q with tail := some newTail })
  return .pushed

/-- A call of a member function. -/
def run : Call α → Op α (Result α)
  | .push v => push v
  | .tryPop => tryPop
  | .tryPopRef => tryPopRef
  | .waitAndPop => waitAndPop
  | .waitAndPopRef => waitAndPopRef

/-- The call waits for an element. -/
def Call.waits : Call α → Bool
  | .waitAndPop | .waitAndPopRef => true
  | _ => false

/-- A new queue. -/
def Queue.empty : Queue α :=
  let s : SimpleQueueDummy α := .empty
  ⟨s.heap, s.head, s.tail, false, false⟩

/-- The queue with calls made one after the other, each of which may throw. -/
def machine : Machine (Queue α) (Call α × (ThrowPoint → Bool)) where
  init := .empty
  step q l :=
    match run l.1 l.2 q with
    | .returned _ q' => some q'
    | .thrown _ q' => some q'
    | .stuck => none

/-! ## What the pieces do -/

variable {plan : ThrowPoint → Bool} {q : Queue α} {exc : Queue α → Prop}

/-- The queue while `_head_mutex` is held. -/
def Queue.holdHead (q : Queue α) : Queue α := { q with headMutex := true }

theorem lockHead_spec {m : Op α A} {post : A → Queue α → Prop} (hfree : q.headMutex = false)
    (hm : Throwing.Triple plan (· = q.holdHead) m (fun a s => post a { s with headMutex := false })
      fun s => exc { s with headMutex := false }) :
    Throwing.Triple plan (· = q) (lockHead m) post exc := by
  refine Throwing.Triple.holding (fun s hs => ?_) hm
  subst hs
  exact ⟨s.holdHead, by rw [if_neg (by rw [hfree]; decide)]; rfl, rfl⟩

theorem lockTail_spec {m : Op α A} {post : A → Queue α → Prop} (hfree : q.tailMutex = false)
    (hm : Throwing.Triple plan (· = { q with tailMutex := true }) m
      (fun a s => post a { s with tailMutex := false })
      fun s => exc { s with tailMutex := false }) :
    Throwing.Triple plan (· = q) (lockTail m) post exc := by
  refine Throwing.Triple.holding (fun s hs => ?_) hm
  subst hs
  exact ⟨{ s with tailMutex := true }, by rw [if_neg (by rw [hfree]; decide)], rfl⟩

/-- The comparison leaves the queue as it is: `get_tail` gives its lock back. -/
theorem isEmpty_spec (hfree : q.tailMutex = false) :
    Throwing.Triple plan (· = q) isEmpty (fun b s => b = (q.head == q.tail) ∧ s = q) exc := by
  have hself : { q with tailMutex := false } = q := by rw [← hfree]
  have htail : Throwing.Triple plan (· = q) getTail (fun a s => a = q.tail ∧ s = q) exc := by
    apply lockTail_spec hfree
    exact Throwing.Triple.access_eq rfl ⟨rfl, hself⟩
  exact htail.seq (Throwing.Triple.access_eq rfl ⟨rfl, rfl⟩)

/-- An exception has left the queue `q` as it was. -/
def Unchanged (plan : ThrowPoint → Bool) (q s : Queue α) : Prop := s = q ∧ ∃ p, plan p = true

section Head
variable {a : Addr} {nd : Node (Option α)} {v : α}

/-- The queue after `pop_head` has taken the node at `a` out. -/
def Queue.unlink (q : Queue α) (a : Addr) (nd : Node (Option α)) : Queue α :=
  { q with heap := q.heap.write a { nd with next := none }, head := nd.next }

/-- The queue after the node that was taken out is destroyed. -/
def Queue.popped (q : Queue α) (a : Addr) (nd : Node (Option α)) : Queue α :=
  { q with heap := q.heap.delete a, head := nd.next }

theorem popHead_spec (hhead : q.head = some a) (hnode : q.heap.node a = some nd) :
    Throwing.Triple plan (· = q) popHead (fun old s => old = a ∧ s = q.unlink a nd) exc := by
  refine Throwing.Triple.access_eq ?_ ⟨rfl, rfl⟩
  simp only [hhead, hnode, Option.bind_eq_bind, Option.bind_some]
  rfl

/-- The move assignment comes before `pop_head`: where it throws, nothing has been changed. -/
theorem moveHeadData_spec (hhead : q.head = some a) (hnode : q.heap.node a = some nd)
    (hdata : nd.data = some v) :
    Throwing.Triple plan (· = q) moveHeadData (fun x s => x = v ∧ s = q) (Unchanged plan q) := by
  have hread : Throwing.Triple plan (· = q) (Throwing.access fun q => do
      let a ← q.head
      let nd ← q.heap.node a
      let v ← nd.data
      some (v, q)) (fun x s => x = v ∧ s = q) (Unchanged plan q) := by
    refine Throwing.Triple.access_eq ?_ ⟨rfl, rfl⟩
    simp only [hhead, hnode, hdata, Option.bind_eq_bind, Option.bind_some]
  refine hread.seq ?_
  have hmove : Throwing.Triple plan (· = q) (Throwing.point .moveAssignment)
      (fun _ s => s = q) (Unchanged plan q) := by
    apply Throwing.Triple.point
    · exact fun s hs => hs
    · exact fun s hs hp => ⟨hs, _, hp⟩
  exact hmove.bind fun _ => Throwing.Triple.pure_eq ⟨rfl, rfl⟩

/-- Reading and destroying the node that was taken out. -/
theorem destroy_spec :
    Throwing.Triple plan (· = q.unlink a nd) (destroy a) (fun _ s => s = q.popped a nd) exc := by
  refine Throwing.Triple.access_eq (a := ()) ?_ rfl
  simp [Queue.unlink, Queue.popped, Heap.write, Heap.delete]

theorem dataOf_spec :
    Throwing.Triple plan (· = q.unlink a nd) (dataOf a)
      (fun data s => data = nd.data ∧ s = q.unlink a nd) exc := by
  refine Throwing.Triple.access_eq ?_ ⟨rfl, rfl⟩
  simp [Queue.unlink, Heap.write]

/-- What the queue is once `_head_mutex` is released after `pop_head`. -/
theorem release_unlink (hfree : q.headMutex = false) :
    { q.holdHead.unlink a nd with headMutex := false } = q.unlink a nd := by
  rw [← hfree]
  rfl

theorem release_holdHead (hfree : q.headMutex = false) :
    { q.holdHead with headMutex := false } = q := by
  rw [← hfree]
  rfl

/-- An exception under `_head_mutex` that leaves the queue as it is leaves it as it was. -/
theorem Unchanged.release (hfree : q.headMutex = false) {s : Queue α}
    (h : Unchanged plan q.holdHead s) : Unchanged plan q { s with headMutex := false } := by
  obtain ⟨rfl, hplan⟩ := h
  exact ⟨release_holdHead hfree, hplan⟩

/-- No mutex is held, and the node at `a`, with the value `v`, is the first. -/
structure Queue.First (q : Queue α) (a : Addr) (nd : Node (Option α)) (v : α) : Prop where
  head : q.head = some a
  node : q.heap.node a = some nd
  data : nd.data = some v
  nonempty : (q.head == q.tail) = false
  headFree : q.headMutex = false
  tailFree : q.tailMutex = false

theorem waitForData_spec (h : q.First a nd v) :
    Throwing.Triple plan (· = q.holdHead) waitForData (fun _ s => s = q.holdHead) exc := by
  have hempty : Throwing.Triple plan (· = q.holdHead) isEmpty
      (fun b s => b = (q.head == q.tail) ∧ s = q.holdHead) exc := isEmpty_spec h.tailFree
  refine hempty.seq (Throwing.Triple.access_eq (a := ()) ?_ rfl)
  rw [h.nonempty]
  rfl

theorem waitPopHead_spec (h : q.First a nd v) :
    Throwing.Triple plan (· = q) waitPopHead (fun old s => old = a ∧ s = q.unlink a nd) exc := by
  apply lockHead_spec h.headFree
  refine (waitForData_spec h).bind fun _ => ?_
  exact (popHead_spec (q := q.holdHead) h.head h.node).lands ⟨rfl, release_unlink h.headFree⟩

/-- `_head->data` is moved from and `_head` taken out, in this order. -/
theorem move_pop_spec (h : q.First a nd v) {B : Type} {k : α → Addr → B}
    {Q : B → Queue α → Prop} (hpost : Q (k v a) (q.unlink a nd)) :
    Throwing.Triple plan (· = q.holdHead) (do
      let x ← moveHeadData
      let old ← popHead
      return k x old : Op α B) (fun b s => Q b { s with headMutex := false })
      (fun s => Unchanged plan q { s with headMutex := false }) := by
  have hmove : Throwing.Triple plan (· = q.holdHead) moveHeadData
      (fun x s => x = v ∧ s = q.holdHead)
      (fun s => Unchanged plan q { s with headMutex := false }) :=
    (moveHeadData_spec (q := q.holdHead) h.head h.node h.data).consequence (fun s hs => hs)
      (fun x s hs => hs) fun s hs => hs.release h.headFree
  refine hmove.seq ?_
  -- the move is over: from here on nothing throws
  refine (popHead_spec (q := q.holdHead) h.head h.node).seq (Throwing.Triple.pure_eq ?_)
  rw [release_unlink h.headFree]
  exact hpost

theorem waitPopHeadRef_spec (h : q.First a nd v) :
    Throwing.Triple plan (· = q) waitPopHeadRef (fun r s => r = (a, v) ∧ s = q.unlink a nd)
      (Unchanged plan q) := by
  apply lockHead_spec h.headFree
  refine (waitForData_spec h).bind fun _ => ?_
  exact move_pop_spec h (k := fun x old => (old, x))
    (Q := fun r s => r = (a, v) ∧ s = q.unlink a nd) ⟨rfl, rfl⟩

theorem isEmpty_first (h : q.First a nd v) :
    Throwing.Triple plan (· = q.holdHead) isEmpty (fun b s => b = false ∧ s = q.holdHead) exc :=
  (isEmpty_spec (q := q.holdHead) h.tailFree).lands ⟨h.nonempty, rfl⟩

theorem tryPopHead_spec (h : q.First a nd v) :
    Throwing.Triple plan (· = q) tryPopHead (fun r s => r = some a ∧ s = q.unlink a nd) exc := by
  apply lockHead_spec h.headFree
  refine (isEmpty_first h).seq ?_
  refine (popHead_spec (q := q.holdHead) h.head h.node).seq (Throwing.Triple.pure_eq ?_)
  exact ⟨rfl, release_unlink h.headFree⟩

theorem tryPopHeadRef_spec (h : q.First a nd v) :
    Throwing.Triple plan (· = q) tryPopHeadRef (fun r s => r = some (a, v) ∧ s = q.unlink a nd)
      (Unchanged plan q) := by
  apply lockHead_spec h.headFree
  refine (isEmpty_first h).seq ?_
  exact move_pop_spec h (k := fun x old => some (old, x))
    (Q := fun r s => r = some (a, v) ∧ s = q.unlink a nd) ⟨rfl, rfl⟩

/-! ## The calls that take a value out -/

theorem waitAndPop_spec (h : q.First a nd v) :
    Throwing.Triple plan (· = q) waitAndPop
      (fun r s => r = .pointer (some v) ∧ s = q.popped a nd) exc := by
  refine (waitPopHead_spec h).seq ?_
  refine dataOf_spec.seq ?_
  refine destroy_spec.bind fun _ => Throwing.Triple.pure_eq ?_
  exact ⟨by rw [h.data], rfl⟩

theorem waitAndPopRef_spec (h : q.First a nd v) :
    Throwing.Triple plan (· = q) waitAndPopRef
      (fun r s => r = .assigned (some v) ∧ s = q.popped a nd) (Unchanged plan q) := by
  refine (waitPopHeadRef_spec h).seq ?_
  exact destroy_spec.bind fun _ => Throwing.Triple.pure_eq ⟨rfl, rfl⟩

theorem tryPop_spec (h : q.First a nd v) :
    Throwing.Triple plan (· = q) tryPop
      (fun r s => r = .pointer (some v) ∧ s = q.popped a nd) exc := by
  refine (tryPopHead_spec h).seq ?_
  refine dataOf_spec.seq ?_
  refine destroy_spec.bind fun _ => Throwing.Triple.pure_eq ?_
  exact ⟨by rw [h.data], rfl⟩

theorem tryPopRef_spec (h : q.First a nd v) :
    Throwing.Triple plan (· = q) tryPopRef
      (fun r s => r = .tried (some v) true ∧ s = q.popped a nd) (Unchanged plan q) := by
  refine (tryPopHeadRef_spec h).seq ?_
  exact destroy_spec.bind fun _ => Throwing.Triple.pure_eq ⟨rfl, rfl⟩

end Head

/-! ## The calls on a well-formed queue -/

/-- The nodes as those of a `simple_queue_dummy`. -/
def Queue.chain (q : Queue α) : SimpleQueueDummy α := ⟨q.heap, q.head, q.tail⟩

/-- **A well-formed queue**: its nodes hold the values `vs`, and no mutex is held. -/
structure Queue.Shape (q : Queue α) (l : List Addr) (tl : Addr) (vs : List α) : Prop where
  chain : q.chain.Shape l tl vs
  headFree : q.headMutex = false
  tailFree : q.tailMutex = false

/-- The queue holds the values `vs`. -/
def Queue.Holds (q : Queue α) (vs : List α) : Prop := ∃ l tl, q.Shape l tl vs

variable {v : α} {vs : List α}

theorem holds_empty : (Queue.empty : Queue α).Holds [] :=
  ⟨[], 0, SimpleQueueDummy.Shape.empty, rfl, rfl⟩

/-- A queue with values has a first node, and holds the others without it. -/
theorem Queue.Holds.first (h : q.Holds (v :: vs)) :
    ∃ a nd, q.First a nd v ∧ (q.popped a nd).Holds vs := by
  obtain ⟨l, tl, hchain, hhead, htail⟩ := h
  obtain ⟨s, l', htry, hshape⟩ := hchain.tryPop_cons
  rw [SimpleQueueDummy.tryPop] at htry
  split at htry
  · cases htry
  · rename_i hne
    simp only [Option.bind_eq_bind, Option.bind_eq_some_iff] at htry
    obtain ⟨a, ha, nd, hnd, heq⟩ := htry
    rw [Option.some.injEq, Prod.mk.injEq] at heq
    obtain ⟨rfl, hdata⟩ := heq
    exact ⟨a, nd, ⟨ha, hnd, hdata, beq_false_of_ne hne, hhead, htail⟩, l', tl, hshape, hhead, htail⟩

/-- On an empty queue a comparison of `_head` with `_tail` finds them equal. -/
theorem isEmpty_empty (h : q.Holds []) {exc : Queue α → Prop} :
    Throwing.Triple plan (· = q.holdHead) isEmpty (fun b s => b = true ∧ s = q.holdHead) exc := by
  obtain ⟨l, tl, hchain, -, htail⟩ := h
  have hhead : q.head = q.tail := (hchain.queue.eq_nil_iff.mp rfl).trans hchain.tail.symm
  exact (isEmpty_spec (q := q.holdHead) htail).lands ⟨beq_iff_eq.mpr hhead, rfl⟩

theorem tryPop_empty (h : q.Holds []) :
    Throwing.Triple plan (· = q) tryPop (fun r s => r = .pointer none ∧ s = q) exc := by
  obtain ⟨-, -, -, hfree, -⟩ := id h
  have hhead : Throwing.Triple plan (· = q) tryPopHead (fun r s => r = none ∧ s = q) exc := by
    apply lockHead_spec hfree
    exact (isEmpty_empty h).seq (Throwing.Triple.pure_eq ⟨rfl, release_holdHead hfree⟩)
  exact hhead.seq (Throwing.Triple.pure_eq ⟨rfl, rfl⟩)

theorem tryPopRef_empty (h : q.Holds []) :
    Throwing.Triple plan (· = q) tryPopRef (fun r s => r = .tried none false ∧ s = q) exc := by
  obtain ⟨-, -, -, hfree, -⟩ := id h
  have hhead : Throwing.Triple plan (· = q) tryPopHeadRef (fun r s => r = none ∧ s = q) exc := by
    apply lockHead_spec hfree
    exact (isEmpty_empty h).seq (Throwing.Triple.pure_eq ⟨rfl, release_holdHead hfree⟩)
  exact hhead.seq (Throwing.Triple.pure_eq ⟨rfl, rfl⟩)

theorem point_spec (p : ThrowPoint) :
    Throwing.Triple plan (· = q) (Throwing.point p) (fun _ s => s = q) (Unchanged plan q) :=
  Throwing.Triple.point (fun _ hs => hs) fun _ hs hp => ⟨hs, p, hp⟩

theorem setTail_spec {t : Addr} {nd : Node (Option α)} (f : Node (Option α) → Node (Option α))
    (htail : q.tail = some t) (hnode : q.heap.node t = some nd) :
    Throwing.Triple plan (· = q) (setTail f)
      (fun _ s => s = { q with heap := q.heap.write t (f nd) }) exc := by
  refine Throwing.Triple.access_eq (a := ()) ?_ rfl
  simp only [htail, hnode, Option.bind_eq_bind, Option.bind_some]

/-- The update of the tail node, which does not throw. -/
theorem updateTail_spec {t n : Addr} {nd : Node (Option α)} (hfree : q.tailMutex = false)
    (htail : q.tail = some t) (hnode : q.heap.node t = some nd) :
    Throwing.Triple plan (· = q) (lockTail do
      setTail fun nd => { nd with data := some v }
      setTail fun nd => { nd with next := some n }
      Throwing.access fun q => some ((), { q with tail := some n }))
      (fun _ s => s = { q with heap := q.heap.write t ⟨some v, some n⟩, tail := some n }) exc := by
  apply lockTail_spec hfree
  refine (setTail_spec (q := { q with tailMutex := true }) (fun nd => { nd with data := some v })
    htail hnode).bind fun _ => ?_
  have hread : (q.heap.write t { nd with data := some v }).node t =
      some { nd with data := some v } := by simp [Heap.write]
  refine (setTail_spec
    (q := { q with heap := q.heap.write t { nd with data := some v }, tailMutex := true })
    (fun nd => { nd with next := some n }) htail hread).bind fun _ => ?_
  refine Throwing.Triple.access_eq rfl ?_
  simp [Heap.write, hfree]

theorem push_spec (h : q.Holds vs) :
    Throwing.Triple plan (· = q) (push v) (fun r s => r = .pushed ∧ s.Holds (vs ++ [v]))
      (Unchanged plan q) := by
  obtain ⟨l, tl, hchain, hhead, hfree⟩ := h
  obtain ⟨s', l', tl', hpush, hshape⟩ := hchain.push v
  have htail : q.tail = some tl := hchain.tail
  rw [SimpleQueueDummy.push] at hpush
  simp only [Queue.chain, htail, Option.bind_eq_bind, Option.bind_some,
    Option.bind_eq_some_iff] at hpush
  obtain ⟨nd, hnode, hs'⟩ := hpush
  cases hs'
  refine (point_spec .parameter).bind fun _ => ?_
  refine (point_spec .makeShared).bind fun _ => ?_
  refine (point_spec .moveIntoShared).bind fun _ => ?_
  refine (point_spec .newNode).bind fun _ => ?_
  -- from here on nothing throws
  have hnew : Throwing.Triple plan (· = q) (Throwing.access fun q =>
      some (q.heap.allocated, { q with heap := q.heap.new ⟨none, none⟩ }))
      (fun n s => n = q.heap.allocated ∧ s = { q with heap := q.heap.new ⟨none, none⟩ })
      (Unchanged plan q) := Throwing.Triple.access_eq rfl ⟨rfl, rfl⟩
  refine hnew.seq ?_
  refine (updateTail_spec (q := { q with heap := q.heap.new ⟨none, none⟩ }) hfree htail
    hnode).bind fun _ => Throwing.Triple.pure_eq ?_
  exact ⟨rfl, l', tl', hshape, hhead, hfree⟩

/-- The values a call leaves in the queue. -/
def after (vs : List α) : Call α → List α
  | .push v => vs ++ [v]
  | _ => vs.tail

/-- What a call gives its caller. -/
def answer (vs : List α) : Call α → Result α
  | .push _ => .pushed
  | .tryPop | .waitAndPop => .pointer vs.head?
  | .tryPopRef => .tried vs.head? vs.head?.isSome
  | .waitAndPopRef => .assigned vs.head?

/-- **The calls are those of a FIFO queue, or throw and change nothing**; a call that waits does
so on an empty queue only. -/
theorem run_spec (h : q.Holds vs) (c : Call α) (hwaits : c.waits = true → vs ≠ []) :
    Throwing.Triple plan (· = q) (run c) (fun r s => r = answer vs c ∧ s.Holds (after vs c))
      (Unchanged plan q) := by
  cases c with
  | push v => exact push_spec h
  | tryPop =>
    cases vs with
    | nil => exact (tryPop_empty h).lands ⟨rfl, h⟩
    | cons v vs =>
      obtain ⟨a, nd, hfirst, hrest⟩ := h.first
      exact (tryPop_spec hfirst).lands ⟨rfl, hrest⟩
  | tryPopRef =>
    cases vs with
    | nil => exact (tryPopRef_empty h).lands ⟨rfl, h⟩
    | cons v vs =>
      obtain ⟨a, nd, hfirst, hrest⟩ := h.first
      exact (tryPopRef_spec hfirst).lands ⟨rfl, hrest⟩
  | waitAndPop =>
    cases vs with
    | nil => exact absurd rfl (hwaits rfl)
    | cons v vs =>
      obtain ⟨a, nd, hfirst, hrest⟩ := h.first
      exact (waitAndPop_spec hfirst).lands ⟨rfl, hrest⟩
  | waitAndPopRef =>
    cases vs with
    | nil => exact absurd rfl (hwaits rfl)
    | cons v vs =>
      obtain ⟨a, nd, hfirst, hrest⟩ := h.first
      exact (waitAndPopRef_spec hfirst).lands ⟨rfl, hrest⟩

theorem waitForData_empty (h : q.Holds []) : waitForData plan q.holdHead = .stuck := by
  have hempty : Throwing.Triple plan (· = q.holdHead) isEmpty
      (fun b s => b = true ∧ s = q.holdHead) fun _ => False := isEmpty_empty h
  obtain ⟨b, s, hrun, rfl, rfl⟩ := hempty.returns rfl
  rw [waitForData, Throwing.bind_returned hrun]
  rfl

/-- A block that begins by waiting under `_head_mutex` does so for ever on an empty queue. -/
theorem lockHead_empty (h : q.Holds []) {k : Unit → Op α A} :
    lockHead (waitForData >>= k) plan q = .stuck := by
  obtain ⟨-, -, -, hfree, -⟩ := id h
  have hacquire : (if q.headMutex then none else some { q with headMutex := true }) =
      some q.holdHead := by
    rw [if_neg (by rw [hfree]; decide)]
    rfl
  exact Throwing.holding_stuck hacquire (Throwing.bind_stuck (waitForData_empty h))

theorem run_empty_stuck (h : q.Holds []) {c : Call α} (hwaits : c.waits = true) :
    run c plan q = .stuck := by
  cases c with
  | waitAndPop => exact Throwing.bind_stuck (lockHead_empty h)
  | waitAndPopRef => exact Throwing.bind_stuck (lockHead_empty h)
  | _ => cases hwaits

/-- What a call does, by its outcome. -/
theorem run_cases (h : q.Holds vs) (c : Call α) (plan : ThrowPoint → Bool) :
    (∃ q', run c plan q = .returned (answer vs c) q' ∧ q'.Holds (after vs c)) ∨
      (∃ p, run c plan q = .thrown p q ∧ ∃ p, plan p = true) ∨
      run c plan q = .stuck ∧ c.waits = true ∧ vs = [] := by
  by_cases hwaits : c.waits = true ∧ vs = []
  · obtain ⟨hw, rfl⟩ := hwaits
    exact Or.inr (Or.inr ⟨run_empty_stuck h hw, hw, rfl⟩)
  have htriple : Throwing.Triple plan (· = q) (run c)
      (fun r s => r = answer vs c ∧ s.Holds (after vs c)) (Unchanged plan q) :=
    run_spec h c fun hw hnil => hwaits ⟨hw, hnil⟩
  have hspec := htriple q rfl
  split at hspec
  · rename_i r q' hrun
    obtain ⟨rfl, hq'⟩ := hspec
    exact Or.inl ⟨q', hrun, hq'⟩
  · rename_i p q' hrun
    obtain ⟨rfl, hplan⟩ := hspec
    exact Or.inr (Or.inl ⟨p, hrun, hplan⟩)
  · exact hspec.elim

theorem holds_of_reachable (h : machine.Reachable q) : ∃ vs : List α, q.Holds vs := by
  refine h.invariant (P := fun q => ∃ vs : List α, q.Holds vs) ⟨[], holds_empty⟩ ?_
  rintro q ⟨c, plan⟩ q' ⟨vs, hq⟩ hstep
  simp only [machine] at hstep
  rcases run_cases hq c plan with ⟨q'', hrun, hq''⟩ | ⟨p, hrun, -⟩ | ⟨hrun, -⟩
  · rw [hrun] at hstep
    cases hstep
    exact ⟨_, hq''⟩
  · rw [hrun] at hstep
    cases hstep
    exact ⟨vs, hq⟩
  · rw [hrun] at hstep
    cases hstep

/-- The strong exception guarantee: a call that throws leaves the nodes, `_tail` and the values
of the queue unchanged, and no mutex held; one that returns is that of a FIFO queue, and only a
wait on an empty queue does not end. -/
def StrongGuarantee (q : Queue α) (c : Call α) (plan : ThrowPoint → Bool) : Prop :=
  ∃ vs, q.Holds vs ∧
    match run c plan q with
    | .thrown _ q' => q' = q ∧ q'.headMutex = false ∧ q'.tailMutex = false
    | .returned r q' => r = answer vs c ∧ q'.Holds (after vs c)
    | .stuck => c.waits = true ∧ vs = []

/-- **A call that throws leaves the queue as it was**, in every reachable queue, and wherever
values are copied or moved or memory is allocated. -/
theorem thrown_unchanged (h : machine.Reachable q) (c : Call α) (plan : ThrowPoint → Bool) :
    StrongGuarantee q c plan := by
  obtain ⟨vs, hq⟩ := holds_of_reachable h
  obtain ⟨-, -, -, hhead, htail⟩ := id hq
  refine ⟨vs, hq, ?_⟩
  rcases run_cases hq c plan with ⟨q', hrun, hq'⟩ | ⟨p, hrun, -⟩ | ⟨hrun, hstuck⟩
  · rw [hrun]
    exact ⟨rfl, hq'⟩
  · rw [hrun]
    exact ⟨rfl, hhead, htail⟩
  · rw [hrun]
    exact hstuck

/-- A `push` whose `new node` fails, after a `push` that succeeds. -/
theorem failedPush_unchanged : ∃ q : Queue ℕ,
    machine.run .empty [(.push 7, fun _ => false)] = some q ∧
      run (.push 8) (fun p => decide (p = .newNode)) q = .thrown .newNode q ∧
      StrongGuarantee q (.push 8) fun p => decide (p = .newNode) :=
  ⟨_, rfl, rfl, thrown_unchanged
    (Machine.reachable_of_run [(.push 7, fun _ => false)] rfl) _ _⟩

end Sundries.ThreadsafeQueueCalls
