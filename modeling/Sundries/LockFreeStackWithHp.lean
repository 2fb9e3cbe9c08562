import Sundries.Machine
import Sundries.Segment

/-!
# `lock_free_stack_with_hp`

Any number of lock-free stacks that share the hazard pointers and the list
`nodes_to_reclaim`.  A pop publishes the node it has read from `_head` in its
thread's hazard pointer and checks that `_head` still points there before it
follows the pointer; a pop that has unlinked a node deletes it only if no hazard
pointer shows it, and otherwise hands it to `reclaim_later`.  Then it takes the
whole list, deletes the nodes no hazard pointer shows and puts the others back.

A step is one atomic operation (the scan of the hazard pointers takes one step a
slot), one read of a node's `next` or `data`, one look at a list record, or one
deletion.  The writes to a node or a record that is not yet published go with
the atomic operation next to them.  A step that follows a pointer to a deleted
node or record ends its thread in the program point `fault`.

There are `slots` hazard pointers, 100 in the source (`max_hazard_pointers`).  A
thread without one acquires it at its first pop by the one exchange of its
`hp_owner`'s search that succeeds, and gives it back when it ends.
-/
namespace Sundries.LockFreeStackWithHp

/-- Addresses of nodes and of list records; an address may be used again after
its deletion. -/
abbrev Addr := Nat

/-- `node`. -/
structure Node (α : Type) where
  data : Option α
  next : Option Addr
  deriving DecidableEq

/-- `hazard_pointer`. -/
structure HazardPointer (Tid : Type) where
  id : Option Tid
  pointer : Option Addr
  deriving DecidableEq

/-- `data_to_reclaim`; the deleter deletes the node. -/
structure DataToReclaim where
  data : Addr
  next : Option Addr
  deriving DecidableEq

/-- The locals `old_head`, not null, and `res` of `pop`. -/
structure Frame (α : Type) where
  oldHead : Addr
  res : Option α
  deriving DecidableEq

/-- What follows `add_to_reclaim_list`: `delete_nodes_with_no_hazards`, or its next
round. -/
inductive After where
  | exchange
  | walk (next : Option Addr)
  deriving DecidableEq

/-- Where a thread is: the next thing it does. -/
inductive Pc (Sid α : Type) where
  | idle
  /-- `push`: the exchange of `_head` of the stack `k` for the new node `n`. -/
  | pushCas (k : Sid) (n : Addr)
  /-- `pop`: get the thread's hazard pointer. -/
  | popStart (k : Sid)
  | popLoad (k : Sid)
  /-- `temp = old_head; hp.store(old_head)`. -/
  | popStore (k : Sid) (old : Option Addr)
  /-- `old_head = _head.load()`, to be compared with `temp`. -/
  | popCheck (k : Sid) (temp : Option Addr)
  /-- Read `old_head->next`. -/
  | popReadNext (k : Sid) (old : Addr)
  /-- The exchange of `_head`, expected to be `old`, for `next`. -/
  | popCas (k : Sid) (old : Addr) (next : Option Addr)
  /-- `hp.store(nullptr)`. -/
  | popClear (old : Option Addr)
  /-- `res.swap(old_head->data)`. -/
  | swapData (old : Addr)
  /-- `outstanding_hazard_pointers_for(old_head)` has come to slot `i`. -/
  | scanOld (f : Frame α) (i : Nat)
  /-- `delete old_head`. -/
  | deleteOld (f : Frame α)
  /-- `reclaim_later(old_head)`. -/
  | newRecord (f : Frame α)
  /-- `add_to_reclaim_list(r)`: `r->next = nodes_to_reclaim.load()`. -/
  | addLoad (f : Frame α) (r : Addr) (k : After)
  /-- The exchange of `nodes_to_reclaim`, expected to be `r->next`, for `r`. -/
  | addCas (f : Frame α) (r : Addr) (k : After)
  /-- `nodes_to_reclaim.exchange(nullptr)`. -/
  | exchange (f : Frame α)
  /-- The loop of `delete_nodes_with_no_hazards`: read `current->next` and
  `current->data`. -/
  | walk (f : Frame α) (current : Option Addr)
  /-- `outstanding_hazard_pointers_for(p)`, where `r->data` is `p`, has come to slot
  `i`. -/
  | scanRecord (f : Frame α) (r : Addr) (next : Option Addr) (p : Addr) (i : Nat)
  /-- `delete r`, no hazard pointer having shown `p`. -/
  | deleteRecord (f : Frame α) (r : Addr) (next : Option Addr) (p : Addr)
  | ret (res : Option α)
  /-- `~hp_owner` has cleared the pointer; the release of the slot comes next. -/
  | release
  | fault
  deriving DecidableEq

/-- The nodes, the list records, the heads of the stacks, the hazard pointers,
`nodes_to_reclaim`, the threads' hazard pointers (`thread_local`) and program
points.  `handed` keeps account of the nodes handed to `reclaim_later` and not
deleted since; no step looks at it. -/
structure State (slots : Nat) (Sid Tid α : Type) where
  heap : Addr → Option (Node α)
  records : Addr → Option DataToReclaim
  head : Sid → Option Addr
  hazardPointers : Fin slots → HazardPointer Tid
  nodesToReclaim : Option Addr
  hp : Tid → Option (Fin slots)
  pc : Tid → Pc Sid α
  handed : Addr → Bool

/-- The steps; `push` is labelled with the address of its node, `acquire` with the
slot found free, `newRecord` with the address of the record, and the weak
exchange of `push` may fail spuriously. -/
inductive Label (slots : Nat) (Sid Tid α : Type) where
  | push (t : Tid) (k : Sid) (v : α) (n : Addr)
  | pushCas (t : Tid) (spurious : Bool)
  | pop (t : Tid) (k : Sid)
  | acquire (t : Tid) (i : Fin slots)
  | newRecord (t : Tid) (r : Addr)
  | exit (t : Tid)
  | next (t : Tid)
  deriving DecidableEq

variable {slots : Nat} {Sid Tid α : Type}

/-- The `next` of the node at `a`. -/
def nextAt (heap : Addr → Option (Node α)) (a : Addr) : Option Addr :=
  (heap a).bind Node.next

/-- The `next` of the record at `r`. -/
def recordNext (records : Addr → Option DataToReclaim) (r : Addr) : Option Addr :=
  (records r).bind DataToReclaim.next

/-- The node the record at `r` is about. -/
def recordData (records : Addr → Option DataToReclaim) (r : Addr) : Option Addr :=
  (records r).map DataToReclaim.data

namespace Pc

/-- The pop leaves its loop with `old`, or follows it. -/
def checked (k : Sid) : Option Addr → Pc Sid α
  | none => .popClear none
  | some old => .popReadNext k old

/-- What follows the loop. -/
def cleared : Option Addr → Pc Sid α
  | none => .ret none
  | some old => .swapData old

def after (f : Frame α) : After → Pc Sid α
  | .exchange => .exchange f
  | .walk next => .walk f next

end Pc

variable [DecidableEq Tid]

namespace State

/-- Thread `t` goes to `pc`. -/
def goto (s : State slots Sid Tid α) (t : Tid) (pc : Pc Sid α) : State slots Sid Tid α :=
  { s with pc := Function.update s.pc t pc }

section Goto
variable (s : State slots Sid Tid α) (t : Tid) (pc : Pc Sid α)

@[simp] theorem goto_heap : (s.goto t pc).heap = s.heap := rfl
@[simp] theorem goto_records : (s.goto t pc).records = s.records := rfl
@[simp] theorem goto_head : (s.goto t pc).head = s.head := rfl
@[simp] theorem goto_hazardPointers : (s.goto t pc).hazardPointers = s.hazardPointers := rfl
@[simp] theorem goto_nodesToReclaim : (s.goto t pc).nodesToReclaim = s.nodesToReclaim := rfl
@[simp] theorem goto_hp : (s.goto t pc).hp = s.hp := rfl
@[simp] theorem goto_pc : (s.goto t pc).pc = Function.update s.pc t pc := rfl
@[simp] theorem goto_handed : (s.goto t pc).handed = s.handed := rfl

end Goto

/-- Thread `t` follows a pointer to the node at `a`. -/
def access (s : State slots Sid Tid α) (t : Tid) (a : Addr)
    (k : Node α → State slots Sid Tid α) : State slots Sid Tid α :=
  match s.heap a with
  | none => s.goto t .fault
  | some nd => k nd

/-- Thread `t` follows a pointer to the record at `r`. -/
def accessRecord (s : State slots Sid Tid α) (t : Tid) (r : Addr)
    (k : DataToReclaim → State slots Sid Tid α) : State slots Sid Tid α :=
  match s.records r with
  | none => s.goto t .fault
  | some rec => k rec

/-- Thread `t` stores `p` in its hazard pointer. -/
def storeHazard (s : State slots Sid Tid α) (t : Tid) (p : Option Addr) (pc : Pc Sid α) :
    State slots Sid Tid α :=
  match s.hp t with
  | none => s.goto t .fault
  | some i =>
    { s with
      hazardPointers := Function.update s.hazardPointers i
        { s.hazardPointers i with pointer := p } }.goto t pc

/-- One round of `outstanding_hazard_pointers_for(p)`. -/
def scan (s : State slots Sid Tid α) (t : Tid) (p : Addr) (i : Nat) (found next none : Pc Sid α) :
    State slots Sid Tid α :=
  if h : i < slots then
    if (s.hazardPointers ⟨i, h⟩).pointer = some p then s.goto t found else s.goto t next
  else s.goto t none

variable [DecidableEq Sid]

/-- `new node(data)`, then `new_node->next = _head.load()`. -/
def push (s : State slots Sid Tid α) (t : Tid) (k : Sid) (v : α) (n : Addr) :
    State slots Sid Tid α :=
  { s with heap := Function.update s.heap n (some ⟨some v, s.head k⟩) }.goto t (.pushCas k n)

/-- `_head.compare_exchange_weak(new_node->next, new_node)`. -/
def pushCas (s : State slots Sid Tid α) (t : Tid) (k : Sid) (n : Addr) (spurious : Bool) :
    State slots Sid Tid α :=
  s.access t n fun nd =>
    if s.head k = nd.next ∧ spurious = false then
      { s with head := Function.update s.head k (some n) }.goto t .idle
    else
      { s with heap := Function.update s.heap n (some { nd with next := s.head k }) }.goto t
        (.pushCas k n)

/-- The `hp_owner` of thread `t` takes slot `i`. -/
def acquire (s : State slots Sid Tid α) (t : Tid) (i : Fin slots) (k : Sid) :
    State slots Sid Tid α :=
  { s with
    hazardPointers := Function.update s.hazardPointers i
      { s.hazardPointers i with id := some t }
    hp := Function.update s.hp t (some i) }.goto t (.popLoad k)

/-- `old_head = _head.load()`, compared with `temp`. -/
def popCheck (s : State slots Sid Tid α) (t : Tid) (k : Sid) (temp : Option Addr) :
    State slots Sid Tid α :=
  if s.head k = temp then s.goto t (Pc.checked k temp) else s.goto t (.popStore k (s.head k))

/-- `_head.compare_exchange_strong(old_head, old_head->next)`. -/
def popCas (s : State slots Sid Tid α) (t : Tid) (k : Sid) (old : Addr) (next : Option Addr) :
    State slots Sid Tid α :=
  if s.head k = some old then
    { s with head := Function.update s.head k next }.goto t (.popClear (some old))
  else s.goto t (.popStore k (s.head k))

/-- `res.swap(old_head->data)`. -/
def swapData (s : State slots Sid Tid α) (t : Tid) (old : Addr) : State slots Sid Tid α :=
  s.access t old fun nd =>
    { s with heap := Function.update s.heap old (some { nd with data := none }) }.goto t
      (.scanOld ⟨old, nd.data⟩ 0)

/-- `delete old_head`. -/
def deleteOld (s : State slots Sid Tid α) (t : Tid) (f : Frame α) : State slots Sid Tid α :=
  s.access t f.oldHead fun _ =>
    { s with heap := Function.update s.heap f.oldHead none }.goto t (.exchange f)

/-- `reclaim_later(old_head)` up to `add_to_reclaim_list`. -/
def newRecord (s : State slots Sid Tid α) (t : Tid) (f : Frame α) (r : Addr) :
    State slots Sid Tid α :=
  { s with
    records := Function.update s.records r (some ⟨f.oldHead, none⟩)
    handed := Function.update s.handed f.oldHead true }.goto t (.addLoad f r .exchange)

/-- `r->next = nodes_to_reclaim.load()`. -/
def addLoad (s : State slots Sid Tid α) (t : Tid) (f : Frame α) (r : Addr) (k : After) :
    State slots Sid Tid α :=
  s.accessRecord t r fun rec =>
    { s with
      records := Function.update s.records r (some { rec with next := s.nodesToReclaim }) }.goto t
      (.addCas f r k)

/-- `nodes_to_reclaim.compare_exchange_strong(r->next, r)`. -/
def addCas (s : State slots Sid Tid α) (t : Tid) (f : Frame α) (r : Addr) (k : After) :
    State slots Sid Tid α :=
  s.accessRecord t r fun rec =>
    if s.nodesToReclaim = rec.next then
      { s with nodesToReclaim := some r }.goto t (Pc.after f k)
    else s.addLoad t f r k

/-- One round of `delete_nodes_with_no_hazards` up to the scan. -/
def walk (s : State slots Sid Tid α) (t : Tid) (f : Frame α) (current : Option Addr) :
    State slots Sid Tid α :=
  match current with
  | none => s.goto t (.ret f.res)
  | some r => s.accessRecord t r fun rec => s.goto t (.scanRecord f r rec.next rec.data 0)

/-- `delete r`: `~data_to_reclaim` deletes the node, then the record goes. -/
def deleteRecord (s : State slots Sid Tid α) (t : Tid) (f : Frame α) (r : Addr)
    (next : Option Addr) : State slots Sid Tid α :=
  s.accessRecord t r fun rec => s.access t rec.data fun _ =>
    { s with
      heap := Function.update s.heap rec.data none
      records := Function.update s.records r none
      handed := Function.update s.handed rec.data false }.goto t (.walk f next)

/-- The slot of thread `t` is free again; another thread may use the name `t`. -/
def release (s : State slots Sid Tid α) (t : Tid) : State slots Sid Tid α :=
  match s.hp t with
  | none => s.goto t .fault
  | some i =>
    { s with
      hazardPointers := Function.update s.hazardPointers i { s.hazardPointers i with id := none }
      hp := Function.update s.hp t none }.goto t .idle

/-- The next step of thread `t` inside `pop`, `reclaim_later`,
`delete_nodes_with_no_hazards` or `~hp_owner`. -/
def next (s : State slots Sid Tid α) (t : Tid) : Option (State slots Sid Tid α) :=
  match s.pc t with
  | .popStart k => if (s.hp t).isSome then some (s.goto t (.popLoad k)) else none
  | .popLoad k => some (s.goto t (.popStore k (s.head k)))
  | .popStore k old => some (s.storeHazard t old (.popCheck k old))
  | .popCheck k temp => some (s.popCheck t k temp)
  | .popReadNext k old => some (s.access t old fun nd => s.goto t (.popCas k old nd.next))
  | .popCas k old next => some (s.popCas t k old next)
  | .popClear old => some (s.storeHazard t none (Pc.cleared old))
  | .swapData old => some (s.swapData t old)
  | .scanOld f i => some (s.scan t f.oldHead i (.newRecord f) (.scanOld f (i + 1)) (.deleteOld f))
  | .deleteOld f => some (s.deleteOld t f)
  | .addLoad f r k => some (s.addLoad t f r k)
  | .addCas f r k => some (s.addCas t f r k)
  | .exchange f => some ({ s with nodesToReclaim := none }.goto t (.walk f s.nodesToReclaim))
  | .walk f current => some (s.walk t f current)
  | .scanRecord f r next p i =>
    some (s.scan t p i (.addLoad f r (.walk next)) (.scanRecord f r next p (i + 1))
      (.deleteRecord f r next p))
  | .deleteRecord f r next _ => some (s.deleteRecord t f r next)
  | .ret _ => some (s.goto t .idle)
  | .release => some (s.release t)
  | .idle | .pushCas _ _ | .newRecord _ | .fault => none

end State

/-- The stacks with their common hazard pointers. -/
def machine [DecidableEq Sid] : Machine (State slots Sid Tid α) (Label slots Sid Tid α) where
  init :=
    { heap := fun _ => none
      records := fun _ => none
      head := fun _ => none
      hazardPointers := fun _ => ⟨none, none⟩
      nodesToReclaim := none
      hp := fun _ => none
      pc := fun _ => .idle
      handed := fun _ => false }
  step s
    | .push t k v n =>
      match s.pc t, s.heap n with
      | .idle, none => some (s.push t k v n)
      | _, _ => none
    | .pushCas t spurious =>
      match s.pc t with
      | .pushCas k n => some (s.pushCas t k n spurious)
      | _ => none
    | .pop t k =>
      match s.pc t with
      | .idle => some (s.goto t (.popStart k))
      | _ => none
    | .acquire t i =>
      match s.pc t, s.hp t, (s.hazardPointers i).id with
      | .popStart k, none, none => some (s.acquire t i k)
      | _, _, _ => none
    | .newRecord t r =>
      match s.pc t, s.records r with
      | .newRecord f, none => some (s.newRecord t f r)
      | _, _ => none
    | .exit t =>
      match s.pc t, s.hp t with
      | .idle, some _ => some (s.storeHazard t none .release)
      | _, _ => none
    | .next t => s.next t

end Sundries.LockFreeStackWithHp
