import Sundries.AtomicObject
import Sundries.Segment

/-!
# `simple_queue` and `simple_queue_dummy`

Two queues for one thread.  Both own a chain of nodes through `_head` and the links
`next` and append at a raw pointer `_tail`.  `simple_queue` has no node while it is
empty; `simple_queue_dummy` always ends in a node without data.

A call is a partial function of the queue: it has no value where it follows a null
pointer or a pointer to a node that has been destroyed.  Nodes are named by the number
of their allocation, so the name of a destroyed node does not come back.

`simple_queue::try_pop` does not reset `_tail` when it takes the last node.  A later
`push` follows it.  `answers_eq_iff` says that this is the only way in which the two
queues differ, and that they are FIFO queues otherwise.
-/
namespace Sundries.SimpleQueues

/-- Names of nodes: how many were allocated before. -/
abbrev Addr := Nat

/-- `node`, with data of type `D`. -/
structure Node (D : Type) where
  data : D
  next : Option Addr
  deriving DecidableEq

/-- The nodes that are not destroyed, and the number of all allocations. -/
structure Heap (D : Type) where
  node : Addr → Option (Node D)
  allocated : Nat

/-- The calls of both classes. -/
inductive Call (α : Type) where
  | push (v : α)
  | tryPop
  deriving DecidableEq

variable {α D : Type}

namespace Heap

def nextAt (heap : Heap D) (a : Addr) : Option Addr := (heap.node a).bind Node.next

def dataAt (heap : Heap D) (a : Addr) : Option D := (heap.node a).map Node.data

/-- `new node`: the node is named `heap.allocated`. -/
def new (heap : Heap D) (nd : Node D) : Heap D :=
  ⟨Function.update heap.node heap.allocated (some nd), heap.allocated + 1⟩

def write (heap : Heap D) (a : Addr) (nd : Node D) : Heap D :=
  { heap with node := Function.update heap.node a (some nd) }

def delete (heap : Heap D) (a : Addr) : Heap D :=
  { heap with node := Function.update heap.node a none }

/-- What has not been allocated is no node. -/
def Fresh (heap : Heap D) : Prop := ∀ a, heap.allocated ≤ a → heap.node a = none

end Heap

/-! ## The classes -/

/-- `simple_queue`. -/
structure SimpleQueue (α : Type) where
  heap : Heap α
  head : Option Addr
  tail : Option Addr

namespace SimpleQueue

/-- A new queue, its `_tail` null. -/
def empty : SimpleQueue α := ⟨⟨fun _ => none, 0⟩, none, none⟩

def tryPop (s : SimpleQueue α) : Option (SimpleQueue α × Option α) :=
  match s.head with
  | none => some (s, none)
  | some old => do
    let nd ← s.heap.node old
    some ({ s with heap := s.heap.delete old, head := nd.next }, some nd.data)

def push (s : SimpleQueue α) (v : α) : Option (SimpleQueue α) :=
  let newTail := s.heap.allocated
  let heap := s.heap.new ⟨v, none⟩
  match s.tail with
  | some t => do
    let nd ← heap.node t
    some { s with heap := heap.write t { nd with next := some newTail }, tail := some newTail }
  | none => some { heap := heap, head := some newTail, tail := some newTail }

end SimpleQueue

/-- `simple_queue_dummy`; the data of a node are a pointer, null in the dummy node. -/
structure SimpleQueueDummy (α : Type) where
  heap : Heap (Option α)
  head : Option Addr
  tail : Option Addr

namespace SimpleQueueDummy

def empty : SimpleQueueDummy α :=
  let heap : Heap (Option α) := ⟨fun _ => none, 0⟩
  ⟨heap.new ⟨none, none⟩, some heap.allocated, some heap.allocated⟩

def tryPop (s : SimpleQueueDummy α) : Option (SimpleQueueDummy α × Option α) :=
  if s.head = s.tail then some (s, none)
  else do
    let old ← s.head
    let nd ← s.heap.node old
    some ({ s with heap := s.heap.delete old, head := nd.next }, nd.data)

def push (s : SimpleQueueDummy α) (v : α) : Option (SimpleQueueDummy α) := do
  let newTail := s.heap.allocated
  let heap := s.heap.new ⟨none, none⟩
  let t ← s.tail
  let _ ← heap.node t
  some { s with heap := heap.write t ⟨some v, some newTail⟩, tail := some newTail }

end SimpleQueueDummy

/-- `simple_queue` as an object. -/
def simpleQueue : SequentialObject (SimpleQueue α) (Call α) (Reply α) where
  init := .empty
  apply s
    | .push v => (s.push v).map fun s' => (s', .pushed)
    | .tryPop => s.tryPop.map fun (s', v) => (s', .popped v)

/-- `simple_queue_dummy` as an object. -/
def simpleQueueDummy : SequentialObject (SimpleQueueDummy α) (Call α) (Reply α) where
  init := .empty
  apply s
    | .push v => (s.push v).map fun s' => (s', .pushed)
    | .tryPop => s.tryPop.map fun (s', v) => (s', .popped v)

/-! ## What they are for -/

def Call.op : Call α → ContainerOp α
  | .push v => .push v
  | .tryPop => .pop false

/-- The FIFO queue with these calls. -/
def queue : SequentialObject (List α) (Call α) (Reply α) where
  init := fifo.init
  apply q c := fifo.apply q c.op

/-- The values a call leaves in the queue. -/
def after (q : List α) : Call α → List α
  | .push v => q ++ [v]
  | .tryPop => q.tail

/-- What a call answers. -/
def answer (q : List α) : Call α → Reply α
  | .push _ => .pushed
  | .tryPop => .popped q.head?

theorem queue_apply (q : List α) (c : Call α) :
    queue.apply q c = some (after q c, answer q c) := by
  cases c with
  | push v => rfl
  | tryPop => cases q <;> rfl

/-- The values left by the calls, the oldest first. -/
def contents (calls : List (Call α)) : List α := calls.foldl after []

theorem exists_queue_answers (q : List α) (calls : List (Call α)) :
    ∃ rs, queue.answers q calls = some rs := by
  induction calls generalizing q with
  | nil => exact ⟨[], rfl⟩
  | cons c calls ih =>
    obtain ⟨rs, hrs⟩ := ih (after q c)
    exact ⟨answer q c :: rs, by rw [SequentialObject.answers_cons (queue_apply q c), hrs]; rfl⟩

/-! ## Heaps -/

namespace Heap
variable (heap : Heap D) (a b : Addr) (nd : Node D)

theorem nextAt_new : (heap.new nd).nextAt = Function.update heap.nextAt heap.allocated nd.next := by
  funext b
  by_cases hb : b = heap.allocated
  · subst b
    simp [nextAt, new]
  · simp [nextAt, new, hb]

theorem nextAt_write : (heap.write a nd).nextAt = Function.update heap.nextAt a nd.next := by
  funext b
  by_cases hb : b = a
  · subst b
    simp [nextAt, write]
  · simp [nextAt, write, hb]

theorem dataAt_new :
    (heap.new nd).dataAt = Function.update heap.dataAt heap.allocated (some nd.data) := by
  funext b
  by_cases hb : b = heap.allocated
  · subst b
    simp [dataAt, new]
  · simp [dataAt, new, hb]

theorem dataAt_write : (heap.write a nd).dataAt = Function.update heap.dataAt a (some nd.data) := by
  funext b
  by_cases hb : b = a
  · subst b
    simp [dataAt, write]
  · simp [dataAt, write, hb]

variable {heap a b}

theorem nextAt_delete_of_ne (h : b ≠ a) : (heap.delete a).nextAt b = heap.nextAt b := by
  simp [nextAt, delete, h]

theorem dataAt_delete_of_ne (h : b ≠ a) : (heap.delete a).dataAt b = heap.dataAt b := by
  simp [dataAt, delete, h]

theorem exists_of_dataAt {x : D} (h : heap.dataAt a = some x) :
    ∃ nx, heap.node a = some ⟨x, nx⟩ ∧ heap.nextAt a = nx := by
  obtain ⟨nd, hnd, rfl⟩ := Option.map_eq_some_iff.mp h
  exact ⟨nd.next, hnd, by simp [nextAt, hnd]⟩

theorem Fresh.lt (h : heap.Fresh) (ha : heap.node a ≠ none) : a < heap.allocated :=
  Nat.lt_of_not_le fun hle => ha (h a hle)

theorem Fresh.new (h : heap.Fresh) (nd : Node D) : (heap.new nd).Fresh := by
  intro b hb
  have hb : heap.allocated + 1 ≤ b := hb
  have hne : b ≠ heap.allocated := by omega
  simp [Heap.new, hne, h b (by omega)]

theorem Fresh.write (h : heap.Fresh) (ha : heap.node a ≠ none) (nd : Node D) :
    (heap.write a nd).Fresh := by
  intro b hb
  have hne : b ≠ a := fun he => Nat.not_le_of_lt (h.lt ha) (he ▸ hb)
  simpa [Heap.write, hne] using h b hb

theorem Fresh.delete (h : heap.Fresh) : (heap.delete a).Fresh := by
  intro b hb
  by_cases hne : b = a
  · subst b
    simp [Heap.delete]
  · simpa [Heap.delete, hne] using h b hb

end Heap

/-! ## `simple_queue` -/

/-- The queue owns the nodes `l` with the values `q`; `used` says whether a value was ever
pushed.  While the queue is empty, `_tail` is null if it is unused and points to a
destroyed node otherwise. -/
structure SimpleQueue.Shape (s : SimpleQueue α) (used : Bool) (l : List Addr) (q : List α) :
    Prop where
  stack : LinkedStack s.heap.nextAt s.heap.dataAt s.head l q
  fresh : s.heap.Fresh
  tail : ∀ a, l.getLast? = some a → s.tail = some a
  unused : used = false → l = [] ∧ s.tail = none
  dangling : used = true → l = [] →
    ∃ a, s.tail = some a ∧ s.heap.node a = none ∧ a < s.heap.allocated

namespace SimpleQueue.Shape
variable {s : SimpleQueue α} {used : Bool} {l : List Addr} {q : List α}

theorem empty : (SimpleQueue.empty : SimpleQueue α).Shape false [] [] where
  stack := LinkedStack.empty
  fresh _ _ := rfl
  tail _ h := nomatch h
  unused _ := ⟨rfl, rfl⟩
  dangling h := nomatch h

theorem lt_allocated (h : s.Shape used l q) {a : Addr} (ha : a ∈ l) : a < s.heap.allocated := by
  have hmem : s.heap.dataAt a ∈ q.map some := h.stack.data_eq ▸ List.mem_map_of_mem ha
  obtain ⟨v, -, hv⟩ := List.mem_map.mp hmem
  obtain ⟨nx, hnode, -⟩ := Heap.exists_of_dataAt hv.symm
  exact h.fresh.lt (by simp [hnode])

theorem eq_nil_iff (h : s.Shape used l q) : q = [] ↔ l = [] := by
  have hlength : l.length = q.length := by simpa using congrArg List.length h.stack.data_eq
  rw [← List.length_eq_zero_iff, ← hlength, List.length_eq_zero_iff]

/-- `try_pop` of an empty queue. -/
theorem tryPop_nil (h : s.Shape used l []) : s.tryPop = some (s, none) := by
  have hl := h.eq_nil_iff.mp rfl
  subst hl
  have hhead : s.head = none := h.stack.chain
  simp [tryPop, hhead]

/-- `try_pop` of a queue with values.  With the last node goes the node `_tail` points to. -/
theorem tryPop_cons {v : α} (h : s.Shape used l (v :: q)) :
    ∃ s' l', s.tryPop = some (s', some v) ∧ s'.Shape used l' q := by
  have hstack := h.stack
  have hne : s.head ≠ none := by
    intro hnone
    rw [hnone] at hstack
    cases hstack.eq_nil_of_none.2
  obtain ⟨a, hhead⟩ := Option.ne_none_iff_exists'.mp hne
  rw [hhead] at hstack
  obtain ⟨l', w, q', rfl, hq, hdata, hrest⟩ := hstack.pop
  obtain ⟨rfl, rfl⟩ := List.cons.inj hq
  obtain ⟨nx, hnode, hnext⟩ := Heap.exists_of_dataAt hdata
  have hnot : a ∉ l' := (List.nodup_cons.mp h.stack.nodup).1
  refine ⟨⟨s.heap.delete a, nx, s.tail⟩, l', by simp [tryPop, hhead, hnode], ?_⟩
  have hused : used = true := by
    cases used with
    | true => rfl
    | false => exact absurd (h.unused rfl).1 (List.cons_ne_nil _ _)
  refine ⟨?_, h.fresh.delete, fun b hb => ?_, fun hu => ?_, fun _ hl' => ?_⟩
  · rw [hnext] at hrest
    exact hrest.congr
      (fun b hb => Heap.nextAt_delete_of_ne (ne_of_mem_of_not_mem hb hnot))
      (fun b hb => Heap.dataAt_delete_of_ne (ne_of_mem_of_not_mem hb hnot))
  · refine h.tail b ?_
    rw [List.getLast?_cons, hb]
    rfl
  · rw [hused] at hu
    cases hu
  · subst hl'
    exact ⟨a, h.tail a rfl, by simp [Heap.delete], h.fresh.lt (by simp [hnode])⟩

/-- The tail pointer of a used queue that is empty is followed to a destroyed node. -/
theorem push_dangling (h : s.Shape true [] q) (v : α) : s.push v = none := by
  obtain ⟨a, htail, hnode, hlt⟩ := h.dangling rfl rfl
  have hnew : (s.heap.new ⟨v, none⟩).node a = none := by
    simp [Heap.new, Nat.ne_of_lt hlt, hnode]
  simp [push, htail, hnew]

/-- A first `push`, or one onto values. -/
theorem push (h : s.Shape used l q) (v : α) (hok : used = false ∨ q ≠ []) :
    ∃ s' l', s.push v = some s' ∧ s'.Shape true l' (q ++ [v]) := by
  have hfresh : s.heap.allocated ∉ l := fun hmem => Nat.lt_irrefl _ (h.lt_allocated hmem)
  rcases List.eq_nil_or_concat' l with rfl | ⟨l, t, rfl⟩
  · -- the queue is unused, so `_tail` is null
    have hunused : used = false := hok.resolve_right (not_not.mpr (h.eq_nil_iff.mpr rfl))
    have hq : q = [] := h.eq_nil_iff.mpr rfl
    subst hq
    refine ⟨⟨s.heap.new ⟨v, none⟩, some s.heap.allocated, some s.heap.allocated⟩,
      [s.heap.allocated], by simp [SimpleQueue.push, (h.unused hunused).2], ?_⟩
    refine ⟨⟨⟨rfl, ?_⟩, ?_⟩, h.fresh.new _, fun a ha => ?_, nofun, nofun⟩
    · simp [Heap.nextAt_new]
    · simp [Heap.dataAt_new]
    · simpa using ha
  · have htail : s.tail = some t := h.tail t (by simp)
    have htmem : t ∈ l ++ [t] := by simp
    have hne : t ≠ s.heap.allocated := ne_of_mem_of_not_mem htmem hfresh
    obtain ⟨w, hw⟩ : ∃ w, s.heap.dataAt t = some w := by
      have hmem : s.heap.dataAt t ∈ q.map some := h.stack.data_eq ▸ List.mem_map_of_mem htmem
      obtain ⟨w, -, hw⟩ := List.mem_map.mp hmem
      exact ⟨w, hw.symm⟩
    obtain ⟨nx, hnode, -⟩ := Heap.exists_of_dataAt hw
    have hread : (s.heap.new ⟨v, none⟩).node t = some ⟨w, nx⟩ := by simp [Heap.new, hne, hnode]
    refine ⟨⟨(s.heap.new ⟨v, none⟩).write t ⟨w, some s.heap.allocated⟩, s.head,
      some s.heap.allocated⟩, l ++ [t] ++ [s.heap.allocated], by
        simp [SimpleQueue.push, htail, hread], ?_⟩
    refine ⟨⟨?_, ?_⟩, (h.fresh.new _).write (by simp [hread]) _, fun a ha => ?_, nofun,
      fun _ hl => by simp at hl⟩
    · rw [Heap.nextAt_write]
      refine (h.stack.chain.congr fun b hb => ?_).snoc hfresh ?_
      · rw [Heap.nextAt_new, Function.update_of_ne (ne_of_mem_of_not_mem hb hfresh)]
      · simp [Heap.nextAt_new]
    · -- the old nodes keep their data
      have hold : ∀ b ∈ l ++ [t], ((s.heap.new ⟨v, none⟩).write t
          ⟨w, some s.heap.allocated⟩).dataAt b = s.heap.dataAt b := fun b hb => by
        rw [Heap.dataAt_write, Heap.dataAt_new]
        by_cases hbt : b = t
        · subst b
          simp [hw]
        · simp [hbt, ne_of_mem_of_not_mem hb hfresh]
      rw [List.map_append, List.map_congr_left hold, h.stack.data_eq]
      simp [Heap.dataAt_write, Heap.dataAt_new, hne.symm]
    · simpa using ha

end SimpleQueue.Shape

/-! ## `simple_queue_dummy` -/

/-- The value a node of `simple_queue_dummy` points to, if any. -/
def valueAt (heap : Heap (Option α)) (a : Addr) : Option α := (heap.dataAt a).join

/-- The queue owns the nodes `l`, with the values `q`, and the dummy node `tl`. -/
structure SimpleQueueDummy.Shape (s : SimpleQueueDummy α) (l : List Addr) (tl : Addr)
    (q : List α) : Prop where
  queue : LinkedQueue s.heap.nextAt (valueAt s.heap) s.head l tl q
  fresh : s.heap.Fresh
  tail : s.tail = some tl
  node : ∀ a, a ∈ l ∨ a = tl → s.heap.node a ≠ none

namespace SimpleQueueDummy.Shape
variable {s : SimpleQueueDummy α} {l : List Addr} {tl : Addr} {q : List α}

theorem empty : (SimpleQueueDummy.empty : SimpleQueueDummy α).Shape [] 0 [] where
  queue := ⟨rfl, rfl, rfl, rfl⟩
  fresh := Heap.Fresh.new (fun _ _ => rfl) _
  tail := rfl
  node a ha := by
    rcases ha with ha | rfl
    · cases ha
    · simp [SimpleQueueDummy.empty, Heap.new]

/-- `try_pop` of an empty queue. -/
theorem tryPop_nil (h : s.Shape l tl []) : s.tryPop = some (s, none) := by
  have hhead : s.head = some tl := h.queue.eq_nil_iff.mp rfl
  simp [tryPop, hhead, h.tail]

/-- `try_pop` of a queue with values. -/
theorem tryPop_cons {v : α} (h : s.Shape l tl (v :: q)) :
    ∃ s' l', s.tryPop = some (s', some v) ∧ s'.Shape l' tl q := by
  obtain ⟨a, l', rfl, hhead, hnot, hne, hdata, hrest⟩ := h.queue.pop
  obtain ⟨nd, hnode⟩ := Option.ne_none_iff_exists'.mp (h.node a (Or.inl List.mem_cons_self))
  have hv : nd.data = some v := by simpa [valueAt, Heap.dataAt, hnode] using hdata
  have hnext : s.heap.nextAt a = nd.next := by simp [Heap.nextAt, hnode]
  have hold : ∀ b, b ∈ l' ∨ b = tl → b ≠ a := by
    rintro b (hb | rfl)
    · exact ne_of_mem_of_not_mem hb hnot
    · exact hne.symm
  refine ⟨⟨s.heap.delete a, nd.next, s.tail⟩, l', ?_, ?_, h.fresh.delete, h.tail, fun b hb => ?_⟩
  · simp [tryPop, hhead, h.tail, hne, hnode, hv]
  · rw [hnext] at hrest
    exact hrest.congr (fun b hb => Heap.nextAt_delete_of_ne (hold b hb))
      (fun b hb => by rw [valueAt, Heap.dataAt_delete_of_ne (hold b hb)]; rfl)
  · simpa [Heap.delete, hold b hb] using h.node b (hb.imp_left (List.mem_cons_of_mem a))

theorem push (h : s.Shape l tl q) (v : α) :
    ∃ s' l' tl', s.push v = some s' ∧ s'.Shape l' tl' (q ++ [v]) := by
  have hlt : ∀ a, a ∈ l ∨ a = tl → a ≠ s.heap.allocated := fun a ha =>
    Nat.ne_of_lt (h.fresh.lt (h.node a ha))
  have hne : tl ≠ s.heap.allocated := hlt tl (Or.inr rfl)
  obtain ⟨nd, hnode⟩ := Option.ne_none_iff_exists'.mp (h.node tl (Or.inr rfl))
  have hread : (s.heap.new ⟨none, none⟩).node tl = some nd := by simp [Heap.new, hne, hnode]
  have hvalue : ∀ a, valueAt ((s.heap.new ⟨none, none⟩).write tl
      ⟨some v, some s.heap.allocated⟩) a =
      Function.update (Function.update (valueAt s.heap) s.heap.allocated none) tl (some v) a := by
    intro a
    rw [valueAt, Heap.dataAt_write, Heap.dataAt_new]
    by_cases ha : a = tl
    · subst a
      simp
    · by_cases hn : a = s.heap.allocated
      · subst a
        simp [ha]
      · simp [ha, hn, valueAt]
  have hqueue : LinkedQueue (Function.update s.heap.nextAt s.heap.allocated none)
      (Function.update (valueAt s.heap) s.heap.allocated none) s.head l tl q :=
    h.queue.congr (fun a ha => Function.update_of_ne (hlt a ha) _ _)
      (fun a ha => Function.update_of_ne (hlt a ha) _ _)
  refine ⟨⟨(s.heap.new ⟨none, none⟩).write tl ⟨some v, some s.heap.allocated⟩, s.head,
    some s.heap.allocated⟩, l ++ [tl], s.heap.allocated, ?_, ?_,
    (h.fresh.new _).write (by simp [hread]) _, rfl, fun a ha => ?_⟩
  · simp [SimpleQueueDummy.push, h.tail, hread]
  · rw [Heap.nextAt_write, Heap.nextAt_new, funext hvalue]
    exact hqueue.push v hne.symm (Function.update_self ..) (Function.update_self ..)
  · by_cases hat : a = tl
    · subst a
      simp [Heap.write]
    · by_cases han : a = s.heap.allocated
      · subst a
        simp [Heap.write, Heap.new, hne.symm]
      · have hold := h.node a (by simp [hat, han] at ha; exact Or.inl ha)
        simpa [Heap.write, Heap.new, hat, han] using hold

end SimpleQueueDummy.Shape

/-! ## When the two queues agree -/

/-- After calls that left `q` in the queue, and `used` saying whether one of them was a
`push`: every `push` in `calls` is the first one or finds a value in the queue. -/
def TimelyFrom (used : Bool) (q : List α) (calls : List (Call α)) : Prop :=
  ∀ before v rest, calls = before ++ .push v :: rest →
    (used = false ∧ ∀ w, .push w ∉ before) ∨ before.foldl after q ≠ []

/-- Every `push` is the first one or finds a value in the queue: none is made after the
last value has been popped. -/
def Timely (calls : List (Call α)) : Prop :=
  ∀ before v rest, calls = before ++ .push v :: rest →
    (∀ w, .push w ∉ before) ∨ contents before ≠ []

theorem timely_iff (calls : List (Call α)) : Timely calls ↔ TimelyFrom false [] calls := by
  simp [Timely, TimelyFrom, contents]

theorem timelyFrom_nil (used : Bool) (q : List α) : TimelyFrom used q [] := by
  intro before v rest h
  simp at h

theorem timelyFrom_push {used : Bool} {q : List α} {v : α} {calls : List (Call α)} :
    TimelyFrom used q (.push v :: calls) ↔
      (used = false ∨ q ≠ []) ∧ TimelyFrom true (q ++ [v]) calls := by
  constructor
  · intro h
    refine ⟨(h [] v calls rfl).imp_left And.left, fun before w rest hcalls => ?_⟩
    rcases h (.push v :: before) w rest (by rw [hcalls]; rfl) with ⟨-, hnone⟩ | hne
    · exact absurd List.mem_cons_self (hnone v)
    · exact Or.inr hne
  · rintro ⟨hnow, hlater⟩ before w rest hcalls
    cases before with
    | nil => exact hnow.imp_left fun hu => ⟨hu, fun _ => List.not_mem_nil⟩
    | cons c before =>
      obtain ⟨rfl, htail⟩ := List.cons.inj hcalls
      exact Or.inr ((hlater before w rest htail).resolve_left fun h => nomatch h.1)

theorem timelyFrom_tryPop {used : Bool} {q : List α} {calls : List (Call α)} :
    TimelyFrom used q (.tryPop :: calls) ↔ TimelyFrom used q.tail calls := by
  constructor
  · intro h before v rest hcalls
    refine (h (.tryPop :: before) v rest (by rw [hcalls]; rfl)).imp_left ?_
    exact fun hu => ⟨hu.1, fun w hw => hu.2 w (List.mem_cons_of_mem _ hw)⟩
  · intro h before v rest hcalls
    cases before with
    | nil => cases hcalls
    | cons c before =>
      obtain ⟨rfl, htail⟩ := List.cons.inj hcalls
      refine (h before v rest htail).imp_left fun hu => ⟨hu.1, fun w hw => ?_⟩
      rcases List.mem_cons.mp hw with hw | hw
      · cases hw
      · exact hu.2 w hw

/-- `simple_queue` answers like a FIFO queue as long as every `push` is timely, and no
longer. -/
theorem simpleQueue_answers_iff {s : SimpleQueue α} {used : Bool} {l : List Addr} {q : List α}
    (h : s.Shape used l q) (calls : List (Call α)) :
    simpleQueue.answers s calls = queue.answers q calls ↔ TimelyFrom used q calls := by
  induction calls generalizing s used l q with
  | nil => exact iff_of_true rfl (timelyFrom_nil used q)
  | cons c calls ih =>
    have hcons : Function.Injective (Option.map (answer q c :: ·)) :=
      Option.map_injective fun rs rs' h => (List.cons.inj h).2
    rw [SequentialObject.answers_cons (queue_apply q c)]
    cases c with
    | push v =>
      rw [timelyFrom_push]
      by_cases hok : used = false ∨ q ≠ []
      · obtain ⟨s', l', hpush, hs'⟩ := h.push v hok
        have happly : simpleQueue.apply s (.push v) = some (s', .pushed) := by
          simp [simpleQueue, hpush]
        rw [SequentialObject.answers_cons happly, and_iff_right hok]
        exact hcons.eq_iff.trans (ih hs')
      · -- `push` follows `_tail` to the node that the last `try_pop` destroyed
        have hused : used = true := Bool.eq_true_of_not_eq_false fun hu => hok (Or.inl hu)
        have hq : q = [] := not_not.mp fun hne => hok (Or.inr hne)
        have hl : l = [] := h.eq_nil_iff.mp hq
        subst hused hq hl
        have happly : simpleQueue.apply s (.push v) = none := by
          simp [simpleQueue, h.push_dangling v]
        obtain ⟨rs, hrs⟩ := exists_queue_answers (after [] (.push v)) calls
        rw [SequentialObject.answers_cons_none happly, hrs]
        exact iff_of_false nofun fun ht => hok ht.1
    | tryPop =>
      rw [timelyFrom_tryPop]
      cases q with
      | nil =>
        have happly : simpleQueue.apply s .tryPop = some (s, .popped none) := by
          simp [simpleQueue, h.tryPop_nil]
        rw [SequentialObject.answers_cons happly]
        exact hcons.eq_iff.trans (ih h)
      | cons v q =>
        obtain ⟨s', l', hpop, hs'⟩ := h.tryPop_cons
        have happly : simpleQueue.apply s .tryPop = some (s', .popped (some v)) := by
          simp [simpleQueue, hpop]
        rw [SequentialObject.answers_cons happly]
        exact hcons.eq_iff.trans (ih hs')

/-- `simple_queue_dummy` always answers like a FIFO queue. -/
theorem simpleQueueDummy_answers {s : SimpleQueueDummy α} {l : List Addr} {tl : Addr} {q : List α}
    (h : s.Shape l tl q) (calls : List (Call α)) :
    simpleQueueDummy.answers s calls = queue.answers q calls := by
  induction calls generalizing s l tl q with
  | nil => rfl
  | cons c calls ih =>
    rw [SequentialObject.answers_cons (queue_apply q c)]
    cases c with
    | push v =>
      obtain ⟨s', l', tl', hpush, hs'⟩ := h.push v
      have happly : simpleQueueDummy.apply s (.push v) = some (s', .pushed) := by
        simp [simpleQueueDummy, hpush]
      rw [SequentialObject.answers_cons happly, ih hs']
      rfl
    | tryPop =>
      cases q with
      | nil =>
        have happly : simpleQueueDummy.apply s .tryPop = some (s, .popped none) := by
          simp [simpleQueueDummy, h.tryPop_nil]
        rw [SequentialObject.answers_cons happly, ih h]
        rfl
      | cons v q =>
        obtain ⟨s', l', hpop, hs'⟩ := h.tryPop_cons
        have happly : simpleQueueDummy.apply s .tryPop = some (s', .popped (some v)) := by
          simp [simpleQueueDummy, hpop]
        rw [SequentialObject.answers_cons happly, ih hs']
        rfl

/-- **The two queues.**  Neither class follows a pointer to a destroyed node and both
answer as a FIFO queue, hence alike, if and only if no `push` is made after the last value
has been popped. -/
theorem answers_eq_iff (calls : List (Call α)) :
    (∃ rs, simpleQueue.answers .empty calls = some rs ∧
        simpleQueueDummy.answers .empty calls = some rs ∧ queue.answers [] calls = some rs) ↔
      Timely calls := by
  rw [timely_iff, ← simpleQueue_answers_iff .empty calls,
    simpleQueueDummy_answers .empty calls]
  obtain ⟨rs, hrs⟩ := exists_queue_answers [] calls
  rw [hrs]
  constructor
  · rintro ⟨rs', hsimple, -, hrs'⟩
    rw [hsimple, hrs']
  · intro hsimple
    exact ⟨rs, hsimple, rfl, rfl⟩

/-- A `simple_queue` that is used again after it has been emptied follows `_tail` to the
destroyed node. -/
theorem refilled_answers_ne :
    ¬ ∃ rs, simpleQueue.answers .empty [.push 1, .tryPop, .push 2, .tryPop] = some rs ∧
      simpleQueueDummy.answers .empty [.push 1, .tryPop, .push 2, .tryPop] = some rs ∧
      queue.answers [] [.push 1, .tryPop, .push 2, .tryPop] = some rs := by
  rintro ⟨rs, hsimple, -⟩
  cases hsimple

end Sundries.SimpleQueues
