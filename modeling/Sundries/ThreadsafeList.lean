import Sundries.Machine
import Sundries.Segment

/-!
# `threadsafe_list`

The list with one mutex in each node.  A traversal holds the mutex of `current` while it
locks the next node's (hand over hand); `for_each` and `find_first_if` then release the
former before they call the callback, `remove_if` keeps both while it asks its predicate
and, if need be, unlinks and destroys the next node.

A step is one acquisition or release of a mutex, one assignment to a `next`, one read of
`current->next`, one call of a callback, or the destruction of a node.  Nodes are named
by the number of their construction, the `head` first; the code never compares pointers,
so that a name need not be given twice.  A callback may change the value it is given, and
may throw; which answers are possible is the parameter `may`.

What the code does not survive leads to `fault`: the use of a node that does not exist (any
more), of null data, or an assignment to a `unique_ptr` that would destroy what it owns.
-/
namespace Sundries.ThreadsafeList

abbrev Addr := ℕ

/-- The member `head`. -/
def head : Addr := 0

/-- `node`, with null data in the head; `next` null or not. -/
structure Node (V : Type) where
  data : Option V
  next : Option Addr
  deriving DecidableEq

/-- A traversal with its callback. -/
inductive Call (C : Type) where
  | forEach (f : C)
  | findFirstIf (p : C)
  | removeIf (p : C)
  deriving DecidableEq

def Call.callback {C : Type} : Call C → C
  | forEach f => f
  | findFirstIf p => p
  | removeIf p => p

/-- Where a thread is in the member functions. -/
inductive Pc (C : Type) where
  | idle
  /-- `push_front` has made the new node and is about to lock `head.m`. -/
  | pushLock (n : Addr)
  /-- At `new_node->next = std::move(head.next)`. -/
  | pushNext (n : Addr)
  /-- At `head.next = std::move(new_node)`. -/
  | pushHead (n : Addr)
  /-- A traversal is about to lock `head.m`. -/
  | lockHead (c : Call C)
  /-- Holds the mutex of `current`; at the test of the loop. -/
  | scan (c : Call C) (current : Addr)
  /-- Is about to lock the mutex of `next`. -/
  | lockNext (c : Call C) (current next : Addr)
  /-- Holds both; at `lk.unlock()`. -/
  | unlock (c : Call C) (current next : Addr)
  /-- About to call the callback. -/
  | callback (c : Call C) (current next : Addr)
  /-- At `old_next = std::move(current->next)`. -/
  | unlink (p : C) (current next : Addr)
  /-- At `current->next = std::move(next->next)`. -/
  | relink (p : C) (current next : Addr) (oldNext : Option Addr)
  /-- At `next_lk.unlock()`. -/
  | unlockNext (p : C) (current next : Addr) (oldNext : Option Addr)
  /-- At the end of the block, where `old_next` is destroyed. -/
  | destroy (p : C) (current : Addr) (oldNext : Option Addr)
  /-- The predicate of `remove_if` has thrown; the mutex of `next` is released first. -/
  | unwind (current next : Addr)
  /-- Releases the last mutex it holds and returns. -/
  | release (a : Addr)
  | fault
  deriving DecidableEq

/-- The nodes, the holders of the mutexes and the threads' program points.  `nodes` keeps
account of the nodes that were linked to the list and not unlinked, in their order. -/
structure State (Tid V C : Type) where
  heap : Addr → Option (Node V)
  allocated : ℕ
  mutex : Addr → Option Tid
  pc : Tid → Pc C
  nodes : List Addr

/-- The steps; the callback of `t` leaves the value `v` and answers `b`, or throws. -/
inductive Label (Tid V C : Type) where
  | pushFront (t : Tid) (v : V)
  | call (t : Tid) (c : Call C)
  | next (t : Tid)
  | callback (t : Tid) (v : V) (b : Option Bool)
  deriving DecidableEq

variable {Tid V C : Type}

/-- The pointer in `next` of the node at `a`. -/
def nextAt (heap : Addr → Option (Node V)) (a : Addr) : Option Addr := (heap a).bind Node.next

/-- The value that `data` of the node at `a` points to. -/
def dataAt (heap : Addr → Option (Node V)) (a : Addr) : Option V := (heap a).bind Node.data

/-- What comes after the callback. -/
def Call.after (c : Call C) (current next : Addr) (b : Option Bool) : Pc C :=
  match c, b with
  | forEach _, some _ => .scan c next
  | forEach _, none => .release next
  | findFirstIf _, some false => .scan c next
  | findFirstIf _, some true => .release next
  | findFirstIf _, none => .release next
  | removeIf p, some true => .unlink p current next
  | removeIf _, some false => .unlock c current next
  | removeIf _, none => .unwind current next

/-- The assignment of the pointer `q`, which is moved from, to `dst->next`. -/
def assign (heap : Addr → Option (Node V)) (dst : Addr) (q : Option Addr) :
    Option (Addr → Option (Node V)) :=
  match heap dst with
  | some nd =>
    if nd.next.isSome then none else some (Function.update heap dst (some { nd with next := q }))
  | none => none

/-- The pointer `src->next`, which is null once it has been moved out. -/
def moveNext (heap : Addr → Option (Node V)) (src : Addr) :
    Option (Option Addr × (Addr → Option (Node V))) :=
  match heap src with
  | some nd => some (nd.next, Function.update heap src (some { nd with next := none }))
  | none => none

namespace State
variable [DecidableEq Tid]

def goto (s : State Tid V C) (t : Tid) (pc : Pc C) : State Tid V C :=
  { s with pc := Function.update s.pc t pc }

/-- `t` locks the mutex of `a` and goes on at `pc`. -/
def lock (s : State Tid V C) (t : Tid) (a : Addr) (pc : Pc C) : Option (State Tid V C) :=
  match s.heap a with
  | none => some (s.goto t .fault)
  | some _ =>
    match s.mutex a with
    | none => some ({ s with mutex := Function.update s.mutex a (some t) }.goto t pc)
    | some _ => none

/-- `t` unlocks the mutex of `a` and goes on at `pc`. -/
def unlock (s : State Tid V C) (t : Tid) (a : Addr) (pc : Pc C) : State Tid V C :=
  match s.heap a with
  | none => s.goto t .fault
  | some _ => { s with mutex := Function.update s.mutex a none }.goto t pc

/-- The next step of thread `t`. -/
def next (s : State Tid V C) (t : Tid) : Option (State Tid V C) :=
  match s.pc t with
  | .idle | .callback .. | .fault => none
  | .pushLock n => s.lock t head (.pushNext n)
  | .pushNext n =>
    match (moveNext s.heap head).bind fun r => assign r.2 n r.1 with
    | some heap => some ({ s with heap := heap }.goto t (.pushHead n))
    | none => some (s.goto t .fault)
  | .pushHead n =>
    match assign s.heap head (some n) with
    | some heap => some ({ s with heap := heap, nodes := n :: s.nodes }.goto t (.release head))
    | none => some (s.goto t .fault)
  | .lockHead c => s.lock t head (.scan c head)
  | .scan c current =>
    match s.heap current with
    | some nd =>
      match nd.next with
      | some next => some (s.goto t (.lockNext c current next))
      | none => some (s.goto t (.release current))
    | none => some (s.goto t .fault)
  | .lockNext c current next =>
    match c with
    | .removeIf _ => s.lock t next (.callback c current next)
    | .forEach _ | .findFirstIf _ => s.lock t next (.unlock c current next)
  | .unlock c current next =>
    match c with
    | .removeIf _ => some (s.unlock t current (.scan c next))
    | .forEach _ | .findFirstIf _ => some (s.unlock t current (.callback c current next))
  | .unlink p current next =>
    match moveNext s.heap current with
    | some (oldNext, heap) =>
      some ({ s with heap := heap, nodes := s.nodes.erase next }.goto t
        (.relink p current next oldNext))
    | none => some (s.goto t .fault)
  | .relink p current next oldNext =>
    match (moveNext s.heap next).bind fun r => assign r.2 current r.1 with
    | some heap => some ({ s with heap := heap }.goto t (.unlockNext p current next oldNext))
    | none => some (s.goto t .fault)
  | .unlockNext p current next oldNext => some (s.unlock t next (.destroy p current oldNext))
  | .destroy p current oldNext =>
    match oldNext with
    | none => some (s.goto t (.scan (.removeIf p) current))
    | some a =>
      match s.heap a with
      | some nd =>
        -- a node is destroyed with the list it owns
        if nd.next.isSome then some (s.goto t .fault)
        else
          some ({ s with heap := Function.update s.heap a none }.goto t
            (.scan (.removeIf p) current))
      | none => some (s.goto t .fault)
  | .unwind current next => some (s.unlock t next (.release current))
  | .release a => some (s.unlock t a .idle)

/-- The callback of `t` is called and leaves the value `v`. -/
def callback (may : C → V → V → Option Bool → Bool) (s : State Tid V C) (t : Tid) (v : V)
    (b : Option Bool) : Option (State Tid V C) :=
  match s.pc t with
  | .callback c current next =>
    match s.heap next with
    | some nd =>
      match nd.data with
      | some old =>
        if may c.callback old v b then
          some ({ s with heap := Function.update s.heap next (some { nd with data := some v }) }.goto
            t (c.after current next b))
        else none
      | none => some (s.goto t .fault)
    | none => some (s.goto t .fault)
  | _ => none

end State

/-- A list and the threads that use it; `may c old v b` says that the callback `c`, given the
value `old`, may leave the value `v` and answer `b`. -/
def machine [DecidableEq Tid] (may : C → V → V → Option Bool → Bool) :
    Machine (State Tid V C) (Label Tid V C) where
  init :=
    { heap := Function.update (fun _ => none) head (some ⟨none, none⟩)
      allocated := 1
      mutex := fun _ => none
      pc := fun _ => .idle
      nodes := [] }
  step s
    | .pushFront t v =>
      match s.pc t with
      | .idle =>
        some ({ s with
          heap := Function.update s.heap s.allocated (some ⟨some v, none⟩)
          allocated := s.allocated + 1 }.goto t (.pushLock s.allocated))
      | _ => none
    | .call t c =>
      match s.pc t with
      | .idle => some (s.goto t (.lockHead c))
      | _ => none
    | .next t => s.next t
    | .callback t v b => s.callback may t v b

/-! ## What the threads hold, own and know -/

namespace Pc

/-- The nodes whose mutexes the thread holds. -/
def holds : Pc C → List Addr
  | .pushNext _ | .pushHead _ => [head]
  | .scan _ current | .lockNext _ current _ | .destroy _ current _ => [current]
  | .unlock _ current next | .unlink _ current next | .relink _ current next _
  | .unlockNext _ current next _ | .unwind current next => [current, next]
  | .callback c current next =>
    match c with
    | .removeIf _ => [current, next]
    | .forEach _ | .findFirstIf _ => [next]
  | .release a => [a]
  | .idle | .pushLock _ | .lockHead _ | .fault => []

/-- The node outside the list that belongs to the thread: a new one, or one it has unlinked. -/
def owns : Pc C → Option Addr
  | .pushLock n | .pushNext n | .pushHead n => some n
  | .relink _ _ next _ | .unlockNext _ _ next _ => some next
  | .destroy _ _ oldNext => oldNext
  | _ => none

/-- The link of `a` is moved out: the thread is about to set it again. -/
def Detaches : Pc C → Addr → Prop
  | .pushHead _, a => a = head
  | .relink _ current _ _, a => a = current
  | _, _ => False

/-- The thread waits for the mutex of `a`. -/
def Waits : Pc C → Addr → Prop
  | .pushLock _, a | .lockHead _, a => a = head
  | .lockNext _ _ next, a => a = next
  | _, _ => False

/-- The nodes that the thread uses in its next step. -/
def Touches (pc : Pc C) (a : Addr) : Prop := a ∈ pc.holds ∨ pc.owns = some a ∨ pc.Waits a

/-- What a thread knows of the list `l`, the head included, and of the links. -/
def Knows (l : List Addr) (next : Addr → Option Addr) : Pc C → Prop
  | .idle | .lockHead _ => True
  | .pushLock n | .pushNext n => next n = none
  | .pushHead n => head ∈ l ∧ next head = none ∧ next n = follower l head
  | .scan _ current | .release current => current ∈ l
  | .lockNext _ current nx | .unlock _ current nx | .unlink _ current nx | .unwind current nx =>
    follower l current = some nx
  | .callback c current nx =>
    match c with
    | .removeIf _ => follower l current = some nx
    | .forEach _ | .findFirstIf _ => nx ∈ l.tail
  | .relink _ current nx oldNext =>
    current ∈ l ∧ oldNext = some nx ∧ next current = none ∧ next nx = follower l current
  | .unlockNext _ current nx oldNext => current ∈ l ∧ oldNext = some nx ∧ next nx = none
  | .destroy _ current oldNext => current ∈ l ∧ ∃ nx, oldNext = some nx ∧ next nx = none
  | .fault => False

variable {pc : Pc C} {l l' : List Addr} {next next' : Addr → Option Addr} {a : Addr}

/-- A thread holds nodes of the list, and perhaps its own. -/
theorem Knows.mem (h : pc.Knows l next) (hl : head ∈ l) (ha : a ∈ pc.holds) :
    a ∈ l ∨ pc.owns = some a := by
  cases pc with
  | idle | pushLock n | lockHead c | fault => cases ha
  | pushNext n | pushHead n =>
    rw [List.mem_singleton.mp ha]
    exact Or.inl hl
  | scan c current | release current =>
    rw [List.mem_singleton.mp ha]
    exact Or.inl h
  | lockNext c current nx =>
    rw [List.mem_singleton.mp ha]
    exact Or.inl (mem_of_follower h).1
  | destroy p current oldNext =>
    rw [List.mem_singleton.mp ha]
    exact Or.inl h.1
  | unlock c current nx | unlink c current nx | unwind current nx =>
    obtain ⟨hcurrent, hnx⟩ := mem_of_follower h
    rcases List.mem_cons.mp ha with rfl | ha
    · exact Or.inl hcurrent
    · rw [List.mem_singleton.mp ha]
      exact Or.inl hnx
  | relink p current nx oldNext | unlockNext p current nx oldNext =>
    rcases List.mem_cons.mp ha with rfl | ha
    · exact Or.inl h.1
    · rw [List.mem_singleton.mp ha]
      exact Or.inr rfl
  | callback c current nx =>
    cases c with
    | removeIf p =>
      obtain ⟨hcurrent, hnx⟩ := mem_of_follower h
      rcases List.mem_cons.mp ha with rfl | ha
      · exact Or.inl hcurrent
      · rw [List.mem_singleton.mp ha]
        exact Or.inl hnx
    | forEach f | findFirstIf p =>
      rw [List.mem_singleton.mp ha]
      exact Or.inl (List.mem_of_mem_tail h)

/-- **The frame rule**: what a thread knows is about the nodes that it holds or owns. -/
theorem Knows.frame (h : pc.Knows l next)
    (hheld : ∀ a ∈ pc.holds, a ∈ l → a ∈ l' ∧ follower l' a = follower l a)
    (htail : ∀ a ∈ pc.holds, a ∈ l.tail → a ∈ l'.tail)
    (hnext : ∀ a, a ∈ pc.holds ∨ pc.owns = some a → next' a = next a) : pc.Knows l' next' := by
  cases pc with
  | idle | lockHead c => trivial
  | fault => exact h
  | pushLock n | pushNext n => exact (hnext n (Or.inr rfl)).trans h
  | pushHead n =>
    obtain ⟨hl, hhead, hn⟩ := h
    obtain ⟨hl', hf⟩ := hheld head List.mem_cons_self hl
    exact ⟨hl', (hnext head (Or.inl List.mem_cons_self)).trans hhead,
      (hnext n (Or.inr rfl)).trans (hn.trans hf.symm)⟩
  | scan c current | release current => exact (hheld current List.mem_cons_self h).1
  | lockNext c current nx | unlock c current nx | unlink c current nx | unwind current nx =>
    exact (hheld current List.mem_cons_self (mem_of_follower h).1).2.trans h
  | callback c current nx =>
    cases c with
    | removeIf p => exact (hheld current List.mem_cons_self (mem_of_follower h).1).2.trans h
    | forEach f | findFirstIf p => exact htail nx List.mem_cons_self h
  | relink p current nx oldNext =>
    obtain ⟨hl, hold, hcurrent, hnx⟩ := h
    obtain ⟨hl', hf⟩ := hheld current List.mem_cons_self hl
    exact ⟨hl', hold, (hnext current (Or.inl List.mem_cons_self)).trans hcurrent,
      (hnext nx (Or.inr rfl)).trans (hnx.trans hf.symm)⟩
  | unlockNext p current nx oldNext =>
    obtain ⟨hl, hold, hnx⟩ := h
    exact ⟨(hheld current List.mem_cons_self hl).1, hold, (hnext nx (Or.inr rfl)).trans hnx⟩
  | destroy p current oldNext =>
    obtain ⟨hl, nx, hold, hnx⟩ := h
    exact ⟨(hheld current List.mem_cons_self hl).1, nx, hold,
      (hnext nx (Or.inr hold)).trans hnx⟩

/-- Who is about to set a link holds the mutex of the node. -/
theorem Detaches.holds (h : pc.Detaches a) : a ∈ pc.holds := by
  cases pc with
  | pushHead n =>
    rw [show a = head from h]
    exact List.mem_cons_self
  | relink p current nx oldNext =>
    rw [show a = current from h]
    exact List.mem_cons_self
  | _ => cases h

end Pc

/-- The list with its head. -/
def State.list (s : State Tid V C) : List Addr := head :: s.nodes

/-- The invariant.  The links of the nodes in the list lead to the node behind, except while
the holder of the node's mutex is about to set its link. -/
structure Inv (s : State Tid V C) : Prop where
  fresh : ∀ a, s.allocated ≤ a → s.heap a = none
  nodup : s.list.Nodup
  live : ∀ a ∈ s.list, (s.heap a).isSome
  data : ∀ a ∈ s.nodes, (dataAt s.heap a).isSome
  links : ∀ a ∈ s.list, nextAt s.heap a = follower s.list a ∨ ∃ t, (s.pc t).Detaches a
  mutex : ∀ a t, s.mutex a = some t ↔ a ∈ (s.pc t).holds
  knows : ∀ t, (s.pc t).Knows s.list (nextAt s.heap)
  owned : ∀ t a, (s.pc t).owns = some a →
    (s.heap a).isSome ∧ (dataAt s.heap a).isSome ∧ a ∉ s.list
  owner : ∀ t u a, (s.pc t).owns = some a → (s.pc u).owns = some a → t = u

namespace Inv
variable [DecidableEq Tid] {s s' : State Tid V C} {t u : Tid} {pc' : Pc C} {a : Addr}

omit [DecidableEq Tid] in
theorem held_unique (h : Inv s) (ht : a ∈ (s.pc t).holds) (hu : a ∈ (s.pc u).holds) : t = u :=
  Option.some.inj (((h.mutex a t).mpr ht).symm.trans ((h.mutex a u).mpr hu))

omit [DecidableEq Tid] in
/-- A thread holds nodes of the list, and perhaps its own. -/
theorem mem_of_holds (h : Inv s) (ha : a ∈ (s.pc t).holds) :
    a ∈ s.list ∨ (s.pc t).owns = some a :=
  (h.knows t).mem List.mem_cons_self ha

omit [DecidableEq Tid] in
/-- What belongs to a thread outside the list is held by no other. -/
theorem not_held_of_owned (h : Inv s) (ha : (s.pc t).owns = some a) (hu : u ≠ t) :
    a ∉ (s.pc u).holds := by
  intro hheld
  rcases h.mem_of_holds hheld with hlist | howns
  · exact (h.owned t a ha).2.2 hlist
  · exact hu (h.owner u t a howns ha)

omit [DecidableEq Tid] in
/-- The link of a node whose holder is not about to set it. -/
theorem next_of_held (h : Inv s) (ht : a ∈ (s.pc t).holds) (hlist : a ∈ s.list)
    (hset : ¬ (s.pc t).Detaches a) : nextAt s.heap a = follower s.list a := by
  rcases h.links a hlist with hlink | ⟨u, hu⟩
  · exact hlink
  · obtain rfl := h.held_unique ht hu.holds
    exact absurd hu hset

/-- **One thread moves.**  It has changed only nodes that it held or owned, and has taken only
such nodes into the list or out of it; these are as they should be. -/
theorem change (h : Inv s) (hpc : s'.pc = Function.update s.pc t pc')
    (hmutex : ∀ a u, s'.mutex a = some u ↔ a ∈ (s'.pc u).holds)
    (hfresh : ∀ a, s'.allocated ≤ a → s'.heap a = none)
    (hheap : ∀ a, (s.heap a).isSome → a ∉ (s.pc t).holds → (s.pc t).owns ≠ some a →
      s'.heap a = s.heap a)
    (hnodup : s'.list.Nodup)
    (hkeep : ∀ a ∈ s.list, a ∉ (s.pc t).holds →
      a ∈ s'.list ∧ follower s'.list a = follower s.list a)
    (hlist : ∀ a ∈ s'.list, a ∈ s.list ∨ (s.pc t).owns = some a)
    (hnew : ∀ a ∈ s'.list, a ∈ (s.pc t).holds ∨ (s.pc t).owns = some a →
      (s'.heap a).isSome ∧ (a ∈ s'.nodes → (dataAt s'.heap a).isSome) ∧
        (nextAt s'.heap a = follower s'.list a ∨ pc'.Detaches a))
    (hknows : pc'.Knows s'.list (nextAt s'.heap))
    (howned : ∀ a, pc'.owns = some a → ((s'.heap a).isSome ∧ (dataAt s'.heap a).isSome ∧
      a ∉ s'.list) ∧ ∀ u, u ≠ t → (s.pc u).owns ≠ some a) : Inv s' := by
  have hself : s'.pc t = pc' := by rw [hpc, Function.update_self]
  have hother : ∀ u, u ≠ t → s'.pc u = s.pc u := fun u hu => by
    rw [hpc, Function.update_of_ne hu]
  have hhead : head ∉ s'.nodes := (List.nodup_cons.mp hnodup).1
  -- a node of the list that the moving thread neither held nor owned
  have hold : ∀ a ∈ s'.list, ¬ (a ∈ (s.pc t).holds ∨ (s.pc t).owns = some a) →
      a ∈ s.list ∧ s'.heap a = s.heap a ∧ follower s'.list a = follower s.list a := by
    intro a ha hnot
    rw [not_or] at hnot
    have hmem := (hlist a ha).resolve_right hnot.2
    exact ⟨hmem, hheap a (h.live a hmem) hnot.1 hnot.2, (hkeep a hmem hnot.1).2⟩
  -- what another thread holds or owns
  have hframe : ∀ u, u ≠ t → ∀ a, a ∈ (s.pc u).holds ∨ (s.pc u).owns = some a →
      s'.heap a = s.heap a := by
    rintro u hu a (hheld | howns)
    · have hnot : (s.pc t).owns ≠ some a := fun ht => h.not_held_of_owned ht hu hheld
      have hlive : (s.heap a).isSome := by
        rcases h.mem_of_holds hheld with hmem | howns
        · exact h.live a hmem
        · exact (h.owned u a howns).1
      exact hheap a hlive (fun ht => hu (h.held_unique hheld ht)) hnot
    · exact hheap a (h.owned u a howns).1 (h.not_held_of_owned howns (Ne.symm hu))
        fun ht => hu (h.owner u t a howns ht)
  refine ⟨hfresh, hnodup, fun a ha => ?_, fun a ha => ?_, fun a ha => ?_, hmutex, fun u => ?_,
    fun u a ha => ?_, fun u v a hu hv => ?_⟩
  · by_cases hmine : a ∈ (s.pc t).holds ∨ (s.pc t).owns = some a
    · exact (hnew a ha hmine).1
    · obtain ⟨hmem, hsame, -⟩ := hold a ha hmine
      rw [hsame]
      exact h.live a hmem
  · have hmem := List.mem_cons_of_mem head ha
    by_cases hmine : a ∈ (s.pc t).holds ∨ (s.pc t).owns = some a
    · exact (hnew a hmem hmine).2.1 ha
    · obtain ⟨hmem, hsame, -⟩ := hold a hmem hmine
      rw [dataAt, hsame]
      refine h.data a ((List.mem_cons.mp hmem).resolve_left fun he => ?_)
      exact hhead (he ▸ ha)
  · by_cases hmine : a ∈ (s.pc t).holds ∨ (s.pc t).owns = some a
    · rcases (hnew a ha hmine).2.2 with hlink | hset
      · exact Or.inl hlink
      · exact Or.inr ⟨t, hself.symm ▸ hset⟩
    · obtain ⟨hmem, hsame, hfollower⟩ := hold a ha hmine
      rcases h.links a hmem with hlink | ⟨u, hu⟩
      · exact Or.inl (by rw [nextAt, hsame, hfollower]; exact hlink)
      · have hut : u ≠ t := fun he => hmine (Or.inl (he ▸ hu.holds))
        exact Or.inr ⟨u, (hother u hut).symm ▸ hu⟩
  · by_cases hu : u = t
    · rw [hu, hself]
      exact hknows
    · rw [hother u hu]
      refine (h.knows u).frame (fun a ha hmem => ?_) (fun a ha hmem => ?_) fun a ha => ?_
      · exact hkeep a hmem fun ht => hu (h.held_unique ha ht)
      · have hmem : a ∈ s.nodes := hmem
        have hne : a ≠ head := ne_of_mem_of_not_mem hmem (List.nodup_cons.mp h.nodup).1
        have hin := (hkeep a (List.mem_cons_of_mem head hmem)
          fun ht => hu (h.held_unique ha ht)).1
        exact (List.mem_cons.mp hin).resolve_left hne
      · rw [nextAt, hframe u hu a ha]
        rfl
  · by_cases hu : u = t
    · rw [hu, hself] at ha
      exact (howned a ha).1
    · rw [hother u hu] at ha
      obtain ⟨hlive, hdata, hmem⟩ := h.owned u a ha
      have hsame := hframe u hu a (Or.inr ha)
      refine ⟨hsame ▸ hlive, by rw [dataAt, hsame]; exact hdata, fun hin => ?_⟩
      rcases hlist a hin with hin | ht
      · exact hmem hin
      · exact hu (h.owner u t a ha ht)
  · by_cases hut : u = t <;> by_cases hvt : v = t
    · rw [hut, hvt]
    · subst u
      rw [hself] at hu
      rw [hother v hvt] at hv
      exact absurd hv ((howned a hu).2 v hvt)
    · subst v
      rw [hself] at hv
      rw [hother u hut] at hu
      exact absurd hu ((howned a hv).2 u hut)
    · rw [hother u hut] at hu
      rw [hother v hvt] at hv
      exact h.owner u v a hu hv

/-- Nodes and list stay as they are. -/
theorem stay (h : Inv s) (hpc : s'.pc = Function.update s.pc t pc') (hheap : s'.heap = s.heap)
    (hallocated : s'.allocated = s.allocated) (hnodes : s'.nodes = s.nodes)
    (hmutex : ∀ a u, s'.mutex a = some u ↔ a ∈ (s'.pc u).holds)
    (hset : ∀ a, ¬ (s.pc t).Detaches a) (hknows : pc'.Knows s.list (nextAt s.heap))
    (howns : ∀ a, pc'.owns = some a → (s.pc t).owns = some a) : Inv s' := by
  have hlist : s'.list = s.list := by rw [State.list, hnodes, State.list]
  refine h.change hpc hmutex ?_ ?_ ?_ ?_ ?_ (fun a ha hmine => ?_) ?_ (fun a ha => ?_)
  · rw [hallocated, hheap]
    exact h.fresh
  · exact fun _ _ _ _ => by rw [hheap]
  · rw [hlist]
    exact h.nodup
  · exact fun a ha _ => by rw [hlist]; exact ⟨ha, rfl⟩
  · exact fun a ha => Or.inl (hlist ▸ ha)
  · rw [hlist] at ha ⊢
    rw [hheap]
    refine ⟨h.live a ha, fun hmem => h.data a (hnodes ▸ hmem), Or.inl ?_⟩
    rcases hmine with hheld | howned
    · exact h.next_of_held hheld ha (hset a)
    · exact absurd ha (h.owned t a howned).2.2
  · rw [hlist, hheap]
    exact hknows
  · have hold := howns a ha
    rw [hheap, hlist]
    exact ⟨h.owned t a hold, fun u hu hau => hu (h.owner u t a hau hold)⟩

omit [DecidableEq Tid] in
/-- A node that exists is changed: what is not made yet stays so. -/
theorem fresh_update {heap : Addr → Option (Node V)} {k : ℕ} {b : Addr}
    (h : ∀ a, k ≤ a → heap a = none) (hb : (heap b).isSome) (x : Option (Node V)) (a : Addr)
    (ha : k ≤ a) : Function.update heap b x a = none := by
  have hne : a ≠ b := by
    rintro rfl
    rw [h a ha] at hb
    cases hb
  rw [Function.update_of_ne hne]
  exact h a ha

/-- The thread holds what it held. -/
theorem mutex_same (h : Inv s) (hmutex : s'.mutex = s.mutex)
    (hpc : s'.pc = Function.update s.pc t pc') (hholds : ∀ b, b ∈ pc'.holds ↔ b ∈ (s.pc t).holds)
    (b : Addr) (u : Tid) : s'.mutex b = some u ↔ b ∈ (s'.pc u).holds := by
  rw [hmutex, hpc]
  by_cases hu : u = t
  · subst u
    rw [Function.update_self, hholds]
    exact h.mutex b t
  · rw [Function.update_of_ne hu]
    exact h.mutex b u

/-- The thread goes on at `pc'`. -/
theorem goto (h : Inv s) (hholds : ∀ b, b ∈ pc'.holds ↔ b ∈ (s.pc t).holds)
    (hset : ∀ a, ¬ (s.pc t).Detaches a) (hknows : pc'.Knows s.list (nextAt s.heap))
    (howns : ∀ a, pc'.owns = some a → (s.pc t).owns = some a) : Inv (s.goto t pc') :=
  h.stay rfl rfl rfl rfl (h.mutex_same rfl rfl hholds) hset hknows howns

/-- The thread locks one more mutex. -/
theorem lock (h : Inv s) (hstep : s.lock t a pc' = some s') (hlive : (s.heap a).isSome)
    (hholds : ∀ b, b ∈ pc'.holds ↔ b = a ∨ b ∈ (s.pc t).holds)
    (hset : ∀ a, ¬ (s.pc t).Detaches a) (hknows : pc'.Knows s.list (nextAt s.heap))
    (howns : ∀ a, pc'.owns = some a → (s.pc t).owns = some a) : Inv s' := by
  obtain ⟨nd, hnd⟩ := Option.isSome_iff_exists.mp hlive
  unfold State.lock at hstep
  cases hfree : s.mutex a with
  | some u => simp [hnd, hfree] at hstep
  | none =>
    simp only [hnd, hfree, Option.some.injEq] at hstep
    subst hstep
    refine h.stay rfl rfl rfl rfl (fun b u => ?_) hset hknows howns
    show Function.update s.mutex a (some t) b = some u ↔ b ∈ (Function.update s.pc t pc' u).holds
    by_cases hu : u = t <;> by_cases hb : b = a
    · subst u b
      rw [Function.update_self, Function.update_self, hholds]
      exact iff_of_true rfl (Or.inl rfl)
    · subst u
      rw [Function.update_of_ne hb, Function.update_self, hholds, or_iff_right hb]
      exact h.mutex b t
    · subst b
      rw [Function.update_self, Function.update_of_ne hu]
      refine iff_of_false (fun he => hu (Option.some.inj he).symm) fun hheld => ?_
      rw [(h.mutex a u).mpr hheld] at hfree
      cases hfree
    · rw [Function.update_of_ne hb, Function.update_of_ne hu]
      exact h.mutex b u

/-- The thread unlocks a mutex that it holds. -/
theorem unlock (h : Inv s) (ha : a ∈ (s.pc t).holds) (hlive : (s.heap a).isSome)
    (hholds : ∀ b, b ∈ pc'.holds ↔ b ≠ a ∧ b ∈ (s.pc t).holds)
    (hset : ∀ a, ¬ (s.pc t).Detaches a) (hknows : pc'.Knows s.list (nextAt s.heap))
    (howns : ∀ a, pc'.owns = some a → (s.pc t).owns = some a) : Inv (s.unlock t a pc') := by
  obtain ⟨nd, hnd⟩ := Option.isSome_iff_exists.mp hlive
  unfold State.unlock
  rw [hnd]
  refine h.stay rfl rfl rfl rfl (fun b u => ?_) hset hknows howns
  show Function.update s.mutex a none b = some u ↔ b ∈ (Function.update s.pc t pc' u).holds
  by_cases hu : u = t <;> by_cases hb : b = a
  · subst u b
    rw [Function.update_self, Function.update_self, hholds]
    exact iff_of_false nofun fun hboth => hboth.1 rfl
  · subst u
    rw [Function.update_of_ne hb, Function.update_self, hholds, and_iff_right hb]
    exact h.mutex b t
  · subst b
    rw [Function.update_self, Function.update_of_ne hu]
    exact iff_of_false nofun fun hheld => hu (h.held_unique hheld ha)
  · rw [Function.update_of_ne hb, Function.update_of_ne hu]
    exact h.mutex b u

/-- A new node. -/
theorem alloc (h : Inv s) (hpc : s.pc t = .idle) (v : V) :
    Inv ({ s with
      heap := Function.update s.heap s.allocated (some ⟨some v, none⟩)
      allocated := s.allocated + 1 }.goto t (.pushLock s.allocated)) := by
  have hnew : s.heap s.allocated = none := h.fresh _ (Nat.le_refl _)
  have hne : ∀ a, (s.heap a).isSome → a ≠ s.allocated := by
    rintro a ha rfl
    rw [hnew] at ha
    cases ha
  have hmem : s.allocated ∉ s.list := fun hin => hne _ (h.live _ hin) rfl
  refine h.change rfl (h.mutex_same rfl rfl fun b => by rw [hpc]; rfl) (fun a ha => ?_)
    (fun a ha _ _ => Function.update_of_ne (hne a ha) ..) h.nodup (fun a ha _ => ⟨ha, rfl⟩)
    (fun a ha => Or.inl ha) (fun a ha hmine => ?_) ?_ (fun a ha => ?_)
  · have hlt : s.allocated < a := ha
    show Function.update s.heap s.allocated _ a = none
    rw [Function.update_of_ne (Nat.ne_of_gt hlt)]
    exact h.fresh a (Nat.le_of_lt hlt)
  · rw [hpc] at hmine
    rcases hmine with hheld | howned
    · cases hheld
    · cases howned
  · show nextAt (Function.update s.heap s.allocated _) s.allocated = none
    simp [nextAt]
  · obtain rfl := Option.some.inj ha
    refine ⟨⟨?_, ?_, hmem⟩, fun u _ hu => hne _ (h.owned u _ hu).1 rfl⟩
    · simp [State.goto]
    · simp [State.goto, dataAt]

omit [DecidableEq Tid] in
theorem head_not_mem (h : Inv s) : head ∉ s.nodes := (List.nodup_cons.mp h.nodup).1

omit [DecidableEq Tid] in
/-- What is behind another node is not the head. -/
theorem mem_nodes_of_follower (h : Inv s) {b : Addr} (hf : follower s.list a = some b) :
    b ∈ s.nodes ∧ a ≠ b := by
  obtain ⟨l₁, l₂, hl, -⟩ := exists_split_of_follower hf
  have hnodup := h.nodup
  rw [hl] at hnodup
  have hne : a ≠ b := by
    rintro rfl
    simpa using (List.nodup_append.mp hnodup).2.1
  refine ⟨?_, hne⟩
  cases l₁ with
  | nil =>
    have hnodes : s.nodes = b :: l₂ := (List.cons.inj hl).2
    simp [hnodes]
  | cons c l₁ =>
    have hnodes : s.nodes = l₁ ++ a :: b :: l₂ := (List.cons.inj hl).2
    simp [hnodes]

/-- `new_node->next = std::move(head.next)`. -/
theorem pushNext (h : Inv s) {n : Addr} (hpc : s.pc t = .pushNext n)
    (hstep : s.next t = some s') : Inv s' := by
  have hknows := h.knows t
  rw [hpc] at hknows
  have hheld : head ∈ (s.pc t).holds := by rw [hpc]; exact List.mem_cons_self
  have howns : (s.pc t).owns = some n := by rw [hpc]; rfl
  have hset : ∀ a, ¬ (s.pc t).Detaches a := fun a => by rw [hpc]; exact id
  obtain ⟨hlive, hdata, hmem⟩ := h.owned t n howns
  obtain ⟨nd, hnd⟩ := Option.isSome_iff_exists.mp hlive
  obtain ⟨hd, hhd⟩ := Option.isSome_iff_exists.mp (h.live head List.mem_cons_self)
  have hne : n ≠ head := fun he => hmem (he ▸ List.mem_cons_self)
  have hnull : nd.next = none := by
    have hn : nextAt s.heap n = none := hknows
    rwa [nextAt, hnd] at hn
  have hlink : hd.next = follower s.list head := by
    rw [← h.next_of_held hheld List.mem_cons_self (hset head), nextAt, hhd]
    rfl
  have hassign : (moveNext s.heap head).bind (fun r => assign r.2 n r.1) =
      some (Function.update (Function.update s.heap head (some { hd with next := none })) n
        (some { nd with next := hd.next })) := by
    simp [moveNext, assign, hhd, hne, hnd, hnull]
  simp only [State.next, hpc, hassign, Option.some.injEq] at hstep
  subst hstep
  have hn : (Function.update s.heap head (some { hd with next := none }) n).isSome := by
    simpa [hne] using hlive
  refine h.change rfl (h.mutex_same rfl rfl fun b => by rw [hpc]; rfl)
    (fresh_update (fresh_update h.fresh (h.live head List.mem_cons_self) _) hn _)
    (fun a ha hnot hno => ?_) h.nodup (fun a ha _ => ⟨ha, rfl⟩) (fun a ha => Or.inl ha)
    (fun a ha hmine => ?_) ?_ (fun a ha => ?_)
  · have han : a ≠ n := fun he => hno (he ▸ howns)
    have hah : a ≠ head := fun he => hnot (he ▸ hheld)
    show Function.update (Function.update s.heap head _) n _ a = _
    rw [Function.update_of_ne han, Function.update_of_ne hah]
  · -- of the list only the head is concerned, and its link is moved out
    rcases hmine with hin | how
    · rw [hpc] at hin
      obtain rfl := List.mem_singleton.mp hin
      refine ⟨?_, fun hn => absurd hn h.head_not_mem, Or.inr rfl⟩
      simp [State.goto, Ne.symm hne]
    · rw [howns] at how
      exact absurd (Option.some.inj how ▸ ha) hmem
  · refine ⟨List.mem_cons_self, ?_, ?_⟩
    · simp [nextAt, State.goto, Ne.symm hne]
    · show nextAt (Function.update _ n _) n = follower s.list head
      simp [nextAt, hlink]
  · obtain rfl := Option.some.inj ha
    refine ⟨⟨?_, ?_, hmem⟩, fun u hu hau => hu (h.owner u t n hau howns)⟩
    · simp [State.goto]
    · rw [dataAt, hnd] at hdata
      simpa [State.goto, dataAt] using hdata

/-- `head.next = std::move(new_node)`. -/
theorem pushHead (h : Inv s) {n : Addr} (hpc : s.pc t = .pushHead n)
    (hstep : s.next t = some s') : Inv s' := by
  have hknows := h.knows t
  rw [hpc] at hknows
  obtain ⟨-, hnull, hlink⟩ := hknows
  have hheld : head ∈ (s.pc t).holds := by rw [hpc]; exact List.mem_cons_self
  have howns : (s.pc t).owns = some n := by rw [hpc]; rfl
  obtain ⟨hlive, hdata, hmem⟩ := h.owned t n howns
  obtain ⟨hd, hhd⟩ := Option.isSome_iff_exists.mp (h.live head List.mem_cons_self)
  have hne : n ≠ head := fun he => hmem (he ▸ List.mem_cons_self)
  have hnull : hd.next = none := by rwa [nextAt, hhd] at hnull
  have hassign : assign s.heap head (some n) =
      some (Function.update s.heap head (some { hd with next := some n })) := by
    simp [assign, hhd, hnull]
  simp only [State.next, hpc, hassign, Option.some.injEq] at hstep
  subst hstep
  have hlist : State.list ({ s with
      heap := Function.update s.heap head (some { hd with next := some n })
      nodes := n :: s.nodes }.goto t (.release head)) = head :: n :: s.nodes := rfl
  have hhead : head ∉ n :: s.nodes := by
    rw [List.mem_cons, not_or]
    exact ⟨Ne.symm hne, h.head_not_mem⟩
  have hn : n ∉ s.nodes := fun hin => hmem (List.mem_cons_of_mem head hin)
  refine h.change rfl (h.mutex_same rfl rfl fun b => by rw [hpc]; rfl)
    (fresh_update h.fresh (h.live head List.mem_cons_self) _) (fun a ha hnot _ => ?_) ?_
    (fun a ha hnot => ?_) (fun a ha => ?_) (fun a ha hmine => ?_) List.mem_cons_self
    (fun a ha => by cases ha)
  · have hah : a ≠ head := fun he => hnot (he ▸ hheld)
    exact Function.update_of_ne hah ..
  · rw [hlist]
    exact List.nodup_cons.mpr ⟨hhead, List.nodup_cons.mpr ⟨hn, (List.nodup_cons.mp h.nodup).2⟩⟩
  · -- behind the other nodes stands what stood there
    have hah : a ≠ head := fun he => hnot (he ▸ hheld)
    have hin : a ∈ s.nodes := (List.mem_cons.mp ha).resolve_left hah
    have han : a ≠ n := ne_of_mem_of_not_mem hin hn
    rw [hlist, State.list, follower_cons_of_ne hah, follower_cons_of_ne han,
      follower_cons_of_ne hah]
    exact ⟨List.mem_cons_of_mem _ (List.mem_cons_of_mem _ hin), rfl⟩
  · rw [hlist] at ha
    rcases List.mem_cons.mp ha with rfl | ha
    · exact Or.inl List.mem_cons_self
    · rcases List.mem_cons.mp ha with rfl | ha
      · exact Or.inr howns
      · exact Or.inl (List.mem_cons_of_mem head ha)
  · rw [hlist]
    rcases hmine with hin | how
    · rw [hpc] at hin
      obtain rfl := List.mem_singleton.mp hin
      refine ⟨by simp [State.goto], fun hin => absurd hin hhead, Or.inl ?_⟩
      rw [follower_cons_self]
      simp [nextAt, State.goto]
    · rw [howns] at how
      obtain rfl := Option.some.inj how
      refine ⟨?_, fun _ => ?_, Or.inl ?_⟩
      · simpa [State.goto, hne] using hlive
      · simpa [State.goto, dataAt, hne] using hdata
      · -- the new node leads to what stood behind the head
        rw [follower_cons_of_ne hne, follower_cons_self, ← follower_cons_self (a := head)]
        refine Eq.trans ?_ hlink
        simp [nextAt, State.goto, hne]

/-- `old_next = std::move(current->next)`: the next node leaves the list. -/
theorem unlink (h : Inv s) {p : C} {current nx : Addr} (hpc : s.pc t = .unlink p current nx)
    (hstep : s.next t = some s') : Inv s' := by
  have hknows := h.knows t
  rw [hpc] at hknows
  have hfollow : follower s.list current = some nx := hknows
  obtain ⟨hcurrent, hnx⟩ := mem_of_follower hfollow
  obtain ⟨hnodes, hne⟩ := h.mem_nodes_of_follower hfollow
  have hheld : ∀ a, a ∈ (s.pc t).holds ↔ a = current ∨ a = nx := fun a => by
    rw [hpc]
    simp [Pc.holds]
  have hset : ∀ a, ¬ (s.pc t).Detaches a := fun a => by rw [hpc]; exact id
  obtain ⟨nd, hnd⟩ := Option.isSome_iff_exists.mp (h.live current hcurrent)
  have hnext : nd.next = some nx := by
    rw [← hfollow, ← h.next_of_held ((hheld current).mpr (Or.inl rfl)) hcurrent (hset current),
      nextAt, hnd]
    rfl
  simp only [State.next, hpc, moveNext, hnd, Option.some.injEq] at hstep
  subst hstep
  have hhead : head ≠ nx := fun he => h.head_not_mem (he ▸ hnodes)
  have hlist : State.list ({ s with
      heap := Function.update s.heap current (some { nd with next := none })
      nodes := s.nodes.erase nx }.goto t (.relink p current nx nd.next)) = s.list.erase nx := by
    show head :: s.nodes.erase nx = (head :: s.nodes).erase nx
    rw [List.erase_cons_tail (by simpa using hhead)]
  have hgone : nx ∉ s.list.erase nx := h.nodup.not_mem_erase
  refine h.change rfl (h.mutex_same rfl rfl fun b => by rw [hpc]; rfl)
    (fresh_update h.fresh (h.live current hcurrent) _) (fun a ha hnot _ => ?_) ?_
    (fun a ha hnot => ?_) (fun a ha => ?_) (fun a ha hmine => ?_) ?_ (fun a ha => ?_)
  · have hac : a ≠ current := fun he => hnot ((hheld a).mpr (Or.inl he))
    exact Function.update_of_ne hac ..
  · rw [hlist]
    exact h.nodup.erase nx
  · have hac : a ≠ current := fun he => hnot ((hheld a).mpr (Or.inl he))
    have han : a ≠ nx := fun he => hnot ((hheld a).mpr (Or.inr he))
    -- only behind `current` stands something else
    rw [hlist, follower_erase h.nodup hfollow han, if_neg hac]
    exact ⟨(List.mem_erase_of_ne han).mpr ha, rfl⟩
  · rw [hlist] at ha
    exact Or.inl (List.mem_of_mem_erase ha)
  · rw [hlist] at ha ⊢
    rcases hmine with hin | how
    · rcases (hheld a).mp hin with rfl | rfl
      · refine ⟨by simp [State.goto], fun hin => ?_, Or.inr rfl⟩
        have hdata := h.data a (List.mem_of_mem_erase hin)
        rw [dataAt, hnd] at hdata
        simpa [State.goto, dataAt] using hdata
      · exact absurd ha hgone
    · rw [hpc] at how
      cases how
  · rw [hlist]
    refine ⟨(List.mem_erase_of_ne hne).mpr hcurrent, hnext, ?_, ?_⟩
    · simp [nextAt, State.goto]
    · -- the node taken out leads to what stands behind `current` now
      rw [follower_erase h.nodup hfollow hne, if_pos rfl,
        ← h.next_of_held ((hheld nx).mpr (Or.inr rfl)) hnx (hset nx)]
      simp [nextAt, State.goto, Ne.symm hne]
  · obtain rfl := Option.some.inj ha
    refine ⟨⟨?_, ?_, hlist ▸ hgone⟩, fun u _ hau => (h.owned u nx hau).2.2 hnx⟩
    · simpa [State.goto, Ne.symm hne] using h.live nx hnx
    · simpa [State.goto, dataAt, Ne.symm hne] using h.data nx hnodes

/-- `current->next = std::move(next->next)`. -/
theorem relink (h : Inv s) {p : C} {current nx : Addr} {oldNext : Option Addr}
    (hpc : s.pc t = .relink p current nx oldNext) (hstep : s.next t = some s') : Inv s' := by
  have hknows := h.knows t
  rw [hpc] at hknows
  obtain ⟨hcurrent, hold, hnull, hlink⟩ := hknows
  have hheld : ∀ a, a ∈ (s.pc t).holds ↔ a = current ∨ a = nx := fun a => by
    rw [hpc]
    simp [Pc.holds]
  have howns : (s.pc t).owns = some nx := by rw [hpc]; rfl
  obtain ⟨hlive, hdata, hmem⟩ := h.owned t nx howns
  obtain ⟨nd, hnd⟩ := Option.isSome_iff_exists.mp hlive
  obtain ⟨cur, hcur⟩ := Option.isSome_iff_exists.mp (h.live current hcurrent)
  have hne : current ≠ nx := fun he => hmem (he ▸ hcurrent)
  have hnull : cur.next = none := by rwa [nextAt, hcur] at hnull
  have hlink : nd.next = follower s.list current := by rwa [nextAt, hnd] at hlink
  have hassign : (moveNext s.heap nx).bind (fun r => assign r.2 current r.1) =
      some (Function.update (Function.update s.heap nx (some { nd with next := none })) current
        (some { cur with next := nd.next })) := by
    simp [moveNext, assign, hnd, hne, hcur, hnull]
  simp only [State.next, hpc, hassign, Option.some.injEq] at hstep
  subst hstep
  have hcurrent' : (Function.update s.heap nx (some { nd with next := none }) current).isSome := by
    simpa [hne] using h.live current hcurrent
  refine h.change rfl (h.mutex_same rfl rfl fun b => by rw [hpc]; rfl)
    (fresh_update (fresh_update h.fresh hlive _) hcurrent' _) (fun a ha hnot _ => ?_) h.nodup
    (fun a ha _ => ⟨ha, rfl⟩) (fun a ha => Or.inl ha) (fun a ha hmine => ?_)
    ⟨hcurrent, hold, ?_⟩ (fun a ha => ?_)
  · have hac : a ≠ current := fun he => hnot ((hheld a).mpr (Or.inl he))
    have han : a ≠ nx := fun he => hnot ((hheld a).mpr (Or.inr he))
    show Function.update (Function.update s.heap nx _) current _ a = _
    rw [Function.update_of_ne hac, Function.update_of_ne han]
  · -- what the thread owns is outside the list
    have hac : a = current := by
      rcases hmine with hin | how
      · rcases (hheld a).mp hin with hac | rfl
        · exact hac
        · exact absurd ha hmem
      · rw [howns] at how
        exact absurd (Option.some.inj how ▸ ha) hmem
    subst hac
    refine ⟨by simp [State.goto], fun hin => ?_, Or.inl ?_⟩
    · have hdata := h.data a hin
      rw [dataAt, hcur] at hdata
      simpa [State.goto, dataAt] using hdata
    · refine Eq.trans ?_ hlink
      simp [nextAt, State.goto]
  · show nextAt (Function.update (Function.update s.heap nx _) current _) nx = none
    simp [nextAt, Ne.symm hne]
  · obtain rfl := Option.some.inj ha
    refine ⟨⟨?_, ?_, hmem⟩, fun u hu hau => hu (h.owner u t nx hau howns)⟩
    · simp [State.goto, Ne.symm hne]
    · rw [dataAt, hnd] at hdata
      simpa [State.goto, dataAt, Ne.symm hne] using hdata

/-- `old_next` is destroyed with the node it owns. -/
theorem destroy (h : Inv s) {p : C} {current : Addr} {oldNext : Option Addr}
    (hpc : s.pc t = .destroy p current oldNext) (hstep : s.next t = some s') : Inv s' := by
  have hknows := h.knows t
  rw [hpc] at hknows
  obtain ⟨hcurrent, nx, rfl, hnull⟩ := hknows
  have hheld : ∀ a, a ∈ (s.pc t).holds ↔ a = current := fun a => by
    rw [hpc]
    simp [Pc.holds]
  have howns : (s.pc t).owns = some nx := by rw [hpc]; rfl
  have hset : ∀ a, ¬ (s.pc t).Detaches a := fun a => by rw [hpc]; exact id
  obtain ⟨hlive, -, hmem⟩ := h.owned t nx howns
  obtain ⟨nd, hnd⟩ := Option.isSome_iff_exists.mp hlive
  have hne : current ≠ nx := fun he => hmem (he ▸ hcurrent)
  have hnull : nd.next = none := by rwa [nextAt, hnd] at hnull
  simp only [State.next, hpc, hnd, hnull, Option.isSome_none, Bool.false_eq_true, if_false,
    Option.some.injEq] at hstep
  subst hstep
  refine h.change rfl (h.mutex_same rfl rfl fun b => by rw [hpc]; rfl)
    (fresh_update h.fresh hlive none) (fun a ha _ hno => ?_) h.nodup (fun a ha _ => ⟨ha, rfl⟩)
    (fun a ha => Or.inl ha) (fun a ha hmine => ?_) hcurrent (fun a ha => by cases ha)
  · have han : a ≠ nx := fun he => hno (he ▸ howns)
    exact Function.update_of_ne han ..
  · -- the node that is destroyed is outside the list
    have hac : a = current := by
      rcases hmine with hin | how
      · exact (hheld a).mp hin
      · rw [howns] at how
        exact absurd (Option.some.inj how ▸ ha) hmem
    subst hac
    have hsame : Function.update s.heap nx none a = s.heap a := Function.update_of_ne hne ..
    refine ⟨?_, fun hin => ?_, Or.inl ?_⟩
    · show (Function.update s.heap nx none a).isSome
      rw [hsame]
      exact h.live a ha
    · show ((Function.update s.heap nx none a).bind Node.data).isSome
      rw [hsame]
      exact h.data a hin
    · show (Function.update s.heap nx none a).bind Node.next = _
      rw [hsame]
      exact h.next_of_held ((hheld a).mpr rfl) ha (hset a)

/-- The next step of a thread. -/
theorem next (h : Inv s) (hstep : s.next t = some s') : Inv s' := by
  have hknows := h.knows t
  have hheads : (s.heap head).isSome := h.live head List.mem_cons_self
  cases hpc : s.pc t with
  | idle | callback c current nx | fault => simp [State.next, hpc] at hstep
  | pushNext n => exact h.pushNext hpc hstep
  | pushHead n => exact h.pushHead hpc hstep
  | unlink p current nx => exact h.unlink hpc hstep
  | relink p current nx oldNext => exact h.relink hpc hstep
  | destroy p current oldNext => exact h.destroy hpc hstep
  | pushLock n =>
    rw [hpc] at hknows
    simp only [State.next, hpc] at hstep
    exact h.lock hstep hheads (by simp [hpc, Pc.holds]) (fun a => by rw [hpc]; exact id) hknows
      fun a ha => by rw [hpc]; exact ha
  | lockHead c =>
    simp only [State.next, hpc] at hstep
    exact h.lock hstep hheads (by simp [hpc, Pc.holds]) (fun a => by rw [hpc]; exact id)
      List.mem_cons_self fun a ha => by cases ha
  | scan c current =>
    rw [hpc] at hknows
    have hset : ∀ a, ¬ (s.pc t).Detaches a := fun a => by rw [hpc]; exact id
    have hheld : current ∈ (s.pc t).holds := by rw [hpc]; exact List.mem_cons_self
    obtain ⟨nd, hnd⟩ := Option.isSome_iff_exists.mp (h.live current hknows)
    -- nobody but the holder of the mutex could be setting this link
    have hlink : nd.next = follower s.list current := by
      rw [← h.next_of_held hheld hknows (hset current), nextAt, hnd]
      rfl
    cases hnx : nd.next with
    | none =>
      simp only [State.next, hpc, hnd, hnx, Option.some.injEq] at hstep
      subst hstep
      exact h.goto (fun b => by rw [hpc]; rfl) hset hknows fun a ha => by cases ha
    | some nx =>
      simp only [State.next, hpc, hnd, hnx, Option.some.injEq] at hstep
      subst hstep
      exact h.goto (fun b => by rw [hpc]; rfl) hset (hlink.symm.trans hnx) fun a ha => by cases ha
  | lockNext c current nx =>
    rw [hpc] at hknows
    have hset : ∀ a, ¬ (s.pc t).Detaches a := fun a => by rw [hpc]; exact id
    have hlive := h.live nx (mem_of_follower hknows).2
    cases c with
    | removeIf p =>
      simp only [State.next, hpc] at hstep
      exact h.lock hstep hlive (by simp [hpc, Pc.holds, or_comm]) hset hknows
        fun a ha => by cases ha
    | forEach p | findFirstIf p =>
      simp only [State.next, hpc] at hstep
      exact h.lock hstep hlive (by simp [hpc, Pc.holds, or_comm]) hset hknows
        fun a ha => by cases ha
  | unlock c current nx =>
    rw [hpc] at hknows
    obtain ⟨hnodes, hne⟩ := h.mem_nodes_of_follower hknows
    obtain ⟨hcurrent, hmem⟩ := mem_of_follower hknows
    have hset : ∀ a, ¬ (s.pc t).Detaches a := fun a => by rw [hpc]; exact id
    have hheld : current ∈ (s.pc t).holds := by rw [hpc]; exact List.mem_cons_self
    have hholds : ∀ b, b ∈ [nx] ↔ b ≠ current ∧ b ∈ (s.pc t).holds := by
      intro b
      rw [hpc, List.mem_singleton]
      refine ⟨fun hb => ⟨fun he => hne (he.symm.trans hb), by simp [Pc.holds, hb]⟩, ?_⟩
      rintro ⟨hbc, hb⟩
      rcases List.mem_cons.mp hb with he | hb
      · exact absurd he hbc
      · exact List.mem_singleton.mp hb
    cases c with
    | removeIf p =>
      simp only [State.next, hpc, Option.some.injEq] at hstep
      subst hstep
      exact h.unlock hheld (h.live current hcurrent) hholds hset hmem fun a ha => by cases ha
    | forEach p | findFirstIf p =>
      simp only [State.next, hpc, Option.some.injEq] at hstep
      subst hstep
      exact h.unlock hheld (h.live current hcurrent) hholds hset hnodes fun a ha => by cases ha
  | unlockNext p current nx oldNext =>
    rw [hpc] at hknows
    obtain ⟨hcurrent, hold, hnull⟩ := hknows
    have howns : (s.pc t).owns = some nx := by rw [hpc]; rfl
    obtain ⟨hlive, -, hmem⟩ := h.owned t nx howns
    have hne : current ≠ nx := fun he => hmem (he ▸ hcurrent)
    simp only [State.next, hpc, Option.some.injEq] at hstep
    subst hstep
    refine h.unlock (by simp [hpc, Pc.holds]) hlive (fun b => ?_) (fun a => by rw [hpc]; exact id)
      ⟨hcurrent, nx, hold, hnull⟩ fun a ha => howns.trans (hold.symm.trans ha)
    rw [hpc]
    refine ⟨fun hb => ?_, ?_⟩
    · obtain rfl := List.mem_singleton.mp hb
      exact ⟨hne, List.mem_cons_self⟩
    · rintro ⟨hbn, hb⟩
      rcases List.mem_cons.mp hb with he | hb
      · exact he ▸ List.mem_cons_self
      · exact absurd (List.mem_singleton.mp hb) hbn
  | unwind current nx =>
    rw [hpc] at hknows
    obtain ⟨-, hne⟩ := h.mem_nodes_of_follower hknows
    obtain ⟨hcurrent, hmem⟩ := mem_of_follower hknows
    simp only [State.next, hpc, Option.some.injEq] at hstep
    subst hstep
    refine h.unlock (by simp [hpc, Pc.holds]) (h.live nx hmem) (fun b => ?_)
      (fun a => by rw [hpc]; exact id) hcurrent fun a ha => by cases ha
    rw [hpc]
    refine ⟨fun hb => ?_, ?_⟩
    · obtain rfl := List.mem_singleton.mp hb
      exact ⟨hne, List.mem_cons_self⟩
    · rintro ⟨hbn, hb⟩
      rcases List.mem_cons.mp hb with he | hb
      · exact he ▸ List.mem_cons_self
      · exact absurd (List.mem_singleton.mp hb) hbn
  | release a =>
    rw [hpc] at hknows
    simp only [State.next, hpc, Option.some.injEq] at hstep
    subst hstep
    refine h.unlock (by simp [hpc, Pc.holds]) (h.live a hknows) (fun b => ?_)
      (fun a => by rw [hpc]; exact id) trivial fun a ha => by cases ha
    simp [hpc, Pc.holds]

omit [DecidableEq Tid] in
/-- A callback may change the value of a node; its link stays. -/
theorem nextAt_setData {nd : Node V} (hnd : s.heap a = some nd) (v : Option V) :
    nextAt (Function.update s.heap a (some { nd with data := v })) = nextAt s.heap := by
  funext b
  by_cases hb : b = a
  · subst b
    simp [nextAt, hnd]
  · simp [nextAt, hb]

theorem callback {may : C → V → V → Option Bool → Bool} (h : Inv s) {v : V} {b : Option Bool}
    (hstep : s.callback may t v b = some s') : Inv s' := by
  unfold State.callback at hstep
  cases hpc : s.pc t with
  | callback c current nx =>
    have hknows := h.knows t
    rw [hpc] at hknows
    have hheld : nx ∈ (s.pc t).holds := by
      rw [hpc]
      cases c <;> simp [Pc.holds]
    have hset : ∀ a, ¬ (s.pc t).Detaches a := fun a => by rw [hpc]; exact id
    have hnodes : nx ∈ s.nodes := by
      cases c with
      | removeIf p => exact (h.mem_nodes_of_follower hknows).1
      | forEach f | findFirstIf p => exact hknows
    have hmem : nx ∈ s.list := List.mem_cons_of_mem head hnodes
    obtain ⟨nd, hnd⟩ := Option.isSome_iff_exists.mp (h.live nx hmem)
    obtain ⟨old, hold⟩ := Option.isSome_iff_exists.mp (h.data nx hnodes)
    have hold : nd.data = some old := by rwa [dataAt, hnd] at hold
    simp only [hpc, hnd, hold] at hstep
    split at hstep
    · simp only [Option.some.injEq] at hstep
      subst hstep
      -- links, mutexes and the list are as before; only a value is new
      have hnext := nextAt_setData hnd (some v)
      have hholds : ∀ x, x ∈ (c.after current nx b).holds ↔ x ∈ (s.pc t).holds := by
        intro x
        rw [hpc]
        cases c <;> rcases b with _ | _ | _ <;> rfl
      refine h.change rfl (h.mutex_same rfl rfl hholds)
        (fresh_update h.fresh (h.live nx hmem) _) (fun a _ hnot _ => ?_) h.nodup
        (fun a ha _ => ⟨ha, rfl⟩) (fun a ha => Or.inl ha) (fun a ha hmine => ?_) ?_
        (fun a ha => ?_)
      · have han : a ≠ nx := fun he => hnot (he ▸ hheld)
        exact Function.update_of_ne han ..
      · refine ⟨?_, fun hin => ?_, Or.inl ?_⟩
        · by_cases han : a = nx
          · simp [State.goto, han]
          · simpa [State.goto, han] using h.live a ha
        · by_cases han : a = nx
          · simp [State.goto, dataAt, han]
          · simpa [State.goto, dataAt, han] using h.data a hin
        · refine (congrFun hnext a).trans ?_
          rcases hmine with hin | how
          · exact h.next_of_held hin ha (hset a)
          · rw [hpc] at how
            cases how
      · show (c.after current nx b).Knows s.list (nextAt (Function.update s.heap nx _))
        rw [hnext]
        cases c <;> rcases b with _ | _ | _ <;> first | exact hmem | exact hknows
      · cases c <;> rcases b with _ | _ | _ <;> cases ha
    · cases hstep
  | _ => simp [hpc] at hstep

theorem init {may : C → V → V → Option Bool → Bool} :
    Inv (machine may : Machine (State Tid V C) (Label Tid V C)).init where
  fresh a ha := by
    have hne : a ≠ head := Nat.ne_of_gt ha
    simp [machine, hne]
  nodup := by simp [State.list, machine]
  live a ha := by
    obtain rfl := List.mem_singleton.mp ha
    simp [machine]
  data a ha := by cases ha
  links a ha := by
    obtain rfl := List.mem_singleton.mp ha
    refine Or.inl ?_
    simp [machine, nextAt, State.list, follower]
  mutex a t := by simp [machine, Pc.holds]
  knows t := trivial
  owned t a ha := by cases ha
  owner t u a ha := by cases ha

theorem step {may : C → V → V → Option Bool → Bool} (h : Inv s) {l : Label Tid V C}
    (hstep : (machine may).step s l = some s') : Inv s' := by
  cases l with
  | pushFront t v =>
    simp only [machine] at hstep
    split at hstep
    · next hpc =>
      cases hstep
      exact h.alloc hpc v
    · cases hstep
  | call t c =>
    simp only [machine] at hstep
    split at hstep
    · next hpc =>
      cases hstep
      exact h.goto (fun b => by rw [hpc]; rfl) (fun a => by rw [hpc]; exact id) trivial
        fun a ha => by cases ha
    · cases hstep
  | next t => exact h.next hstep
  | callback t v b => exact h.callback hstep

end Inv

theorem reachable_inv [DecidableEq Tid] {may : C → V → V → Option Bool → Bool}
    {s : State Tid V C} (h : (machine may).Reachable s) : Inv s :=
  h.invariant Inv.init fun _ _ _ hs hstep => hs.step hstep

/-! ## Nodes are destroyed by `remove_if` only -/

section Destroyed
variable {heap heap' : Addr → Option (Node V)} {a b : Addr}

theorem isSome_update {nd : Node V} (h : (heap b).isSome) :
    (Function.update heap a (some nd) b).isSome := by
  by_cases hb : b = a
  · simp [hb]
  · simpa [hb] using h

theorem assign_isSome {q : Option Addr} (h : assign heap a q = some heap')
    (hb : (heap b).isSome) : (heap' b).isSome := by
  unfold assign at h
  split at h
  · split at h
    · cases h
    · cases h
      exact isSome_update hb
  · cases h

theorem moveNext_isSome {r : Option Addr × (Addr → Option (Node V))}
    (h : moveNext heap a = some r) (hb : (heap b).isSome) : (r.2 b).isSome := by
  unfold moveNext at h
  split at h
  · cases h
    exact isSome_update hb
  · cases h

variable [DecidableEq Tid] {s s' : State Tid V C} {t : Tid}

theorem lock_heap {pc : Pc C} (h : s.lock t a pc = some s') : s'.heap = s.heap := by
  unfold State.lock at h
  split at h
  · cases h
    rfl
  · split at h
    · cases h
      rfl
    · cases h

theorem unlock_heap {pc : Pc C} : (s.unlock t a pc).heap = s.heap := by
  unfold State.unlock
  split <;> rfl

/-- **The rule of the heap**: what holds of the nodes before a step holds of them afterwards, if
the operations that the step makes of keep it. -/
theorem next_heap {P : (Addr → Option (Node V)) → Prop} (hstep : s.next t = some s') (h : P s.heap)
    (hassign : ∀ heap heap' x q, (s.pc t).Touches x → P heap → assign heap x q = some heap' →
      P heap')
    (hmove : ∀ heap x r, (s.pc t).Touches x → P heap → moveNext heap x = some r → P r.2)
    (hdestroy : ∀ p current x, s.pc t = .destroy p current (some x) →
      P (Function.update s.heap x none)) : P s'.heap := by
  unfold State.next at hstep
  cases hp : s.pc t with
  | idle | callback c current nx | fault => simp [hp] at hstep
  | pushLock n | lockHead c =>
    simp only [hp] at hstep
    rwa [lock_heap hstep]
  | lockNext c current nx =>
    simp only [hp] at hstep
    cases c <;> rwa [lock_heap hstep]
  | scan c current =>
    simp only [hp] at hstep
    split at hstep
    · split at hstep <;> cases hstep <;> exact h
    · cases hstep
      exact h
  | unlock c current nx =>
    simp only [hp] at hstep
    cases c <;> cases hstep <;> rwa [unlock_heap]
  | unlockNext p current nx oldNext | unwind current nx | release a =>
    simp only [hp, Option.some.injEq] at hstep
    subst hstep
    rwa [unlock_heap]
  | pushNext n =>
    have hhead : (s.pc t).Touches head := by rw [hp]; exact Or.inl List.mem_cons_self
    have hn : (s.pc t).Touches n := by rw [hp]; exact Or.inr (Or.inl rfl)
    simp only [hp] at hstep
    split at hstep
    · next heap hheap =>
      cases hstep
      obtain ⟨r, hr, hlink⟩ := Option.bind_eq_some_iff.mp hheap
      exact hassign _ _ n _ hn (hmove _ head r hhead h hr) hlink
    · cases hstep
      exact h
  | relink p current nx oldNext =>
    have hcurrent : (s.pc t).Touches current := by rw [hp]; exact Or.inl List.mem_cons_self
    have hnx : (s.pc t).Touches nx := by rw [hp]; exact Or.inr (Or.inl rfl)
    simp only [hp] at hstep
    split at hstep
    · next heap hheap =>
      cases hstep
      obtain ⟨r, hr, hlink⟩ := Option.bind_eq_some_iff.mp hheap
      exact hassign _ _ current _ hcurrent (hmove _ nx r hnx h hr) hlink
    · cases hstep
      exact h
  | pushHead n =>
    have hhead : (s.pc t).Touches head := by rw [hp]; exact Or.inl List.mem_cons_self
    simp only [hp] at hstep
    split at hstep
    · next heap hheap =>
      cases hstep
      exact hassign _ _ head _ hhead h hheap
    · cases hstep
      exact h
  | unlink p current nx =>
    have hcurrent : (s.pc t).Touches current := by rw [hp]; exact Or.inl List.mem_cons_self
    simp only [hp] at hstep
    split at hstep
    · next q heap hheap =>
      cases hstep
      exact hmove _ current _ hcurrent h hheap
    · cases hstep
      exact h
  | destroy p current oldNext =>
    cases oldNext with
    | none =>
      simp only [hp, Option.some.injEq] at hstep
      subst hstep
      exact h
    | some a =>
      simp only [hp] at hstep
      split at hstep
      · split at hstep
        · cases hstep
          exact h
        · cases hstep
          exact hdestroy p current a hp
      · cases hstep
        exact h

/-- A node disappears only where `old_next` is destroyed. -/
theorem next_isSome (hstep : s.next t = some s') (hb : (s.heap b).isSome)
    (hpc : ∀ p current, s.pc t ≠ .destroy p current (some b)) : (s'.heap b).isSome := by
  refine next_heap (P := fun heap => (heap b).isSome) hstep hb
    (fun _ _ _ _ _ h hassign => assign_isSome hassign h)
    (fun _ _ _ _ h hmove => moveNext_isSome hmove h) fun p current x hx => ?_
  have hne : b ≠ x := fun he => hpc p current (he ▸ hx)
  simpa [hne] using hb

theorem callback_isSome {may : C → V → V → Option Bool → Bool} {v : V} {r : Option Bool}
    (hstep : s.callback may t v r = some s') (hb : (s.heap b).isSome) : (s'.heap b).isSome := by
  unfold State.callback at hstep
  split at hstep
  · split at hstep
    · split at hstep
      · split at hstep
        · cases hstep
          exact isSome_update hb
        · cases hstep
      · cases hstep
        exact hb
    · cases hstep
      exact hb
  · cases hstep

theorem exists_destroy {may : C → V → V → Option Bool → Bool} {l : Label Tid V C}
    (hstep : (machine may).step s l = some s') (hb : (s.heap b).isSome) (hgone : s'.heap b = none) :
    ∃ t p current, s.pc t = .destroy p current (some b) := by
  have hnot : ¬ (s'.heap b).isSome := by simp [hgone]
  cases l with
  | pushFront t v =>
    simp only [machine] at hstep
    split at hstep
    · cases hstep
      exact absurd (isSome_update hb) hnot
    · cases hstep
  | call t c =>
    simp only [machine] at hstep
    split at hstep
    · cases hstep
      exact absurd hb hnot
    · cases hstep
  | callback t v r => exact absurd (callback_isSome hstep hb) hnot
  | next t =>
    by_contra hnone
    exact hnot (next_isSome hstep hb fun p current hpc => hnone ⟨t, p, current, hpc⟩)

end Destroyed

/-- What a thread owns outside the list nobody waits for. -/
theorem Inv.not_waits {s : State Tid V C} (h : Inv s) {t u : Tid} {a : Addr}
    (ha : (s.pc t).owns = some a) : ¬ (s.pc u).Waits a := by
  intro hwaits
  have hmem := (h.owned t a ha).2.2
  have hknows := h.knows u
  cases hpc : s.pc u with
  | pushLock n | lockHead c =>
    rw [hpc] at hwaits
    rw [show a = head from hwaits] at hmem
    exact hmem List.mem_cons_self
  | lockNext c current nx =>
    rw [hpc] at hwaits hknows
    rw [show a = nx from hwaits] at hmem
    exact hmem (mem_of_follower hknows).2
  | _ =>
    rw [hpc] at hwaits
    exact hwaits

/-- The links lead from the head through a front of the list to null. -/
theorem Inv.exists_chain {s : State Tid V C} (h : Inv s) :
    ∃ l, l <+: s.list ∧ Segment (nextAt s.heap) (some head) l none := by
  refine exists_segment_of_follower h.nodup fun a ha => ?_
  rcases h.links a ha with hlink | ⟨t, ht⟩
  · exact Or.inl hlink
  · -- the holder has moved the link out
    have hknows := h.knows t
    cases hpc : s.pc t with
    | pushHead n =>
      rw [hpc] at ht hknows
      rw [show a = head from ht]
      exact Or.inr hknows.2.1
    | relink p current nx oldNext =>
      rw [hpc] at ht hknows
      rw [show a = current from ht]
      exact Or.inr hknows.2.2.1
    | _ =>
      rw [hpc] at ht
      exact absurd ht id

/-- **Hand-over-hand locking is sound.**  In every reachable state the links lead from the
head through a front of the list to null; no thread has used a node that does not exist;
and a step destroys a node only if no thread holds its mutex or waits for it. -/
theorem handOverHand_sound [DecidableEq Tid] {may : C → V → V → Option Bool → Bool}
    {s : State Tid V C} (h : (machine may).Reachable s) :
    (∃ l, l <+: s.list ∧ Segment (nextAt s.heap) (some head) l none) ∧
      (∀ t, s.pc t ≠ .fault) ∧
      ∀ l s' a, (machine may).step s l = some s' → (s.heap a).isSome → s'.heap a = none →
        s.mutex a = none ∧ ∀ t, ¬ (s.pc t).Waits a := by
  have hinv := reachable_inv h
  refine ⟨hinv.exists_chain, fun t ht => ?_, fun l s' a hstep ha hgone => ?_⟩
  · have hknows := hinv.knows t
    rw [ht] at hknows
    exact hknows
  · -- a remover owns the node
    obtain ⟨t, p, current, hpc⟩ := exists_destroy hstep ha hgone
    have howns : (s.pc t).owns = some a := by rw [hpc]; rfl
    refine ⟨?_, fun u => hinv.not_waits howns⟩
    cases hfree : s.mutex a with
    | none => rfl
    | some u =>
      have hheld := (hinv.mutex a u).mp hfree
      by_cases hu : u = t
      · subst u
        rw [hpc] at hheld
        have hcurrent := hinv.knows t
        rw [hpc] at hcurrent
        rw [List.mem_singleton.mp hheld] at howns
        exact absurd hcurrent.1 (hinv.owned t current howns).2.2
      · exact absurd hheld (hinv.not_held_of_owned howns hu)

/-- A node is pushed and unlinked; before it is destroyed its mutex is free and nobody waits
for it. -/
theorem unlinkedNode_sound :
    ∃ s s' : State ℕ ℕ Unit, (machine fun _ _ _ _ => true).Reachable s ∧
      (machine fun _ _ _ _ => true).step s (.next 1) = some s' ∧ (s.heap 1).isSome ∧
      s'.heap 1 = none ∧ s.mutex 1 = none ∧ ∀ t, ¬ (s.pc t).Waits 1 := by
  have hrun : ∃ s s' : State ℕ ℕ Unit,
      (machine fun _ _ _ _ => true).run (machine fun _ _ _ _ => true).init
        [.pushFront 0 7, .next 0, .next 0, .next 0, .next 0, .call 1 (.removeIf ()), .next 1,
          .next 1, .next 1, .callback 1 7 (some true), .next 1, .next 1, .next 1] = some s ∧
      (machine fun _ _ _ _ => true).step s (.next 1) = some s' ∧ (s.heap 1).isSome ∧
      s'.heap 1 = none :=
    ⟨_, _, rfl, rfl, rfl, rfl⟩
  obtain ⟨s, s', hs, hstep, hlive, hgone⟩ := hrun
  have hreach := Machine.reachable_of_run _ hs
  exact ⟨s, s', hreach, hstep, hlive, hgone,
    (handOverHand_sound hreach).2.2 _ _ _ hstep hlive hgone⟩

end Sundries.ThreadsafeList
