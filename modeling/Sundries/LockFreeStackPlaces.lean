import Sundries.LockFreeStack

/-!
# The nodes of `lock_free_stack`

Each address is free, or its node is being pushed, in the stack, pending, or
unlinked and in the hands of one thread (`Place`), and the threads' program
points say which nodes they have in hand (`Owns`).  Together with the values
along the stack this is what every step preserves (`Refines`); what is left to
show of a single step is collected in `Refines.change` and its special cases.
-/
namespace Sundries.LockFreeStack

variable {Tid α : Type}

/-! ## What a thread has in hand -/

/-- The node whose address the thread has read from `_head`, to read its `next`
and exchange it. -/
def Pc.holds : Pc α → Option Addr
  | .popReadNext old | .popCas old _ => some old
  | _ => none

/-- The node the thread is pushing. -/
def Pc.pushes : Pc α → Option Addr
  | .pushLoad n | .pushSetNext n _ | .pushReadNext n | .pushCas n _ => some n
  | _ => none

/-- Counted in `_threads_in_pop`. -/
def Pc.inPop : Pc α → Bool
  | .popLoad | .popReadNext _ | .popCas _ _ | .popSwap _ | .testCount _ | .exchange _
  | .decrement _ _ | .leave _ | .nullDeref => true
  | .pendLoad _ k _ _ | .pendSetNext _ k _ _ _ | .pendReadNext _ k _ _ | .pendCas _ k _ _ _ =>
    k = .leave
  | _ => false

/-- The thread will delete `x`, if it is one of the nodes it has unlinked or taken
from `_to_be_deleted`. -/
def Pc.dooms : Pc α → Addr → Prop
  | .exchange f, x | .decrement f _, x | .walk f _ _, x | .deleteOld f, x => f.oldHead = some x
  | .pendLoad f k _ _, x | .pendSetNext f k _ _ _, x | .pendReadNext f k _ _, x
  | .pendCas f k _ _ _, x => k = .deleteOld ∧ f.oldHead = some x
  | .deleteRead _ _, _ | .deleteNode _ _ _, _ => True
  | _, _ => False

/-- What a pop keeps in hand while it chains pending nodes. -/
def After.keeps (f : Frame α) : After → List Addr
  | .leave => []
  | .deleteOld => f.oldHead.toList

/-- From `first` the links lead through the nodes `g`, `last` being the last one;
a pop that has found `_head` null chains no node, in a null pointer. -/
def Chain (next : Addr → Option Addr) (k : After) (first last : Option Addr) (g : List Addr) :
    Prop :=
  (k = .leave ∧ first = none ∧ last = none ∧ g = []) ∨
    ∃ g' b, last = some b ∧ g = g' ++ [b] ∧ Segment next first g' (some b)

/-- The unlinked nodes in the hands of a thread. -/
def Owns (next : Addr → Option Addr) : Pc α → List Addr → Prop
  | .popSwap old, lt => lt = [old]
  | .testCount f, lt | .exchange f, lt | .deleteOld f, lt => lt = f.oldHead.toList
  | .decrement f nodes, lt => ∃ g, Segment next nodes g none ∧ lt = f.oldHead.toList ++ g
  | .deleteRead f n, lt => ∃ g, Segment next (some n) g none ∧ lt = f.oldHead.toList ++ g
  | .deleteNode f n p, lt => ∃ g, Segment next p g none ∧ lt = f.oldHead.toList ++ n :: g
  | .walk f nodes last, lt =>
    ∃ g g', Segment next (some nodes) g (some last) ∧ Segment next (some last) g' none ∧
      lt = f.oldHead.toList ++ (g ++ g')
  | .pendLoad f k first last, lt | .pendSetNext f k first last _, lt
  | .pendReadNext f k first last, lt => ∃ g, Chain next k first last g ∧ lt = k.keeps f ++ g
  | .pendCas f k first last exp, lt =>
    ∃ g, Chain next k first last g ∧ lt = k.keeps f ++ g ∧ last.bind next = exp
  | _, lt => lt = []

section Loops
variable (f : Frame α) (p : Option Addr)

@[simp] theorem Pc.deleteLoop_inPop : (Pc.deleteLoop f p).inPop = false := by cases p <;> rfl
@[simp] theorem Pc.deleteLoop_pushes : (Pc.deleteLoop f p).pushes = none := by cases p <;> rfl
@[simp] theorem Pc.deleteLoop_holds : (Pc.deleteLoop f p).holds = none := by cases p <;> rfl
@[simp] theorem Pc.rechain_inPop : (Pc.rechain f p).inPop = false := by cases p <;> rfl
@[simp] theorem Pc.rechain_pushes : (Pc.rechain f p).pushes = none := by cases p <;> rfl
@[simp] theorem Pc.rechain_holds : (Pc.rechain f p).holds = none := by cases p <;> rfl

variable {f p}

theorem Pc.dooms_rechain {y : Addr} : (Pc.rechain f p).dooms y ↔ f.oldHead = some y := by
  cases p <;> rfl

variable (f) {next : Addr → Option Addr} {g : List Addr}

theorem owns_deleteLoop (h : Segment next p g none) :
    Owns next (Pc.deleteLoop f p) (f.oldHead.toList ++ g) := by
  cases p with
  | none =>
    rw [h.eq_nil, List.append_nil]
    exact rfl
  | some n => exact ⟨g, h, rfl⟩

theorem owns_rechain (h : Segment next p g none) :
    Owns next (Pc.rechain f p) (f.oldHead.toList ++ g) := by
  cases p with
  | none =>
    rw [h.eq_nil, List.append_nil]
    exact rfl
  | some n => exact ⟨[], g, rfl, h, rfl⟩

end Loops

/-- A chain depends on the links of its nodes only. -/
theorem Chain.congr {next next' : Addr → Option Addr} {k : After} {first last : Option Addr}
    {g : List Addr} (h : Chain next k first last g) (hag : ∀ y ∈ g, next' y = next y) :
    Chain next' k first last g := by
  rcases h with hnull | ⟨g', b, hlast, rfl, hseg⟩
  · exact Or.inl hnull
  · exact Or.inr ⟨g', b, hlast, rfl,
      hseg.congr fun y hy => hag y (List.mem_append_left _ hy)⟩

theorem Chain.segment {next : Addr → Option Addr} {k : After} {first last : Option Addr}
    {g : List Addr} (h : Chain next k first last g) : Segment next first g (last.bind next) := by
  rcases h with ⟨-, rfl, rfl, rfl⟩ | ⟨g', b, rfl, rfl, hseg⟩
  · exact rfl
  · exact hseg.concat

/-- Except at its last node: that one's link is not followed yet. -/
theorem Chain.congr_last {next next' : Addr → Option Addr} {k : After} {first last : Option Addr}
    {b : Addr} {g : List Addr} (h : Chain next k first last g) (hlast : last = some b)
    (hnodup : g.Nodup) (hag : ∀ y, y ≠ b → next' y = next y) : Chain next' k first last g := by
  rcases h with ⟨-, -, hnone, -⟩ | ⟨g', b', hlast', rfl, hseg⟩
  · rw [hnone] at hlast
    cases hlast
  · cases hlast.symm.trans hlast'
    refine Or.inr ⟨g', b, hlast', rfl, hseg.congr fun y hy => hag y ?_⟩
    rintro rfl
    exact (List.nodup_append.mp hnodup).2.2 y hy y List.mem_cons_self rfl

theorem Owns.congr {next next' : Addr → Option Addr} {pc : Pc α} {lt : List Addr}
    (h : Owns next pc lt) (hag : ∀ y ∈ lt, next' y = next y) : Owns next' pc lt := by
  cases pc with
  | decrement f nodes =>
    obtain ⟨g, hseg, rfl⟩ := h
    exact ⟨g, hseg.congr fun y hy => hag y (List.mem_append_right _ hy), rfl⟩
  | deleteRead f n =>
    obtain ⟨g, hseg, rfl⟩ := h
    exact ⟨g, hseg.congr fun y hy => hag y (List.mem_append_right _ hy), rfl⟩
  | deleteNode f n p =>
    obtain ⟨g, hseg, rfl⟩ := h
    exact ⟨g, hseg.congr fun y hy =>
      hag y (List.mem_append_right _ (List.mem_cons_of_mem _ hy)), rfl⟩
  | walk f nodes last =>
    obtain ⟨g, g', hseg, hseg', rfl⟩ := h
    exact ⟨g, g',
      hseg.congr fun y hy => hag y (List.mem_append_right _ (List.mem_append_left _ hy)),
      hseg'.congr fun y hy => hag y (List.mem_append_right _ (List.mem_append_right _ hy)), rfl⟩
  | pendLoad f k first last =>
    obtain ⟨g, hchain, rfl⟩ := h
    exact ⟨g, hchain.congr fun y hy => hag y (List.mem_append_right _ hy), rfl⟩
  | pendSetNext f k first last p =>
    obtain ⟨g, hchain, rfl⟩ := h
    exact ⟨g, hchain.congr fun y hy => hag y (List.mem_append_right _ hy), rfl⟩
  | pendReadNext f k first last =>
    obtain ⟨g, hchain, rfl⟩ := h
    exact ⟨g, hchain.congr fun y hy => hag y (List.mem_append_right _ hy), rfl⟩
  | pendCas f k first last exp =>
    obtain ⟨g, hchain, rfl, hexp⟩ := h
    refine ⟨g, hchain.congr fun y hy => hag y (List.mem_append_right _ hy), rfl, ?_⟩
    rcases hchain with ⟨-, -, rfl, -⟩ | ⟨g', b, rfl, rfl, -⟩
    · exact hexp
    · exact (hag b (by simp)).trans hexp
  | _ => exact h

/-! ## The refinement relation -/

/-- The place of an address. -/
inductive Place (Tid : Type) where
  | free
  | pushing (t : Tid)
  | stacked
  | pending
  | unlinked (t : Tid)

/-- No thread has read the address from `_head` since its node was made. -/
def Place.fresh : Place Tid → Bool
  | .free | .pushing _ => true
  | _ => false

/-- The program point fits the phase of the abstract operation, the nodes in the
thread's hands, and the node it is about to unlink. -/
def Agrees (place : Addr → Place Tid) (heap : Addr → Option (Node α)) :
    Pc α → Phase (ContainerOp α) (Reply α) → Prop
  | .idle, z => z = .idle
  | .pushLoad n, z | .pushSetNext n _, z | .pushReadNext n, z =>
    ∃ v, dataAt heap n = some v ∧ z = .pending (.push v)
  | .pushCas n exp, z =>
    ∃ v, dataAt heap n = some v ∧ nextAt heap n = exp ∧ z = .pending (.push v)
  | .popEnter, z | .popLoad, z | .popReadNext _, z => z = .pending (.pop false)
  | .popCas old next, z =>
    (place old = .stacked → nextAt heap old = next) ∧ z = .pending (.pop false)
  | .popSwap old, z =>
    ∃ v, dataAt heap old = some v ∧ z = .answered (.pop false) (.popped (some v))
  | .testCount f, z | .exchange f, z | .decrement f _, z | .deleteRead f _, z
  | .deleteNode f _ _, z | .walk f _ _, z | .pendLoad f _ _ _, z | .pendSetNext f _ _ _ _, z
  | .pendReadNext f _ _ _, z | .pendCas f _ _ _ _, z | .leave f, z | .deleteOld f, z
  | .ret f, z => z = .answered (.pop false) (.popped f.res)
  | .nullDeref, _ => True
  | .useAfterFree, _ => False

theorem Agrees.deleteLoop {place : Addr → Place Tid} {heap : Addr → Option (Node α)} {f : Frame α}
    {z : Phase (ContainerOp α) (Reply α)} (h : Agrees place heap (.ret f) z) (p : Option Addr) :
    Agrees place heap (Pc.deleteLoop f p) z := by
  cases p <;> exact h

theorem Agrees.rechain {place : Addr → Place Tid} {heap : Addr → Option (Node α)} {f : Frame α}
    {z : Phase (ContainerOp α) (Reply α)} (h : Agrees place heap (.ret f) z) (p : Option Addr) :
    Agrees place heap (Pc.rechain f p) z := by
  cases p <;> exact h

/-- A step of another thread changes neither the node a thread pushes or has just
unlinked, nor the `next` of a node in the stack. -/
theorem Agrees.congr {place place' : Addr → Place Tid} {heap heap' : Addr → Option (Node α)}
    {pc : Pc α} {z : Phase (ContainerOp α) (Reply α)} (h : Agrees place heap pc z)
    (hpush : ∀ y, pc.pushes = some y → heap' y = heap y)
    (hswap : ∀ y, pc = .popSwap y → heap' y = heap y)
    (hheld : ∀ y, pc.holds = some y → place' y = .stacked →
      place y = .stacked ∧ nextAt heap' y = nextAt heap y) : Agrees place' heap' pc z := by
  have hdata : ∀ y, heap' y = heap y → dataAt heap' y = dataAt heap y := fun y hy => by
    simp [dataAt, hy]
  cases pc with
  | pushLoad n =>
    obtain ⟨v, hv, hph⟩ := h
    exact ⟨v, (hdata n (hpush n rfl)).trans hv, hph⟩
  | pushSetNext n p =>
    obtain ⟨v, hv, hph⟩ := h
    exact ⟨v, (hdata n (hpush n rfl)).trans hv, hph⟩
  | pushReadNext n =>
    obtain ⟨v, hv, hph⟩ := h
    exact ⟨v, (hdata n (hpush n rfl)).trans hv, hph⟩
  | pushCas n exp =>
    obtain ⟨v, hv, hexp, hph⟩ := h
    have hnext : nextAt heap' n = nextAt heap n := by simp [nextAt, hpush n rfl]
    exact ⟨v, (hdata n (hpush n rfl)).trans hv, hnext.trans hexp, hph⟩
  | popCas old next =>
    obtain ⟨hnext, hph⟩ := h
    refine ⟨fun hold => ?_, hph⟩
    obtain ⟨hold', hsame⟩ := hheld old rfl hold
    exact hsame.trans (hnext hold')
  | popSwap old =>
    obtain ⟨v, hv, hph⟩ := h
    exact ⟨v, (hdata old (hswap old rfl)).trans hv, hph⟩
  | _ => exact h

variable [Fintype Tid]

/-- The state of the stack and the abstract one, with the places of all addresses,
the nodes of the stack and the pending nodes. -/
structure Refines (s : State Tid α) (a : AtomicState Tid (List α) (ContainerOp α) (Reply α))
    (place : Addr → Place Tid) (l lp : List Addr) : Prop where
  stack : LinkedStack (nextAt s.heap) (dataAt s.heap) s.head l a.object
  stacked : ∀ x, place x = .stacked ↔ x ∈ l
  pending : Segment (nextAt s.heap) s.toBeDeleted lp none
  pended : ∀ x, place x = .pending ↔ x ∈ lp
  free : ∀ x, place x = .free ↔ s.heap x = none
  pushing : ∀ x t, place x = .pushing t ↔ (s.pc t).pushes = some x
  unlinked : ∀ t, ∃ lt, Owns (nextAt s.heap) (s.pc t) lt ∧ lt.Nodup ∧
    ∀ x, place x = .unlinked t ↔ x ∈ lt
  held : ∀ t x, (s.pc t).holds = some x → (place x).fresh = false
  doomed : ∀ t x, place x = .unlinked t → (s.pc t).dooms x → ∀ u, (s.pc u).holds ≠ some x
  counted : s.threadsInPop = tally s.pc Pc.inPop
  agrees : ∀ t, Agrees place s.heap (s.pc t) (a.phase t)

/-- The stack and the abstract stack correspond. -/
def Refinement (s : State Tid α) (a : AtomicState Tid (List α) (ContainerOp α) (Reply α)) : Prop :=
  ∃ place l lp, Refines s a place l lp

section Refines
variable {s s' : State Tid α} {a a' : AtomicState Tid (List α) (ContainerOp α) (Reply α)}
  {place place' : Addr → Place Tid} {l l' lp lp' : List Addr} {t : Tid} {p : Addr} {x : Pc α}
  {z : Phase (ContainerOp α) (Reply α)}

namespace Refines

/-- A node a thread has read from `_head` is not being pushed. -/
theorem not_held_of_fresh (h : Refines s a place l lp) {y : Addr} (hy : (place y).fresh = true)
    (u : Tid) : (s.pc u).holds ≠ some y := fun hu => by
  rw [h.held u y hu] at hy
  cases hy

/-- The node a thread is about to take the data of is in its hands. -/
theorem unlinked_of_swap (h : Refines s a place l lp) (hpc : s.pc t = .popSwap p) :
    place p = .unlinked t := by
  obtain ⟨lt, hown, -, hlt⟩ := h.unlinked t
  rw [hpc] at hown
  have hlt' : lt = [p] := hown
  exact (hlt p).mpr (by simp [hlt'])

variable [DecidableEq Tid]

/-- **The frame of a step.**  Thread `t` moves to `x`; nodes in the hands of other
threads are left alone, an address becomes free or a new node only if it was so
or the thread had doomed its node, and a node of the stack keeps its link. -/
theorem change (h : Refines s a place l lp) (hpc : s'.pc = Function.update s.pc t x)
    (hph : a'.phase = Function.update a.phase t z)
    (hcount : s'.threadsInPop + (s.pc t).inPop.toNat = s.threadsInPop + x.inPop.toNat)
    (hstack : LinkedStack (nextAt s'.heap) (dataAt s'.heap) s'.head l' a'.object)
    (hstacked : ∀ y, place' y = .stacked ↔ y ∈ l')
    (hpending : Segment (nextAt s'.heap) s'.toBeDeleted lp' none)
    (hpended : ∀ y, place' y = .pending ↔ y ∈ lp')
    (hfree : ∀ y, place' y = .free ↔ s'.heap y = none)
    (hothers : ∀ y u, u ≠ t → (place' y = .pushing u ↔ place y = .pushing u) ∧
      (place' y = .unlinked u ↔ place y = .unlinked u))
    (hheap : ∀ y u, u ≠ t → place y = .pushing u ∨ place y = .unlinked u → s'.heap y = s.heap y)
    (hpushing : ∀ y, place' y = .pushing t ↔ x.pushes = some y)
    (hunlinked : ∃ lt, Owns (nextAt s'.heap) x lt ∧ lt.Nodup ∧
      ∀ y, place' y = .unlinked t ↔ y ∈ lt)
    (hfresh : ∀ y, (place' y).fresh = true →
      (place y).fresh = true ∨ place y = .unlinked t ∧ (s.pc t).dooms y)
    (hholds : ∀ y, x.holds = some y → (s.pc t).holds = some y ∨ place y = .stacked)
    (hdooms : ∀ y, place' y = .unlinked t → x.dooms y →
      place y ≠ .stacked ∧ ∀ u, (s.pc u).holds ≠ some y)
    (hstays : ∀ y, place' y = .stacked →
      (place y).fresh = true ∨ place y = .stacked ∧ nextAt s'.heap y = nextAt s.heap y)
    (hagrees : Agrees place' s'.heap x z) : Refines s' a' place' l' lp' := by
  -- whoever holds a node now held it before or has just read it from `_head`
  have hheldBefore : ∀ u y, (s'.pc u).holds = some y →
      (∃ w, (s.pc w).holds = some y) ∨ place y = .stacked := by
    intro u y hu
    rw [hpc] at hu
    by_cases hut : u = t
    · subst u
      rw [Function.update_self] at hu
      exact (hholds y hu).imp (fun hold => ⟨t, hold⟩) id
    · rw [Function.update_of_ne hut] at hu
      exact Or.inl ⟨u, hu⟩
  refine ⟨hstack, hstacked, hpending, hpended, hfree, ?_, ?_, ?_, ?_, ?_, ?_⟩
  · intro y u
    rw [hpc]
    by_cases hut : u = t
    · subst u
      rw [Function.update_self]
      exact hpushing y
    · rw [Function.update_of_ne hut]
      exact (hothers y u hut).1.trans (h.pushing y u)
  · intro u
    rw [hpc]
    by_cases hut : u = t
    · subst u
      rw [Function.update_self]
      exact hunlinked
    · rw [Function.update_of_ne hut]
      obtain ⟨lt, hown, hnodup, hlt⟩ := h.unlinked u
      refine ⟨lt, hown.congr fun y hy => ?_, hnodup, fun y => (hothers y u hut).2.trans (hlt y)⟩
      simp [nextAt, hheap y u hut (Or.inr ((hlt y).mpr hy))]
  · intro u y hu
    by_contra hf
    rcases hfresh y (by simpa using hf) with hold | ⟨hplace, hdoom⟩
    · rcases hheldBefore u y hu with ⟨w, hw⟩ | hst
      · exact h.not_held_of_fresh hold w hw
      · rw [hst] at hold
        cases hold
    · rcases hheldBefore u y hu with ⟨w, hw⟩ | hst
      · exact h.doomed t y hplace hdoom w hw
      · rw [hplace] at hst
        cases hst
  · intro w y hplace hdoom u hu
    rw [hpc] at hdoom
    by_cases hwt : w = t
    · subst w
      rw [Function.update_self] at hdoom
      obtain ⟨hns, hnone⟩ := hdooms y hplace hdoom
      rcases hheldBefore u y hu with ⟨w, hw⟩ | hst
      · exact hnone w hw
      · exact hns hst
    · rw [Function.update_of_ne hwt] at hdoom
      have hplace' := (hothers y w hwt).2.mp hplace
      rcases hheldBefore u y hu with ⟨w', hw'⟩ | hst
      · exact h.doomed w y hplace' hdoom w' hw'
      · rw [hplace'] at hst
        cases hst
  · have hmove := tally_update s.pc t x Pc.inPop
    have hold := h.counted
    rw [hpc]
    omega
  · intro u
    rw [hpc, hph]
    by_cases hut : u = t
    · subst u
      simpa using hagrees
    · simp only [Function.update_of_ne hut]
      refine (h.agrees u).congr (fun y hy => ?_) (fun y hy => ?_) (fun y hy hst => ?_)
      · exact hheap y u hut (Or.inl ((h.pushing y u).mpr hy))
      · exact hheap y u hut (Or.inr (h.unlinked_of_swap hy))
      · rcases hstays y hst with hold | hsame
        · exact absurd hy (h.not_held_of_fresh hold u)
        · exact hsame

/-- A thread moves and leaves the nodes and the two lists alone. -/
theorem move (h : Refines s a place l lp) (hpc : s'.pc = Function.update s.pc t x)
    (hph : a'.phase = Function.update a.phase t z) (hheap : s'.heap = s.heap)
    (hhead : s'.head = s.head) (hpend : s'.toBeDeleted = s.toBeDeleted)
    (hobj : a'.object = a.object)
    (hcount : s'.threadsInPop + (s.pc t).inPop.toNat = s.threadsInPop + x.inPop.toNat)
    (hpushes : x.pushes = (s.pc t).pushes)
    (howns : ∀ lt, Owns (nextAt s.heap) (s.pc t) lt → Owns (nextAt s.heap) x lt)
    (hholds : ∀ y, x.holds = some y → (s.pc t).holds = some y ∨ place y = .stacked)
    (hdooms : ∀ y, place y = .unlinked t → x.dooms y →
      (s.pc t).dooms y ∨ ∀ u, (s.pc u).holds ≠ some y)
    (hagrees : Agrees place s.heap x z) : Refines s' a' place l lp := by
  refine h.change hpc hph hcount (by rw [hheap, hhead, hobj]; exact h.stack) h.stacked
    (by rw [hheap, hpend]; exact h.pending) h.pended (by rw [hheap]; exact h.free)
    (fun y u _ => ⟨Iff.rfl, Iff.rfl⟩) (fun y u _ _ => by rw [hheap])
    (fun y => by rw [hpushes]; exact h.pushing y t) ?_ (fun y hy => Or.inl hy) hholds ?_
    (fun y hy => Or.inr ⟨hy, by rw [hheap]⟩) (by rw [hheap]; exact hagrees)
  · obtain ⟨lt, hown, hnodup, hlt⟩ := h.unlinked t
    rw [hheap]
    exact ⟨lt, howns lt hown, hnodup, hlt⟩
  · intro y hy hdoom
    refine ⟨by simp [hy], fun u => ?_⟩
    rcases hdooms y hy hdoom with hold | hnone
    · exact h.doomed t y hy hold u
    · exact hnone u

/-- A thread changes the node at `p`, which it is pushing or has in hand. -/
theorem write (h : Refines s a place l lp) {nd' : Node α}
    (hp : place p = .pushing t ∨ place p = .unlinked t)
    (hpc : s'.pc = Function.update s.pc t x) (hph : a'.phase = Function.update a.phase t z)
    (hheap : s'.heap = Function.update s.heap p (some nd'))
    (hhead : s'.head = s.head) (hpend : s'.toBeDeleted = s.toBeDeleted)
    (hobj : a'.object = a.object) (hcount : s'.threadsInPop = s.threadsInPop)
    (hin : x.inPop = (s.pc t).inPop) (hpushes : x.pushes = (s.pc t).pushes)
    (howns : ∀ lt, lt.Nodup → Owns (nextAt s.heap) (s.pc t) lt → Owns (nextAt s'.heap) x lt)
    (hholds : x.holds = none)
    (hdooms : ∀ y, x.dooms y → (s.pc t).dooms y)
    (hagrees : Agrees place s'.heap x z) : Refines s' a' place l lp := by
  have hne : ∀ y, place y ≠ place p → s'.heap y = s.heap y := fun y hy => by
    rw [hheap, Function.update_of_ne (fun he => hy (by rw [he]))]
  have hnext : ∀ y, place y ≠ place p → nextAt s'.heap y = nextAt s.heap y := fun y hy => by
    simp [nextAt, hne y hy]
  have hdata : ∀ y, place y ≠ place p → dataAt s'.heap y = dataAt s.heap y := fun y hy => by
    simp [dataAt, hne y hy]
  have hst : ∀ y, place y = .stacked → place y ≠ place p := fun y hy => by
    rcases hp with hp | hp <;> simp [hy, hp]
  refine h.change hpc hph (by rw [hcount, hin]) ?_ h.stacked ?_ h.pended ?_
    (fun y u _ => ⟨Iff.rfl, Iff.rfl⟩) ?_ (fun y => by rw [hpushes]; exact h.pushing y t) ?_
    (fun y hy => Or.inl hy) (by simp [hholds])
    (fun y hy hdoom => ⟨by simp [hy], h.doomed t y hy (hdooms y hdoom)⟩) ?_ hagrees
  · rw [hhead, hobj]
    exact h.stack.congr (fun y hy => hnext y (hst y ((h.stacked y).mpr hy)))
      (fun y hy => hdata y (hst y ((h.stacked y).mpr hy)))
  · rw [hpend]
    refine h.pending.congr fun y hy => hnext y ?_
    rcases hp with hp | hp <;> simp [(h.pended y).mpr hy, hp]
  · intro y
    by_cases hy : y = p
    · subst y
      rcases hp with hp | hp <;> simp [hp, hheap]
    · rw [h.free y, hheap, Function.update_of_ne hy]
  · intro y u hut hy
    refine hne y ?_
    rcases hp with hp | hp <;> rcases hy with hy | hy <;> simp [hp, hy, hut]
  · obtain ⟨lt, hown, hnodup, hlt⟩ := h.unlinked t
    exact ⟨lt, howns lt hnodup hown, hnodup, hlt⟩
  · exact fun y hy => Or.inr ⟨hy, hnext y (hst y hy)⟩

/-- A step that changes the place of one node, not pending before or after, and
the node itself. -/
theorem changeOne (h : Refines s a place l lp) {pl : Place Tid} (node : Option (Node α))
    (hpc : s'.pc = Function.update s.pc t x) (hph : a'.phase = Function.update a.phase t z)
    (hheap : s'.heap = Function.update s.heap p node) (hpend : s'.toBeDeleted = s.toBeDeleted)
    (hcount : s'.threadsInPop = s.threadsInPop) (hin : x.inPop = (s.pc t).inPop)
    (hold : place p ≠ .pending ∧ ∀ u, u ≠ t → place p ≠ .pushing u ∧ place p ≠ .unlinked u)
    (hnew : pl ≠ .pending ∧ ∀ u, u ≠ t → pl ≠ .pushing u ∧ pl ≠ .unlinked u)
    (hfree : pl = .free ↔ node = none)
    (hstack : LinkedStack (nextAt s'.heap) (dataAt s'.heap) s'.head l' a'.object)
    (hstacked : ∀ y, Function.update place p pl y = .stacked ↔ y ∈ l')
    (hpushing : ∀ y, Function.update place p pl y = .pushing t ↔ x.pushes = some y)
    (hunlinked : ∃ lt, Owns (nextAt s'.heap) x lt ∧ lt.Nodup ∧
      ∀ y, Function.update place p pl y = .unlinked t ↔ y ∈ lt)
    (hfresh : pl.fresh = true →
      (place p).fresh = true ∨ place p = .unlinked t ∧ (s.pc t).dooms p)
    (hholds : x.holds = none)
    (hdooms : ∀ y, Function.update place p pl y = .unlinked t → x.dooms y →
      place y = .unlinked t ∧ (s.pc t).dooms y)
    (hstays : pl = .stacked → (place p).fresh = true)
    (hagrees : Agrees (Function.update place p pl) s'.heap x z) :
    Refines s' a' (Function.update place p pl) l' lp := by
  have hother : ∀ y, y ≠ p → s'.heap y = s.heap y := fun y hy => by
    rw [hheap, Function.update_of_ne hy]
  refine h.change hpc hph (by rw [hcount, hin]) hstack hstacked ?_ ?_ ?_ ?_ ?_ hpushing hunlinked ?_
    (by simp [hholds]) ?_ ?_ hagrees
  · rw [hpend]
    refine h.pending.congr fun y hy => ?_
    have hyp : y ≠ p := fun he => hold.1 (he ▸ (h.pended y).mpr hy)
    simp [nextAt, hother y hyp]
  · intro y
    by_cases hy : y = p
    · subst y
      simpa [hnew.1, hold.1] using h.pended p
    · simpa [hy] using h.pended y
  · intro y
    by_cases hy : y = p
    · subst y
      simpa [hheap] using hfree
    · simpa [hy, hother y hy] using h.free y
  · intro y u hut
    by_cases hy : y = p
    · subst y
      simp [hnew.2 u hut, hold.2 u hut]
    · simp [hy]
  · intro y u hut hy
    refine hother y fun he => ?_
    subst y
    rcases hy with hy | hy
    · exact (hold.2 u hut).1 hy
    · exact (hold.2 u hut).2 hy
  · intro y hy
    by_cases hyp : y = p
    · subst y
      exact hfresh (by simpa using hy)
    · exact Or.inl (by simpa [hyp] using hy)
  · intro y hy hdoom
    obtain ⟨hplace, hdoom'⟩ := hdooms y hy hdoom
    exact ⟨by simp [hplace], h.doomed t y hplace hdoom'⟩
  · intro y hy
    by_cases hyp : y = p
    · subst y
      exact Or.inl (hstays (by simpa using hy))
    · exact Or.inr ⟨by simpa [hyp] using hy, by simp [nextAt, hother y hyp]⟩

end Refines
end Refines

end Sundries.LockFreeStack
