import Sundries.LockFreeStackWithRc

/-!
# Reference counts of `lock_free_stack_with_rc`

The references to a node are the pops between raising the external count for it
and giving that count back.  Where the counts stand depends on the place of the
node (`NodeOk`): in the stack, the external count of the one pointer to it and
the internal count add up to one more than the references; so they do for the
pop that has unlinked it; once that pop has added its external count, the
internal count alone is the number of references, and the last to leave deletes
the node.

While a pop holds a reference to a node in the stack, the node stays allocated,
so its address cannot come back as another node's: an exchange that finds the
pointer unchanged unlinks the very node whose `next` was read, and the stack is
a LIFO stack in the order of the exchanges (`Refines`).
-/
namespace Sundries.LockFreeStackWithRc

variable {Tid α : Type}

/-! ## References and owners -/

/-- The node the thread has raised the external count of and not yet given the
count back. -/
def Pc.holds : Pc α → Option Addr
  | .readNext _ p | .unlink _ p _ | .swapData _ p | .addCount _ p _ | .subCount _ p => some p
  | _ => none

/-- The node only this thread may publish, or take the data of. -/
def Pc.owns : Pc α → Option Addr
  | .pushCas n => some n
  | .swapData _ p | .addCount _ p _ => some p
  | _ => none

/-- The node the thread is going to access. -/
def Pc.uses : Pc α → Option Addr
  | .pushCas n => some n
  | pc => pc.holds

/-- How many pops hold a reference to the node at `x`. -/
def refs [Fintype Tid] (s : State Tid α) (x : Addr) : Nat :=
  tally s.pc fun pc => pc.holds = some x

/-- The place of an address: its node is being pushed by `t`, in the stack with
external count `k`, unlinked by `t` with external count `k`, or left to the last
pop that holds a reference. -/
inductive Place (Tid : Type) where
  | free
  | pushing (t : Tid)
  | stacked (k : Int)
  | unlinked (t : Tid) (k : Int)
  | detached

/-- The thread that owns the node. -/
def Place.owner : Place Tid → Option Tid
  | .pushing t | .unlinked t _ => some t
  | _ => none

/-- What the counts of a node in a given place have to do with the `r` references
to it. -/
def NodeOk (r : Nat) (node : Option (Node α)) : Place Tid → Prop
  | .free => node = none ∧ r = 0
  | .pushing _ => ∃ nd, node = some nd ∧ nd.internalCount = 0 ∧ r = 0
  | .stacked k | .unlinked _ k =>
    ∃ nd, node = some nd ∧ nd.internalCount ≤ 0 ∧ k - 1 + nd.internalCount = r
  | .detached => ∃ nd, node = some nd ∧ nd.internalCount = r ∧ 0 < r

/-- Only a free address has no node. -/
theorem NodeOk.eq_free {r : Nat} {place : Place Tid} (h : NodeOk r (none : Option (Node α)) place) :
    place = .free := by
  cases place with
  | free => rfl
  | _ =>
    obtain ⟨nd, hnd, -⟩ := h
    cases hnd

/-- A node somebody holds a reference to is allocated. -/
theorem NodeOk.exists_node {r : Nat} {node : Option (Node α)} {place : Place Tid}
    (h : NodeOk r node place) (hr : 0 < r) : ∃ nd, node = some nd := by
  cases place with
  | free => exact absurd h.2 (by omega)
  | _ => exact ⟨h.choose, h.choose_spec.1⟩

/-! ## The refinement relation -/

/-- A pointer to a node together with its external count. -/
abbrev Cell := Addr × Int

def CountedNodePtr.cell (q : CountedNodePtr) : Option Cell :=
  q.ptr.map fun x => (x, q.externalCount)

/-- The counted pointer in the node of a cell. -/
def link (heap : Addr → Option (Node α)) (c : Cell) : Option Cell :=
  (nextAt heap c.1).bind CountedNodePtr.cell

def cellData (heap : Addr → Option (Node α)) (c : Cell) : Option α := dataAt heap c.1

/-- The program point of `t` fits the phase of the abstract operation and the
places of the nodes it owns or is about to unlink. -/
def Agrees (place : Addr → Place Tid) (heap : Addr → Option (Node α)) (t : Tid) :
    Pc α → Phase (ContainerOp α) (Reply α) → Prop
  | .idle, z => z = .idle
  | .pushCas n, z =>
    place n = .pushing t ∧ ∃ v, dataAt heap n = some v ∧ z = .pending (.push v)
  | .increase _, z | .subCount _ _, z => z = .pending (.pop false)
  | .readNext old p, z => old.ptr = some p ∧ z = .pending (.pop false)
  | .unlink old p next, z =>
    old.ptr = some p ∧ (∀ k, place p = .stacked k → nextAt heap p = some next) ∧
      z = .pending (.pop false)
  | .swapData old p, z =>
    place p = .unlinked t old.externalCount ∧
      ∃ v, dataAt heap p = some v ∧ z = .answered (.pop false) (.popped (some v))
  | .addCount old p res, z =>
    place p = .unlinked t old.externalCount ∧ z = .answered (.pop false) (.popped res)
  | .ret res, z => z = .answered (.pop false) (.popped res)
  | .fault, _ => False

theorem Agrees.congr {place place' : Addr → Place Tid} {heap heap' : Addr → Option (Node α)}
    {t : Tid} {pc : Pc α} {z : Phase (ContainerOp α) (Reply α)} (h : Agrees place heap t pc z)
    (howned : ∀ x, pc.owns = some x → place' x = place x ∧ dataAt heap' x = dataAt heap x)
    (hheld : ∀ x k, pc.holds = some x → place' x = .stacked k →
      (∃ k', place x = .stacked k') ∧ nextAt heap' x = nextAt heap x) :
    Agrees place' heap' t pc z := by
  cases pc with
  | pushCas n =>
    obtain ⟨hplace, hdata⟩ := howned n rfl
    obtain ⟨hp, v, hv, hph⟩ := h
    exact ⟨hplace.trans hp, v, hdata.trans hv, hph⟩
  | swapData old p =>
    obtain ⟨hplace, hdata⟩ := howned p rfl
    obtain ⟨hp, v, hv, hph⟩ := h
    exact ⟨hplace.trans hp, v, hdata.trans hv, hph⟩
  | addCount old p res => exact ⟨(howned p rfl).1.trans h.1, h.2⟩
  | unlink old p next =>
    obtain ⟨hptr, hnext, hph⟩ := h
    refine ⟨hptr, fun k hk => ?_, hph⟩
    obtain ⟨⟨k', hk'⟩, hsame⟩ := hheld p k rfl hk
    exact hsame.trans (hnext k' hk')
  | _ => exact h

variable [Fintype Tid]

/-- The state of the stack and the abstract one, with the places of all addresses
and the cells of the stack. -/
structure Refines (s : State Tid α) (a : AtomicState Tid (List α) (ContainerOp α) (Reply α))
    (place : Addr → Place Tid) (l : List Cell) : Prop where
  stack : LinkedStack (link s.heap) (cellData s.heap) s.head.cell l a.object
  stacked : ∀ x k, place x = .stacked k ↔ (x, k) ∈ l
  node : ∀ x, NodeOk (refs s x) (s.heap x) (place x)
  owner : ∀ x t, (place x).owner = some t → (s.pc t).owns = some x
  agrees : ∀ t, Agrees place s.heap t (s.pc t) (a.phase t)

/-- The stack and the abstract stack correspond. -/
def Refinement (s : State Tid α) (a : AtomicState Tid (List α) (ContainerOp α) (Reply α)) : Prop :=
  ∃ place l, Refines s a place l

section Refines
variable {s s' : State Tid α} {a a' : AtomicState Tid (List α) (ContainerOp α) (Reply α)}
  {place : Addr → Place Tid} {l l' : List Cell} {t : Tid} {p : Addr}

theorem refs_pos (h : (s.pc t).holds = some p) : 0 < refs s p :=
  tally_pos_of (t := t) (by simpa using h)

section Refs
variable [DecidableEq Tid] {x y : Pc α}

theorem refs_same (hpc : s'.pc = Function.update s.pc t x)
    (hx : x.holds = some p ↔ (s.pc t).holds = some p) : refs s' p = refs s p := by
  unfold refs
  rw [hpc]
  exact tally_update_same (by simp [hx])

/-- A thread takes a reference. -/
theorem refs_take (hpc : s'.pc = Function.update s.pc t x) (hx : x.holds = some p)
    (hy : (s.pc t).holds ≠ some p) : refs s' p = refs s p + 1 := by
  have := tally_update s.pc t x fun pc => pc.holds = some p
  unfold refs
  rw [hpc]
  simpa [hx, hy] using this

/-- A thread gives its reference back. -/
theorem refs_give (hpc : s'.pc = Function.update s.pc t x) (hx : x.holds ≠ some p)
    (hy : (s.pc t).holds = some p) : refs s p = refs s' p + 1 := by
  have := tally_update s.pc t x fun pc => pc.holds = some p
  unfold refs
  rw [hpc]
  simpa [hx, hy] using this.symm

end Refs

namespace Refines

theorem agrees_of (h : Refines s a place l) {y : Pc α} (hpc : s.pc t = y) :
    Agrees place s.heap t y (a.phase t) := hpc ▸ h.agrees t

theorem owner_of_owns (h : Refines s a place l) (ht : (s.pc t).owns = some p) :
    (place p).owner = some t := by
  have hag := h.agrees t
  cases hpc : s.pc t with
  | pushCas n =>
    rw [hpc] at hag ht
    cases ht
    rw [hag.1]
    rfl
  | swapData old q =>
    rw [hpc] at hag ht
    cases ht
    rw [hag.1]
    rfl
  | addCount old q res =>
    rw [hpc] at hag ht
    cases ht
    rw [hag.1]
    rfl
  | _ =>
    rw [hpc] at ht
    cases ht

/-- Every node a thread is going to access is allocated. -/
theorem exists_node (h : Refines s a place l) (ht : (s.pc t).uses = some p) :
    ∃ nd, s.heap p = some nd := by
  cases hpc : s.pc t with
  | pushCas n =>
    rw [hpc] at ht
    cases ht
    have hag := h.agrees_of hpc
    have hnode := h.node p
    rw [hag.1] at hnode
    obtain ⟨nd, hnd, -⟩ := hnode
    exact ⟨nd, hnd⟩
  | _ =>
    rw [hpc] at ht
    exact (h.node p).exists_node (refs_pos (t := t) (by rw [hpc]; exact ht))

variable [DecidableEq Tid]

/-- A thread moves without touching a node, the count of a null head apart. -/
theorem move (h : Refines s a place l) {x : Pc α} {z : Phase (ContainerOp α) (Reply α)}
    (hpc : s'.pc = Function.update s.pc t x) (hheap : s'.heap = s.heap)
    (hhead : s'.head.cell = s.head.cell) (hobj : a'.object = a.object)
    (hph : a'.phase = Function.update a.phase t z)
    (hholds : x.holds = (s.pc t).holds) (howns : x.owns = (s.pc t).owns)
    (hagrees : Agrees place s.heap t x z) : Refines s' a' place l where
  stack := by rw [hheap, hhead, hobj]; exact h.stack
  stacked := h.stacked
  node y := by
    rw [refs_same hpc (by rw [hholds]), hheap]
    exact h.node y
  owner y u hu := by
    rw [hpc]
    by_cases hut : u = t
    · subst u
      simpa [howns] using h.owner y t hu
    · simpa [hut] using h.owner y u hu
  agrees u := by
    rw [hpc, hph, hheap]
    by_cases hut : u = t
    · subst u
      simpa using hagrees
    · simpa [hut] using h.agrees u

/-- A thread moves and changes the node at `p` or its place: what the step has to
show about `p`, about the stack and about the thread itself. -/
theorem change (h : Refines s a place l) {x : Pc α} {z : Phase (ContainerOp α) (Reply α)}
    (node : Option (Node α)) {pl : Place Tid}
    (hpc : s'.pc = Function.update s.pc t x) (hheap : s'.heap = Function.update s.heap p node)
    (hph : a'.phase = Function.update a.phase t z)
    (hstack : LinkedStack (link s'.heap) (cellData s'.heap) s'.head.cell l' a'.object)
    (hstacked : ∀ y k, Function.update place p pl y = .stacked k ↔ (y, k) ∈ l')
    (hholds : ∀ y, y ≠ p → (x.holds = some y ↔ (s.pc t).holds = some y))
    (howns : ∀ y, y ≠ p → (s.pc t).owns = some y → x.owns = some y)
    (hnode : NodeOk (refs s' p) node pl)
    (howner : ∀ u, pl.owner = some u → (s'.pc u).owns = some p)
    (howned : ∀ u, u ≠ t → (s.pc u).owns = some p →
      pl = place p ∧ node.bind Node.data = dataAt s.heap p)
    (hheld : ∀ u k, u ≠ t → (s.pc u).holds = some p → pl = .stacked k →
      (∃ k', place p = .stacked k') ∧ node.map Node.next = nextAt s.heap p)
    (hagrees : Agrees (Function.update place p pl) s'.heap t x z) :
    Refines s' a' (Function.update place p pl) l' where
  stack := hstack
  stacked := hstacked
  node y := by
    by_cases hy : y = p
    · subst y
      simpa [hheap] using hnode
    · rw [refs_same hpc (hholds y hy), hheap]
      simpa [hy] using h.node y
  owner y u hu := by
    by_cases hy : y = p
    · subst y
      exact howner u (by simpa using hu)
    · have hold := h.owner y u (by simpa [hy] using hu)
      rw [hpc]
      by_cases hut : u = t
      · subst u
        simpa using howns y hy hold
      · simpa [hut] using hold
  agrees u := by
    by_cases hut : u = t
    · subst u
      rw [hpc, hph]
      simpa using hagrees
    · rw [hpc, hph, hheap]
      simp only [Function.update_of_ne hut]
      refine (h.agrees u).congr (fun y hy => ?_) (fun y k hy hk => ?_)
      · by_cases hyp : y = p
        · subst y
          simpa [dataAt] using howned u hut hy
        · simp [dataAt, hyp]
      · by_cases hyp : y = p
        · subst y
          simpa [nextAt] using hheld u k hut hy (by simpa using hk)
        · simp only [Function.update_of_ne hyp] at hk
          exact ⟨⟨k, hk⟩, by simp [nextAt, hyp]⟩

/-! ## The steps -/

omit [DecidableEq Tid] in
theorem fst_ne (h : Refines s a place l) (hp : ∀ k, place p ≠ .stacked k) {c : Cell}
    (hc : c ∈ l) : c.1 ≠ p := by
  rintro rfl
  exact hp c.2 ((h.stacked c.1 c.2).mpr hc)

omit [DecidableEq Tid] in
/-- A node outside the stack may change, or go. -/
theorem stack_update (h : Refines s a place l) (hp : ∀ k, place p ≠ .stacked k)
    (node : Option (Node α)) :
    LinkedStack (link (Function.update s.heap p node)) (cellData (Function.update s.heap p node))
      s.head.cell l a.object :=
  h.stack.congr (fun c hc => by simp [link, nextAt, h.fst_ne hp hc])
    fun c hc => by simp [cellData, dataAt, h.fst_ne hp hc]

omit [DecidableEq Tid] in
theorem stacked_update (h : Refines s a place l) (hp : ∀ k, place p ≠ .stacked k)
    {pl : Place Tid} (hpl : ∀ k, pl ≠ .stacked k) (y : Addr) (k : Int) :
    Function.update place p pl y = .stacked k ↔ (y, k) ∈ l := by
  by_cases hy : y = p
  · subst y
    simpa [hpl k] using fun hmem => hp k ((h.stacked p k).mpr hmem)
  · simpa [hy] using h.stacked y k

theorem push (h : Refines s a place l) (hpc : s.pc t = .idle) (hfree : s.heap p = none) (v : α) :
    Refines (s.push t v p) ⟨a.object, Function.update a.phase t (.pending (.push v)), a.log⟩
      (Function.update place p (.pushing t)) l := by
  have hnode := h.node p
  rw [hfree] at hnode
  have hplace : place p = .free := hnode.eq_free
  have hunstacked : ∀ k, place p ≠ .stacked k := by simp [hplace]
  have hrefs : refs s p = 0 := by
    rw [hplace] at hnode
    exact hnode.2
  have hnone : ∀ u, (s.pc u).owns ≠ some p := fun u hu => by
    have := h.owner_of_owns hu
    rw [hplace] at this
    cases this
  refine h.change (x := .pushCas p) (t := t) _ rfl rfl rfl (h.stack_update hunstacked _)
    (h.stacked_update hunstacked (by simp)) (by simp [hpc, Pc.holds]) (by simp [hpc, Pc.owns])
    ?_ ?_ (fun u _ hu => absurd hu (hnone u)) (by simp) ?_
  · exact ⟨_, rfl, rfl, (refs_same rfl (by simp [hpc, Pc.holds])).trans hrefs⟩
  · intro u hu
    cases hu
    simp [State.push, State.goto, Pc.owns]
  · exact ⟨by simp, v, by simp [State.push, State.goto, dataAt], rfl⟩

/-- The exchange of `push` succeeds: the node goes on top, with one pointer to it
and no reference. -/
theorem publish (h : Refines s a place l) (hpc : s.pc t = .pushCas p) {nd : Node α} {v : α}
    (hnd : s.heap p = some nd) (hnext : s.head = nd.next) (hv : dataAt s.heap p = some v) {log} :
    Refines ({ s with head := ⟨1, some p⟩ }.goto t .idle)
      ⟨v :: a.object, Function.update a.phase t .idle, log⟩
      (Function.update place p (.stacked 1)) ((p, 1) :: l) := by
  have hag := h.agrees_of hpc
  have hplace : place p = .pushing t := hag.1
  have hnode := h.node p
  rw [hplace, hnd] at hnode
  obtain ⟨nd', hnd', hcount, hrefs⟩ := hnode
  cases hnd'
  have howner : ∀ u, (s.pc u).owns = some p → u = t := fun u hu => by
    have := h.owner_of_owns hu
    rw [hplace] at this
    exact (Option.some.inj this).symm
  have hunheld : ∀ u, (s.pc u).holds ≠ some p := fun u hu => by
    have := refs_pos hu
    omega
  refine h.change (t := t) (x := .idle) (z := .idle) (s.heap p) rfl
    (Function.update_eq_self ..).symm rfl ?_ ?_ (by simp [hpc, Pc.holds]) ?_ ?_ (by simp [Place.owner])
    (fun u hut hu => absurd (howner u hu) hut) (fun u k _ hu => absurd hu (hunheld u)) rfl
  · refine LinkedStack.push ?_ hv
    have hlink : link s.heap (p, 1) = s.head.cell := by simp [link, nextAt, hnd, hnext]
    rw [State.goto, hlink]
    exact h.stack
  · intro y k
    by_cases hy : y = p
    · subst y
      have hmem : (p, k) ∉ l := fun hmem => by
        have := (h.stacked p k).mpr hmem
        rw [hplace] at this
        cases this
      simp [hmem, eq_comm]
    · simpa [hy] using h.stacked y k
  · intro y hy hu
    rw [hpc] at hu
    cases hu
    exact absurd rfl hy
  · rw [refs_same (s := s) (x := .idle) rfl (by simp [hpc, Pc.holds])]
    exact ⟨nd, hnd, by omega, by omega⟩

/-- It fails: `next` is set to the head just read. -/
theorem pushAgain (h : Refines s a place l) (hpc : s.pc t = .pushCas p) {nd : Node α}
    (hnd : s.heap p = some nd) (q : CountedNodePtr) :
    Refines ({ s with heap := Function.update s.heap p (some { nd with next := q }) }.goto t
      (.pushCas p)) a place l := by
  obtain ⟨hplace, v, hv, hph⟩ := h.agrees_of hpc
  have hnode := h.node p
  rw [hplace, hnd] at hnode
  obtain ⟨nd', hnd', hcount, hrefs⟩ := hnode
  cases hnd'
  have hunstacked : ∀ k, place p ≠ .stacked k := by simp [hplace]
  have hself : Function.update place p (.pushing t) = place := by
    rw [← hplace, Function.update_eq_self]
  rw [← hself]
  refine h.change (t := t) (x := .pushCas p) (z := a.phase t) _ rfl rfl
    (Function.update_eq_self ..).symm (h.stack_update hunstacked _)
    (h.stacked_update hunstacked (by simp)) (by simp [hpc]) (by simp [hpc]) ?_ ?_ ?_ (by simp) ?_
  · exact ⟨_, rfl, hcount, (refs_same rfl (by simp [hpc])).trans hrefs⟩
  · intro u hu
    cases hu
    simp [State.goto, Pc.owns]
  · intro u hut hu
    exact ⟨hplace.symm, by simp [dataAt, hnd]⟩
  · refine ⟨by simp, v, ?_, hph⟩
    simpa [State.goto, dataAt, hnd] using hv

/-- A pop raises the external count of the first node, and holds a reference. -/
theorem increase (h : Refines s a place l) (hpc : s.pc t = .increase s.head)
    (hp : s.head.ptr = some p) :
    ∃ l', Refines (s.increase t s.head) a
      (Function.update place p (.stacked (s.head.externalCount + 1))) l' := by
  have hcell : s.head.cell = some (p, s.head.externalCount) := by simp [CountedNodePtr.cell, hp]
  have hstack := h.stack
  rw [hcell] at hstack
  obtain ⟨l', v, q', rfl, hobj, hv, hrest⟩ := hstack.pop
  have hplace : place p = .stacked s.head.externalCount :=
    (h.stacked _ _).mpr List.mem_cons_self
  have hnode := h.node p
  rw [hplace] at hnode
  obtain ⟨nd, hnd, hneg, hcount⟩ := hnode
  have hstep : s.increase t s.head = { s with head := ⟨s.head.externalCount + 1, some p⟩ }.goto t
      (.readNext ⟨s.head.externalCount + 1, some p⟩ p) := by
    simp [State.increase, hp]
  rw [hstep]
  have hph : a.phase t = .pending (.pop false) := h.agrees_of hpc
  refine ⟨(p, s.head.externalCount + 1) :: l', h.change (t := t) (z := a.phase t)
    (s.heap p) rfl (Function.update_eq_self ..).symm (Function.update_eq_self ..).symm
    ?_ ?_ ?_ (by simp [hpc, Pc.owns]) ?_ (by simp [Place.owner]) ?_ ?_ ⟨rfl, hph⟩⟩
  · rw [hobj]
    exact LinkedStack.push hrest hv
  · intro y k
    by_cases hy : y = p
    · subst y
      -- the old cell of `p` was the first one, and occurs only once
      have hmem : (p, k) ∉ l' := fun hmem => by
        have hk := (h.stacked p k).mpr (List.mem_cons_of_mem _ hmem)
        rw [hplace] at hk
        cases hk
        exact (List.nodup_cons.mp hstack.nodup).1 hmem
      simp [hmem, eq_comm]
    · have := h.stacked y k
      simpa [hy] using this
  · intro y hy
    simp [hpc, Pc.holds, Ne.symm hy]
  · rw [refs_take (s := s) (x := .readNext ⟨s.head.externalCount + 1, some p⟩ p) rfl rfl
      (by simp [hpc, Pc.holds])]
    exact ⟨nd, hnd, hneg, by push_cast; omega⟩
  · intro u hut hu
    have := h.owner_of_owns hu
    rw [hplace] at this
    cases this
  · exact fun u k _ _ _ => ⟨⟨_, hplace⟩, rfl⟩

/-- A pop unlinks the first node: it is the node whose `next` it has read. -/
theorem unlink (h : Refines s a place l) {next : CountedNodePtr}
    (hpc : s.pc t = .unlink s.head p next) :
    ∃ v q' l', a.object = v :: q' ∧ ∀ log,
      Refines ({ s with head := next }.goto t (.swapData s.head p))
        ⟨q', Function.update a.phase t (.answered (.pop false) (.popped (some v))), log⟩
        (Function.update place p (.unlinked t s.head.externalCount)) l' := by
  obtain ⟨hp, hnext, hph⟩ := h.agrees_of hpc
  have hcell : s.head.cell = some (p, s.head.externalCount) := by simp [CountedNodePtr.cell, hp]
  have hstack := h.stack
  rw [hcell] at hstack
  obtain ⟨l', v, q', rfl, hobj, hv, hrest⟩ := hstack.pop
  have hplace : place p = .stacked s.head.externalCount :=
    (h.stacked _ _).mpr List.mem_cons_self
  have hnode := h.node p
  rw [hplace] at hnode
  obtain ⟨nd, hnd, hneg, hcount⟩ := hnode
  have hlink : link s.heap (p, s.head.externalCount) = next.cell := by
    simp [link, hnext _ hplace]
  refine ⟨v, q', l', hobj, fun log => h.change (t := t) (s.heap p) rfl
    (Function.update_eq_self ..).symm rfl ?_ ?_ ?_ (by simp [hpc, Pc.owns]) ?_ ?_ ?_ (by simp)
    ⟨by simp, v, hv, rfl⟩⟩
  · rw [State.goto, ← hlink]
    exact hrest
  · intro y k
    by_cases hy : y = p
    · subst y
      have hmem : (p, k) ∉ l' := fun hmem => by
        have hk := (h.stacked p k).mpr (List.mem_cons_of_mem _ hmem)
        rw [hplace] at hk
        cases hk
        exact (List.nodup_cons.mp hstack.nodup).1 hmem
      simp [hmem]
    · have := h.stacked y k
      simpa [hy] using this
  · intro y hy
    simp [hpc, Pc.holds]
  · rw [refs_same (s := s) (x := .swapData s.head p) rfl (by simp [hpc, Pc.holds])]
    exact ⟨nd, hnd, hneg, hcount⟩
  · intro u hu
    cases hu
    simp [State.goto, Pc.owns]
  · intro u hut hu
    have := h.owner_of_owns hu
    rw [hplace] at this
    cases this

/-- The pop that has unlinked a node takes its data. -/
theorem swapData (h : Refines s a place l) {old : CountedNodePtr}
    (hpc : s.pc t = .swapData old p) :
    Refines (s.swapData t old p) a place l := by
  obtain ⟨hplace, v, hv, hph⟩ := h.agrees_of hpc
  have hnode := h.node p
  rw [hplace] at hnode
  obtain ⟨nd, hnd, hneg, hcount⟩ := hnode
  have hdata : nd.data = some v := by simpa [dataAt, hnd] using hv
  have hunstacked : ∀ k, place p ≠ .stacked k := by simp [hplace]
  have hstep : s.swapData t old p =
      { s with heap := Function.update s.heap p (some { nd with data := none }) }.goto t
        (.addCount old p (some v)) := by
    simp [State.swapData, hnd, hdata]
  rw [hstep]
  have hself : Function.update place p (.unlinked t old.externalCount) = place := by
    rw [← hplace, Function.update_eq_self]
  rw [← hself]
  refine h.change (t := t) (x := .addCount old p (some v)) (z := a.phase t) _ rfl rfl
    (Function.update_eq_self ..).symm (h.stack_update hunstacked _)
    (h.stacked_update hunstacked (by simp)) (by simp [hpc, Pc.holds]) (by simp [hpc, Pc.owns])
    ?_ ?_ ?_ (by simp) ⟨by simp, hph⟩
  · rw [refs_same (s := s) (x := .addCount old p (some v)) rfl (by simp [hpc, Pc.holds])]
    exact ⟨_, rfl, hneg, hcount⟩
  · intro u hu
    cases hu
    simp [State.goto, Pc.owns]
  · intro u hut hu
    have := h.owner_of_owns hu
    rw [hplace] at this
    exact absurd (Option.some.inj this).symm hut

/-- The pop that has unlinked a node adds the external count: the internal count
is now the number of the other references, and the node goes if there are none. -/
theorem addCount (h : Refines s a place l) {old : CountedNodePtr} {res : Option α}
    (hpc : s.pc t = .addCount old p res) :
    ∃ pl, Refines (s.addCount t old p res) a (Function.update place p pl) l := by
  obtain ⟨hplace, hph⟩ := h.agrees_of hpc
  have hnode := h.node p
  rw [hplace] at hnode
  obtain ⟨nd, hnd, hneg, hcount⟩ := hnode
  have hunstacked : ∀ k, place p ≠ .stacked k := by simp [hplace]
  have hgive : refs s p = refs (s.goto t (.ret res)) p + 1 :=
    refs_give rfl (by simp [Pc.holds]) (by simp [hpc, Pc.holds])
  have howned : ∀ u, u ≠ t → (s.pc u).owns ≠ some p := fun u hut hu => by
    have := h.owner_of_owns hu
    rw [hplace] at this
    exact hut (Option.some.inj this).symm
  have hholds : ∀ y, y ≠ p → ((Pc.ret res).holds = some y ↔ (s.pc t).holds = some y) := by
    intro y hy
    simp [hpc, Pc.holds, Ne.symm hy]
  have howns : ∀ y, y ≠ p → (s.pc t).owns = some y → (Pc.ret res).owns = some y := by
    intro y hy hu
    rw [hpc] at hu
    cases hu
    exact absurd rfl hy
  by_cases hlast : nd.internalCount = -(old.externalCount - 2)
  · -- the others have all left
    have hnone : refs (s.goto t (.ret res)) p = 0 := by omega
    rw [State.addCount, State.fetchAdd_last hnd hlast]
    exact ⟨.free, h.change (t := t) (x := .ret res) (z := a.phase t) _ rfl rfl
      (Function.update_eq_self ..).symm (h.stack_update hunstacked _)
      (h.stacked_update hunstacked (by simp)) hholds howns ⟨rfl, hnone⟩ (by simp [Place.owner])
      (fun u hut hu => absurd hu (howned u hut)) (by simp) hph⟩
  · -- the count is that of the references that are left
    have hothers : nd.internalCount + (old.externalCount - 2) = refs (s.goto t (.ret res)) p := by
      omega
    have hpos : 0 < refs (s.goto t (.ret res)) p := by omega
    rw [State.addCount, State.fetchAdd_more hnd hlast]
    exact ⟨.detached, h.change (t := t) (x := .ret res) (z := a.phase t) _ rfl rfl
      (Function.update_eq_self ..).symm (h.stack_update hunstacked _)
      (h.stacked_update hunstacked (by simp)) hholds howns ⟨_, rfl, hothers, hpos⟩
      (by simp [Place.owner]) (fun u hut hu => absurd hu (howned u hut)) (by simp) hph⟩

omit [DecidableEq Tid] in
/-- Only a node that is left to the last pop has a positive internal count. -/
theorem eq_detached (h : Refines s a place l) {nd : Node α} (hnd : s.heap p = some nd)
    (hpos : 0 < nd.internalCount) : place p = .detached ∧ nd.internalCount = refs s p := by
  have hnode := h.node p
  rw [hnd] at hnode
  cases hpl : place p with
  | free =>
    rw [hpl] at hnode
    cases hnode.1
  | detached =>
    rw [hpl] at hnode
    obtain ⟨nd', hnd', hcount, -⟩ := hnode
    cases hnd'
    exact ⟨rfl, hcount⟩
  | pushing _ | stacked _ | unlinked _ _ =>
    rw [hpl] at hnode
    obtain ⟨nd', hnd', hcount, -⟩ := hnode
    cases hnd'
    omega

omit [Fintype Tid] [DecidableEq Tid] in
/-- A reference is given back by lowering the internal count, unless it was the
last one to a detached node. -/
theorem nodeOk_sub {r : Nat} {nd : Node α} {pl : Place Tid} (h : NodeOk (r + 1) (some nd) pl)
    (hmore : nd.internalCount ≠ 1) :
    NodeOk r (some { nd with internalCount := nd.internalCount + -1 }) pl := by
  cases pl with
  | free => cases h.1
  | pushing u =>
    obtain ⟨nd', -, -, hrefs⟩ := h
    omega
  | stacked k | unlinked u k =>
    obtain ⟨nd', hnd', hneg, hcount⟩ := h
    cases hnd'
    push_cast at hcount
    exact ⟨_, rfl, by simp only; omega, by simp only; omega⟩
  | detached =>
    obtain ⟨nd', hnd', hcount, -⟩ := h
    cases hnd'
    push_cast at hcount
    exact ⟨_, rfl, by simp only; omega, by omega⟩

/-- A pop that has failed to unlink the node lowers the internal count.  While the
node is in the stack or its unlinker has not yet added the external count, the
internal count is not positive and nobody deletes it; after that it is the number
of references, and the last one deletes it. -/
theorem subCount (h : Refines s a place l) {old : CountedNodePtr}
    (hpc : s.pc t = .subCount old p) :
    ∃ pl, Refines (s.subCount t old p) a (Function.update place p pl) l := by
  have hph : a.phase t = .pending (.pop false) := h.agrees_of hpc
  have hheld : (s.pc t).holds = some p := by simp [hpc, Pc.holds]
  obtain ⟨nd, hnd⟩ := (h.node p).exists_node (refs_pos hheld)
  have hgive : refs s p = refs (s.goto t (.increase old)) p + 1 :=
    refs_give rfl (by simp [Pc.holds]) hheld
  have hholds : ∀ y, y ≠ p →
      ((Pc.increase (α := α) old).holds = some y ↔ (s.pc t).holds = some y) := by
    intro y hy
    simp [hpc, Pc.holds, Ne.symm hy]
  have howns : ∀ y, y ≠ p → (s.pc t).owns = some y →
      (Pc.increase (α := α) old).owns = some y := by
    simp [hpc, Pc.owns]
  by_cases hlast : nd.internalCount = 1
  · -- a positive count is the number of references: this one is the last
    obtain ⟨hplace, hcount⟩ := h.eq_detached hnd (by omega)
    have hunstacked : ∀ k, place p ≠ .stacked k := by simp [hplace]
    have hnone : refs (s.goto t (.increase old)) p = 0 := by omega
    rw [State.subCount, State.fetchAdd_last hnd hlast]
    refine ⟨.free, h.change (t := t) (x := .increase old) (z := a.phase t) _ rfl rfl
      (Function.update_eq_self ..).symm (h.stack_update hunstacked _)
      (h.stacked_update hunstacked (by simp)) hholds howns ⟨rfl, hnone⟩ (by simp [Place.owner])
      ?_ (by simp) hph⟩
    intro u _ hu
    have := h.owner_of_owns hu
    rw [hplace] at this
    cases this
  · rw [State.subCount, State.fetchAdd_more hnd hlast]
    refine ⟨place p, h.change (t := t) (x := .increase old) (z := a.phase t) _ rfl rfl
      (Function.update_eq_self ..).symm ?_ ?_ hholds howns ?_ ?_ ?_ ?_ hph⟩
    · refine h.stack.congr (fun c _ => ?_) (fun c _ => ?_)
      · by_cases hc : c.1 = p <;> simp [State.goto, link, nextAt, hc, hnd]
      · by_cases hc : c.1 = p <;> simp [State.goto, cellData, dataAt, hc, hnd]
    · rw [Function.update_eq_self]
      exact h.stacked
    · have hnode := h.node p
      rw [hnd, hgive] at hnode
      exact nodeOk_sub hnode hlast
    · intro u hu
      have hold := h.owner p u hu
      have hut : u ≠ t := fun he => by
        rw [he, hpc] at hold
        cases hold
      simpa [State.goto, hut] using hold
    · intro u _ _
      exact ⟨rfl, by simp [dataAt, hnd]⟩
    · intro u k _ _ hk
      exact ⟨⟨k, hk⟩, by simp [nextAt, hnd]⟩

/-- A pop that raises the count of a null head finds the stack empty. -/
theorem increaseNull (h : Refines s a place l) (hpc : s.pc t = .increase s.head)
    (hnull : s.head.ptr = none) :
    a.object = [] ∧ ∀ log, Refines (s.increase t s.head)
      ⟨[], Function.update a.phase t (.answered (.pop false) (.popped none)), log⟩ place l := by
  have hcell : s.head.cell = none := by simp [CountedNodePtr.cell, hnull]
  have hobj : a.object = [] := (hcell ▸ h.stack).eq_nil_of_none.2
  refine ⟨hobj, fun log => h.move (t := t) (x := .ret none) ?_ ?_ ?_ hobj.symm rfl
    (by simp [hpc, Pc.holds]) (by simp [hpc, Pc.owns]) rfl⟩
  · simp [State.increase, State.goto, hnull]
  · simp [State.increase, State.goto]
  · simp [State.increase, State.goto, hnull, CountedNodePtr.cell]

end Refines

variable [DecidableEq Tid]

theorem refinement_init :
    Refinement (machine : Machine (State Tid α) (Label Tid α)).init (atomic lifo).init := by
  refine ⟨fun _ => .free, [], LinkedStack.empty, by simp, fun x => ⟨rfl, ?_⟩, by simp [Place.owner],
    fun _ => rfl⟩
  exact tally_eq_zero.mpr fun t => by simp [machine, Pc.holds]

/-- The steps of `pop`. -/
theorem Refines.next (h : Refines s a place l)
    (hstep : machine.step s (.next t) = some s') :
    ∃ a', (atomic lifo).run a (event s (.next t)) = some a' ∧ Refinement s' a' := by
  have hag := h.agrees t
  cases hpc : s.pc t with
  | increase old =>
    simp only [machine, hpc, Option.some.injEq] at hstep
    subst hstep
    rw [hpc] at hag
    have hph : a.phase t = .pending (.pop false) := hag
    by_cases hcas : s.head = old
    · subst old
      cases hptr : s.head.ptr with
      | none =>
        obtain ⟨hobj, hR⟩ := h.increaseNull hpc hptr
        have hev : event s (.next t) = [.linearize t] := by simp [event, hpc, hptr]
        exact ⟨_, hev ▸ lifo_pop_empty hph hobj, place, l, hR _⟩
      | some p =>
        obtain ⟨l', hR⟩ := h.increase hpc hptr
        exact ⟨a, by simp [event, hpc, hptr], _, l', hR⟩
    · refine ⟨a, by simp [event, hpc, hcas], place, l,
        h.move (t := t) (x := .increase s.head) (z := a.phase t) ?_ ?_ ?_ rfl
          (Function.update_eq_self ..).symm (by simp [hpc, Pc.holds]) (by simp [hpc, Pc.owns]) hph⟩
      · simp [State.increase, State.goto, hcas]
      · simp [State.increase, State.goto, hcas]
      · simp [State.increase, State.goto, hcas]
  | readNext old p =>
    simp only [machine, hpc, Option.some.injEq] at hstep
    subst hstep
    rw [hpc] at hag
    obtain ⟨hptr, hph⟩ := hag
    obtain ⟨nd, hnd⟩ := h.exists_node (t := t) (p := p) (by simp [hpc, Pc.uses, Pc.holds])
    refine ⟨a, by simp [event, hpc], place, l, ?_⟩
    rw [State.readNext, hnd]
    exact h.move (t := t) (x := .unlink old p nd.next) (z := a.phase t) rfl rfl rfl rfl
      (Function.update_eq_self ..).symm (by simp [hpc, Pc.holds]) (by simp [hpc, Pc.owns])
      ⟨hptr, fun _ _ => by simp [nextAt, hnd], hph⟩
  | unlink old p next =>
    simp only [machine, hpc, Option.some.injEq] at hstep
    subst hstep
    rw [hpc] at hag
    obtain ⟨hptr, -, hph⟩ := hag
    by_cases hcas : s.head = old
    · subst old
      obtain ⟨v, q', l', hobj, hR⟩ := h.unlink hpc
      have hev : event s (.next t) = [.linearize t] := by simp [event, hpc]
      rw [State.unlink, if_pos rfl]
      exact ⟨_, hev ▸ lifo_pop hph hobj, _, l', hR _⟩
    · refine ⟨a, by simp [event, hpc, hcas], place, l, ?_⟩
      rw [State.unlink, if_neg hcas]
      exact h.move (t := t) (x := .subCount s.head p) (z := a.phase t) rfl rfl rfl rfl
        (Function.update_eq_self ..).symm (by simp [hpc, Pc.holds]) (by simp [hpc, Pc.owns]) hph
  | swapData old p =>
    simp only [machine, hpc, Option.some.injEq] at hstep
    subst hstep
    exact ⟨a, by simp [event, hpc], place, l, h.swapData hpc⟩
  | addCount old p res =>
    simp only [machine, hpc, Option.some.injEq] at hstep
    subst hstep
    obtain ⟨pl, hR⟩ := h.addCount hpc
    exact ⟨a, by simp [event, hpc], _, l, hR⟩
  | subCount old p =>
    simp only [machine, hpc, Option.some.injEq] at hstep
    subst hstep
    obtain ⟨pl, hR⟩ := h.subCount hpc
    exact ⟨a, by simp [event, hpc], _, l, hR⟩
  | ret res =>
    simp only [machine, hpc, Option.some.injEq] at hstep
    subst hstep
    rw [hpc] at hag
    have hph : a.phase t = .answered (.pop false) (.popped res) := hag
    refine ⟨{ a with phase := Function.update a.phase t .idle }, ?_, place, l,
      h.move (x := .idle) rfl rfl rfl rfl rfl (by simp [hpc, Pc.holds]) (by simp [hpc, Pc.owns])
        rfl⟩
    simpa [event, hpc] using atomic_respond hph
  | idle | pushCas _ | fault => simp [machine, hpc] at hstep

/-- **One step**: the stack moves, and the atomic stack reads the events. -/
theorem refinement_step {lab : Label Tid α} (hR : Refinement s a)
    (hstep : machine.step s lab = some s') :
    ∃ a', (atomic lifo).run a (event s lab) = some a' ∧ Refinement s' a' := by
  obtain ⟨place, l, h⟩ := hR
  cases lab with
  | push t v n =>
    obtain ⟨hpc, hfree, rfl⟩ := step_push hstep
    have hph : a.phase t = .idle := h.agrees_of hpc
    exact ⟨_, (Machine.run_singleton ..).trans (atomic_invoke hph), _, l, h.push hpc hfree v⟩
  | pushCas t spurious =>
    obtain ⟨n, hpc, rfl⟩ := step_pushCas hstep
    obtain ⟨nd, hnd⟩ := h.exists_node (t := t) (p := n) (by simp [hpc, Pc.uses])
    obtain ⟨-, v, hv, hph⟩ := h.agrees_of hpc
    by_cases hcas : s.head = nd.next ∧ spurious = false
    · have hev : event s (.pushCas t spurious) = [.linearize t, .respond t .pushed] := by
        simp [event, hpc, nextAt, hnd, hcas]
      have hstep' : s.pushCas t n spurious = { s with head := ⟨1, some n⟩ }.goto t .idle := by
        simp [State.pushCas, hnd, hcas]
      rw [hstep']
      exact ⟨_, hev ▸ lifo_push hph, _, _, h.publish hpc hnd hcas.1 hv⟩
    · have hcas' : ¬(nd.next = s.head ∧ spurious = false) := fun hc => hcas ⟨hc.1.symm, hc.2⟩
      refine ⟨a, by simp [event, hpc, nextAt, hnd, hcas'], place, l, ?_⟩
      simpa [State.pushCas, hnd, hcas] using h.pushAgain hpc hnd s.head
  | pop t =>
    obtain ⟨hpc, rfl⟩ := step_pop hstep
    have hph : a.phase t = .idle := h.agrees_of hpc
    exact ⟨_, (Machine.run_singleton ..).trans (atomic_invoke hph), place, l,
      h.move (x := .increase s.head) rfl rfl rfl rfl rfl (by simp [hpc, Pc.holds])
        (by simp [hpc, Pc.owns]) rfl⟩
  | next t => exact h.next hstep

/-- **The stack is simulated by the atomic stack.** -/
theorem simulation :
    Machine.Simulation (machine : Machine (State Tid α) (Label Tid α)) (atomic lifo) event
      Refinement where
  init := refinement_init
  step _ _ _ _ hR hstep := refinement_step hR hstep

/-! ## What the refinement gives -/

omit [DecidableEq Tid] in
theorem Refines.not_fault (h : Refines s a place l) (t : Tid) : s.pc t ≠ .fault := by
  intro hpc
  have := h.agrees t
  rw [hpc] at this
  exact this

omit [DecidableEq Tid] in
/-- A node that is not deleted is in the stack or has a thread that will see to
it. -/
theorem Refines.exists_holder (h : Refines s a place l) {x : Addr} {nd : Node α}
    (hnd : s.heap x = some nd) :
    x ∈ l.map Prod.fst ∨ (∃ t, s.pc t = .pushCas x) ∨ ∃ t, (s.pc t).holds = some x := by
  have hown : ∀ t, (place x).owner = some t → s.pc t = .pushCas x ∨ (s.pc t).holds = some x := by
    intro t ht
    have howns := h.owner x t ht
    cases hpc : s.pc t <;> rw [hpc] at howns <;> cases howns
    · exact Or.inl rfl
    · exact Or.inr rfl
    · exact Or.inr rfl
  have hnode := h.node x
  cases hpl : place x with
  | free =>
    rw [hpl, hnd] at hnode
    cases hnode.1
  | stacked k => exact Or.inl (List.mem_map.mpr ⟨_, (h.stacked x k).mp hpl, rfl⟩)
  | pushing t | unlinked t _ =>
    rcases hown t (by rw [hpl]; rfl) with hpush | hhold
    · exact Or.inr (Or.inl ⟨t, hpush⟩)
    · exact Or.inr (Or.inr ⟨t, hhold⟩)
  | detached =>
    rw [hpl] at hnode
    obtain ⟨nd', -, -, hpos⟩ := hnode
    obtain ⟨t, ht⟩ := exists_of_tally_pos hpos
    exact Or.inr (Or.inr ⟨t, by simpa using ht⟩)

/-- **Split reference counting is safe under every interleaving.**  In every
state of every run no thread has touched a deleted node; every node a thread is
still going to access is there, and a node that the next step deletes is one
nobody is going to access any more, so it is deleted once and not while its
address could be mistaken; a node that has been unlinked is there only as long
as some pop holds a reference to it; and the pushes and pops are a run of the
atomic stack, in the order of the exchanges of `_head`, whose content is the data
from `_head` on. -/
theorem splitCounts_safe (ls : List (Label Tid α)) (s : State Tid α)
    (h : machine.run machine.init ls = some s) :
    (∀ t, s.pc t ≠ .fault) ∧
      (∀ t x, (s.pc t).uses = some x → ∃ nd, s.heap x = some nd) ∧
      (∀ lab s', machine.step s lab = some s' → ∀ x, s.heap x ≠ none → s'.heap x = none →
        ∀ t, (s'.pc t).uses ≠ some x) ∧
      ∃ a l, LifoRun (machine.trace event machine.init ls) a ∧
        LinkedStack (link s.heap) (cellData s.heap) s.head.cell l a.object ∧
        ∀ x nd, s.heap x = some nd →
          x ∈ l.map Prod.fst ∨ (∃ t, s.pc t = .pushCas x) ∨ ∃ t, (s.pc t).holds = some x := by
  obtain ⟨a, hrun, hR⟩ := simulation.run h
  have hdeleted : ∀ lab s', machine.step s lab = some s' → ∀ x, s.heap x ≠ none →
      s'.heap x = none → ∀ t, (s'.pc t).uses ≠ some x := by
    intro lab s' hstep x _ hgone t ht
    obtain ⟨a', -, place, l, h'⟩ := refinement_step hR hstep
    obtain ⟨nd, hnd⟩ := h'.exists_node ht
    rw [hgone] at hnd
    cases hnd
  obtain ⟨place, l, h⟩ := hR
  exact ⟨h.not_fault, fun t x => h.exists_node, hdeleted, a, l, LifoRun.of_run hrun, h.stack,
    fun x nd => h.exists_holder⟩

end Refines

/-- Threads a and b pop the same node: thread a unlinks it and leaves it to thread
b, which deletes it and finds the stack empty. -/
def contendedPop : List (Label Two Nat) :=
  [.push .a 7 1, .pushCas .a true, .pushCas .a false, .pop .b, .next .b, .pop .a, .next .a, .next .a,
    .next .a, .next .a, .next .a, .next .b, .next .b, .next .b, .next .a, .next .b, .next .b]

theorem contendedPop_safe :
    ∃ s, machine.run machine.init contendedPop = some s ∧ (∀ t, s.pc t ≠ .fault) ∧
      s.heap 1 = none ∧ ∃ a, LifoRun (machine.trace event machine.init contendedPop) a := by
  obtain ⟨hfault, -, -, a, l, hlifo, -⟩ := splitCounts_safe contendedPop _ rfl
  exact ⟨_, rfl, hfault, rfl, a, hlifo⟩

end Sundries.LockFreeStackWithRc
