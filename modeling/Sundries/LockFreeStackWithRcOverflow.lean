import Sundries.LockFreeStackWithRcCounts

/-!
# How often `lock_free_stack_with_rc` can raise a count

`increase_head_count` adds one to the external count of `_head`, an `int`, and nothing ever takes
it off again: a pop that has lost a race lowers the internal count of the node, and one that has
found a null pointer just returns.  So the count of each word is its first one and the number of
its raises (`Counted`), where a null word is raised from the construction of the stack on, also
after it has been in the `next` of a node, and that of a node from its push on.

The null word of a stack is the same one over its whole life.  Hence pops of an empty stack
overflow it in the end (`emptyPops_overflow`), and `fits_iff` says which runs do not overflow.
-/
namespace Sundries.LockFreeStackWithRc

/-- The largest `int`. -/
def maxInt : Int := 2147483647

variable {Tid α : Type}

/-- The word whose count the thread is going to raise: its next step is `++external_count`, or
the one after it. -/
def Pc.toRaise : Pc α → Option CountedNodePtr
  | .increase old | .subCount old _ => some old
  | _ => none

/-- No thread is about to raise a count beyond the largest `int`. -/
def State.Fits (s : State Tid α) : Prop :=
  ∀ t old, (s.pc t).toRaise = some old → old.externalCount + 1 ≤ maxInt

/-! ## Counting the raises -/

/-- The external count of the null word at first, and of a word that `push` makes. -/
def firstCount : Option Addr → Int
  | none => 0
  | some _ => 1

/-- How often the count of each word has been raised: that of the null word since the construction
of the stack, that of a word to a node since its push. -/
abbrev Raises : Type := Option Addr → ℕ

/-- The exchange of `increase_head_count` raises the count of the head, that of `push` starts a
new one. -/
def raisesAfter [DecidableEq Tid] (s : State Tid α) (raises : Raises) : Label Tid α → Raises
  | .pushCas t spurious =>
    match s.pc t with
    | .pushCas n =>
      if nextAt s.heap n = some s.head ∧ spurious = false then
        Function.update raises (some n) 0
      else raises
    | _ => raises
  | .next t =>
    match s.pc t with
    | .increase old =>
      if s.head = old then Function.update raises old.ptr (raises old.ptr + 1) else raises
    | _ => raises
  | _ => raises

/-- The step reads `_head` for a pop that is going to raise its count: by the first load, or by
an exchange that fails. -/
def readsHead (s : State Tid α) : Label Tid α → Bool
  | .pop _ => true
  | .next t =>
    match s.pc t with
    | .increase old | .unlink old _ _ => s.head ≠ old
    | _ => false
  | _ => false

/-- A head that is read in order to be raised can be: it has been raised fewer than `maxInt`
times, or fewer than `maxInt - 1` times if it points to a node. -/
def RaisesLeft (x : State Tid α × Raises) (lab : Label Tid α) : Prop :=
  readsHead x.1 lab = true → firstCount x.1.head.ptr + x.2 x.1.head.ptr < maxInt

instance (x : State Tid α × Raises) (lab : Label Tid α) : Decidable (RaisesLeft x lab) :=
  inferInstanceAs (Decidable (_ = true → _ < _))

/-- No increment overflows along the run with these labels. -/
def NeverOverflows [DecidableEq Tid] (ls : List (Label Tid α)) : Prop :=
  ∀ before u, before <+: ls → machine.run machine.init before = some u → u.Fits

/-- The stack, with the raises counted. -/
def counting [DecidableEq Tid] : Machine (State Tid α × Raises) (Label Tid α) :=
  machine.instrument (fun _ => 0) raisesAfter

/-! ## The words of the stack -/

section Counted
variable {heap heap' : Addr → Option (Node α)} {head : CountedNodePtr} {raises : Raises}
  {l : List Addr} {n p : Addr}

/-- The count of the word is its first count and its raises. -/
def Exact (raises : Raises) (w : CountedNodePtr) : Prop :=
  w.externalCount = firstCount w.ptr + raises w.ptr

/-- The pointer in the `next` of the node at `a`. -/
def ptrAt (heap : Addr → Option (Node α)) (a : Addr) : Option Addr :=
  (nextAt heap a).bind CountedNodePtr.ptr

/-- The counts of all words of the stack, that is `_head` and the words in the nodes `l`. -/
structure Counted (heap : Addr → Option (Node α)) (head : CountedNodePtr) (raises : Raises)
    (l : List Addr) : Prop where
  chain : Segment (ptrAt heap) head.ptr l none
  head : Exact raises head
  next : ∀ p ∈ l, ∀ w, nextAt heap p = some w → Exact raises w

theorem ptrAt_eq {w : CountedNodePtr} (h : nextAt heap p = some w) : ptrAt heap p = w.ptr := by
  rw [ptrAt, h, Option.bind_some]

theorem Exact.update_of_ne {w : CountedNodePtr} {ptr : Option Addr} {k : ℕ}
    (h : Exact raises w) (hne : w.ptr ≠ ptr) : Exact (Function.update raises ptr k) w := by
  rw [Exact, Function.update_of_ne hne]
  exact h

namespace Counted

/-- Only the `next` of the nodes in the stack matter. -/
theorem frame (h : Counted heap head raises l)
    (hnext : ∀ p ∈ l, nextAt heap' p = nextAt heap p) : Counted heap' head raises l where
  chain := h.chain.congr fun p hp => by rw [ptrAt, ptrAt, hnext p hp]
  head := h.head
  next p hp w hw := h.next p hp w (by rwa [← hnext p hp])

/-- A node that is published starts a count of its own. -/
theorem publish (h : Counted heap head raises l) (hn : n ∉ l)
    (hnext : nextAt heap n = some head) :
    Counted heap ⟨1, some n⟩ (Function.update raises (some n) 0) (n :: l) where
  chain := by
    refine ⟨rfl, ?_⟩
    rw [ptrAt_eq hnext]
    exact h.chain
  head := by simp [Exact, firstCount]
  next p hp w hw := by
    -- the words in the stack lead to its nodes, and `n` was none of them
    have hne : w.ptr ≠ some n := by
      intro hptr
      rcases List.mem_cons.mp hp with rfl | hp
      · rw [hnext, Option.some.injEq] at hw
        subst hw
        have hchain := h.chain
        rw [hptr] at hchain
        exact hn (hchain.first_mem.resolve_right (Option.some_ne_none _).symm)
      · exact hn (h.chain.link_mem hp ((ptrAt_eq hw).trans hptr))
    have hexact : Exact raises w := by
      rcases List.mem_cons.mp hp with rfl | hp
      · rw [hnext, Option.some.injEq] at hw
        exact hw ▸ h.head
      · exact h.next p hp w hw
    exact hexact.update_of_ne hne

/-- The count of the head is raised; no node of the stack has a word with the same pointer. -/
theorem raise (h : Counted heap head raises l) :
    Counted heap { head with externalCount := head.externalCount + 1 }
      (Function.update raises head.ptr (raises head.ptr + 1)) l where
  chain := h.chain
  head := by
    have hexact : head.externalCount = firstCount head.ptr + raises head.ptr := h.head
    simp only [Exact, Function.update_self]
    push_cast
    omega
  next p hp w hw := by
    have hne : w.ptr ≠ head.ptr := by
      rw [← ptrAt_eq hw]
      exact h.chain.link_ne_first hp
    exact (h.next p hp w hw).update_of_ne hne

/-- The first node is unlinked: its word is the head. -/
theorem unlink {w : CountedNodePtr} (h : Counted heap head raises (p :: l))
    (hw : nextAt heap p = some w) : Counted heap w raises l where
  chain := by
    rw [← ptrAt_eq hw]
    exact h.chain.2
  head := h.next p List.mem_cons_self w hw
  next q hq := h.next q (List.mem_cons_of_mem p hq)

end Counted
end Counted

/-! ## The steps -/

section Steps
variable [DecidableEq Tid] {s s' : State Tid α} {lab : Label Tid α} {t : Tid} {p q : Addr}

theorem nextAt_fetchAdd {d limit : Int} {pc : Pc α}
    (h : q ≠ p ∨ ∀ nd, s.heap p = some nd → nd.internalCount ≠ limit) :
    nextAt (s.fetchAdd t p d limit pc).heap q = nextAt s.heap q := by
  cases hnd : s.heap p with
  | none => simp [State.fetchAdd, hnd, State.goto]
  | some nd =>
    by_cases hq : q = p
    · have hmore : nd.internalCount ≠ limit := (h.resolve_left (not_not.mpr hq)) nd hnd
      rw [State.fetchAdd_more hnd hmore]
      simp [State.goto, nextAt, hq, hnd]
    · simp [State.fetchAdd, hnd, State.goto, nextAt, hq]

theorem head_fetchAdd {d limit : Int} {pc : Pc α} :
    (s.fetchAdd t p d limit pc).head = s.head := by
  cases hnd : s.heap p <;> simp [State.fetchAdd, hnd, State.goto]

theorem pc_fetchAdd (t : Tid) (p : Addr) (d limit : Int) (pc : Pc α) :
    ∃ x, (s.fetchAdd t p d limit pc).pc = Function.update s.pc t x ∧ (x = .fault ∨ x = pc) := by
  cases hnd : s.heap p with
  | none => exact ⟨.fault, by simp [State.fetchAdd, hnd, State.goto], Or.inl rfl⟩
  | some nd => exact ⟨pc, by simp [State.fetchAdd, hnd, State.goto], Or.inr rfl⟩

theorem pc_pushCas (t : Tid) (n : Addr) (spurious : Bool) :
    ∃ x, (s.pushCas t n spurious).pc = Function.update s.pc t x ∧ x.toRaise = none := by
  cases hnd : s.heap n with
  | none => exact ⟨.fault, by simp [State.pushCas, hnd, State.goto], rfl⟩
  | some nd =>
    by_cases hcas : s.head = nd.next ∧ spurious = false
    · exact ⟨.idle, by simp [State.pushCas, hnd, hcas, State.goto], rfl⟩
    · exact ⟨.pushCas n, by simp [State.pushCas, hnd, hcas, State.goto], rfl⟩

/-- The steps of `pop`. -/
theorem step_next_toRaise (h : machine.step s (.next t) = some s') :
    ∃ x, s'.pc = Function.update s.pc t x ∧
      if readsHead s (.next t) = true then x.toRaise = some s.head
      else x.toRaise = none ∨ x.toRaise = (s.pc t).toRaise := by
  cases hpc : s.pc t with
  | increase old =>
    simp only [machine, hpc, Option.some.injEq] at h
    subst h
    by_cases hcas : s.head = old
    · cases hptr : old.ptr with
      | none => exact ⟨.ret none, by simp [State.increase, hcas, hptr, State.goto], by
          simp [readsHead, hpc, hcas, Pc.toRaise]⟩
      | some p => exact ⟨.readNext ⟨old.externalCount + 1, some p⟩ p,
          by simp [State.increase, hcas, hptr, State.goto], by
          simp [readsHead, hpc, hcas, Pc.toRaise]⟩
    · exact ⟨.increase s.head, by simp [State.increase, hcas, State.goto], by
        simp [readsHead, hpc, hcas, Pc.toRaise]⟩
  | readNext old p =>
    simp only [machine, hpc, Option.some.injEq] at h
    subst h
    cases hnd : s.heap p with
    | none => exact ⟨.fault, by simp [State.readNext, hnd, State.goto], by
        simp [readsHead, hpc, Pc.toRaise]⟩
    | some nd => exact ⟨.unlink old p nd.next, by simp [State.readNext, hnd, State.goto], by
        simp [readsHead, hpc, Pc.toRaise]⟩
  | unlink old p next =>
    simp only [machine, hpc, Option.some.injEq] at h
    subst h
    by_cases hcas : s.head = old
    · exact ⟨.swapData old p, by simp [State.unlink, hcas, State.goto], by
        simp [readsHead, hpc, hcas, Pc.toRaise]⟩
    · exact ⟨.subCount s.head p, by simp [State.unlink, hcas, State.goto], by
        simp [readsHead, hpc, hcas, Pc.toRaise]⟩
  | swapData old p =>
    simp only [machine, hpc, Option.some.injEq] at h
    subst h
    cases hnd : s.heap p with
    | none => exact ⟨.fault, by simp [State.swapData, hnd, State.goto], by
        simp [readsHead, hpc, Pc.toRaise]⟩
    | some nd => exact ⟨.addCount old p nd.data, by simp [State.swapData, hnd, State.goto], by
        simp [readsHead, hpc, Pc.toRaise]⟩
  | addCount old p res =>
    simp only [machine, hpc, Option.some.injEq] at h
    subst h
    obtain ⟨x, hx, rfl | rfl⟩ := pc_fetchAdd (s := s) t p (old.externalCount - 2)
      (-(old.externalCount - 2)) (.ret res)
    · exact ⟨.fault, hx, by simp [readsHead, hpc, Pc.toRaise]⟩
    · exact ⟨.ret res, hx, by simp [readsHead, hpc, Pc.toRaise]⟩
  | subCount old p =>
    simp only [machine, hpc, Option.some.injEq] at h
    subst h
    obtain ⟨x, hx, rfl | rfl⟩ := pc_fetchAdd (s := s) t p (-1) 1 (.increase old)
    · exact ⟨.fault, hx, by simp [readsHead, hpc, Pc.toRaise]⟩
    · exact ⟨.increase old, hx, by simp [readsHead, hpc, Pc.toRaise]⟩
  | ret res =>
    simp only [machine, hpc, Option.some.injEq] at h
    subst h
    exact ⟨.idle, rfl, by simp [readsHead, hpc, Pc.toRaise]⟩
  | idle | pushCas _ | fault => simp [machine, hpc] at h

/-- **What a step has to do with the raises to come**: it takes its thread to the raise of the
head that it reads, or of a word that was to be raised already. -/
theorem step_toRaise (h : machine.step s lab = some s') :
    ∃ t x, s'.pc = Function.update s.pc t x ∧
      if readsHead s lab = true then x.toRaise = some s.head
      else x.toRaise = none ∨ x.toRaise = (s.pc t).toRaise := by
  cases lab with
  | push t v n =>
    obtain ⟨-, -, rfl⟩ := step_push h
    exact ⟨t, .pushCas n, rfl, Or.inl rfl⟩
  | pushCas t spurious =>
    obtain ⟨n, -, rfl⟩ := step_pushCas h
    obtain ⟨x, hx, hnone⟩ := pc_pushCas (s := s) t n spurious
    exact ⟨t, x, hx, Or.inl hnone⟩
  | pop t =>
    obtain ⟨-, rfl⟩ := step_pop h
    exact ⟨t, .increase s.head, rfl, rfl⟩
  | next t => exact ⟨t, step_next_toRaise h⟩

theorem fits_step (h : machine.step s lab = some s') (hfits : s.Fits) :
    s'.Fits ↔ (readsHead s lab = true → s.head.externalCount + 1 ≤ maxInt) := by
  obtain ⟨t, x, hpc, hx⟩ := step_toRaise h
  constructor
  · intro hfits' hread
    rw [if_pos hread] at hx
    refine hfits' t s.head ?_
    rw [hpc, Function.update_self]
    exact hx
  · intro hread u old hold
    rw [hpc] at hold
    by_cases hu : u = t
    · subst u
      rw [Function.update_self] at hold
      split at hx
      · rename_i hreads
        cases hx.symm.trans hold
        exact hread hreads
      · rcases hx with hx | hx
        · rw [hx] at hold
          cases hold
        · exact hfits t old (hx ▸ hold)
    · rw [Function.update_of_ne hu] at hold
      exact hfits u old hold

end Steps

section Runs
variable [DecidableEq Tid] [Fintype Tid] {s s' : State Tid α} {lab : Label Tid α} {t : Tid}
  {a : AtomicState Tid (List α) (ContainerOp α) (Reply α)} {place : Addr → Place Tid}
  {cells : List Cell} {raises : Raises} {l : List Addr} {p : Addr}

omit [DecidableEq Tid] in
/-- The nodes of the chain are those of the stack. -/
theorem Refines.chain_eq (h : Refines s a place cells) (hc : Counted s.heap s.head raises l) :
    l = cells.map Prod.fst := by
  have hmap : Segment (ptrAt s.heap) (s.head.cell.map Prod.fst) (cells.map Prod.fst)
      ((none : Option Cell).map Prod.fst) := by
    refine h.stack.chain.map Prod.fst fun c _ => ?_
    cases hnext : nextAt s.heap c.1 with
    | none => simp [ptrAt, link, hnext]
    | some w => simp [ptrAt, link, hnext, CountedNodePtr.cell, Option.map_map, Function.comp_def]
  have hhead : s.head.cell.map Prod.fst = s.head.ptr := by
    simp [CountedNodePtr.cell, Option.map_map, Function.comp_def]
  rw [hhead] at hmap
  exact hc.chain.unique hmap

omit [DecidableEq Tid] in
theorem Refines.stacked_of_mem (h : Refines s a place cells)
    (hc : Counted s.heap s.head raises l) (hp : p ∈ l) : ∃ k, place p = .stacked k := by
  rw [h.chain_eq hc] at hp
  obtain ⟨c, hmem, rfl⟩ := List.mem_map.mp hp
  exact ⟨c.2, (h.stacked c.1 c.2).mpr hmem⟩

omit [DecidableEq Tid] in
/-- A node outside the stack is none of the chain. -/
theorem Refines.not_mem (h : Refines s a place cells) (hc : Counted s.heap s.head raises l)
    (hp : ∀ k, place p ≠ .stacked k) : p ∉ l := by
  intro hmem
  obtain ⟨k, hk⟩ := h.stacked_of_mem hc hmem
  exact hp k hk

/-- The step of `pop` keeps the counts exact. -/
theorem counted_next (h : Refines s a place cells) (hc : Counted s.heap s.head raises l)
    (hstep : machine.step s (.next t) = some s') :
    ∃ l', Counted s'.heap s'.head (raisesAfter s raises (.next t)) l' := by
  have hag := h.agrees t
  cases hpc : s.pc t with
  | increase old =>
    simp only [machine, hpc, Option.some.injEq] at hstep
    subst hstep
    by_cases hcas : s.head = old
    · subst old
      refine ⟨l, ?_⟩
      have hraise := hc.raise
      simpa [State.increase, State.goto, raisesAfter, hpc] using hraise
    · exact ⟨l, by simpa [State.increase, State.goto, raisesAfter, hpc, hcas] using hc⟩
  | readNext old p =>
    simp only [machine, hpc, Option.some.injEq] at hstep
    subst hstep
    refine ⟨l, ?_⟩
    cases hnd : s.heap p with
    | none => simpa [State.readNext, State.goto, raisesAfter, hpc, hnd] using hc
    | some nd => simpa [State.readNext, State.goto, raisesAfter, hpc, hnd] using hc
  | unlink old p next =>
    simp only [machine, hpc, Option.some.injEq] at hstep
    subst hstep
    rw [hpc] at hag
    obtain ⟨hptr, hnext, -⟩ := hag
    by_cases hcas : s.head = old
    · subst old
      have hchain := hc.chain
      rw [hptr] at hchain
      obtain ⟨l', rfl⟩ := hchain.exists_cons
      -- `next` was read from this very node: it has stayed in the stack since
      obtain ⟨k, hk⟩ := h.stacked_of_mem hc List.mem_cons_self
      exact ⟨l', by simpa [State.unlink, State.goto, raisesAfter, hpc] using hc.unlink (hnext k hk)⟩
    · exact ⟨l, by simpa [State.unlink, State.goto, raisesAfter, hpc, hcas] using hc⟩
  | swapData old p =>
    simp only [machine, hpc, Option.some.injEq] at hstep
    subst hstep
    cases hnd : s.heap p with
    | none => exact ⟨l, by simpa [State.swapData, State.goto, raisesAfter, hpc, hnd] using hc⟩
    | some nd =>
      -- the node keeps its `next`
      have hframe : Counted (Function.update s.heap p (some { nd with data := none })) s.head
          raises l := hc.frame fun q _ => by by_cases hq : q = p <;> simp [nextAt, hq, hnd]
      exact ⟨l, by simpa [State.swapData, State.goto, raisesAfter, hpc, hnd] using hframe⟩
  | addCount old p res =>
    simp only [machine, hpc, Option.some.injEq] at hstep
    subst hstep
    rw [hpc] at hag
    have hmem : p ∉ l := h.not_mem hc fun k => by simp [hag.1]
    refine ⟨l, ?_⟩
    simp only [raisesAfter, hpc, State.addCount, head_fetchAdd]
    exact hc.frame fun q hq => nextAt_fetchAdd (Or.inl (ne_of_mem_of_not_mem hq hmem))
  | subCount old p =>
    simp only [machine, hpc, Option.some.injEq] at hstep
    subst hstep
    refine ⟨l, ?_⟩
    simp only [raisesAfter, hpc, State.subCount, head_fetchAdd]
    refine hc.frame fun q hq => nextAt_fetchAdd ?_
    by_cases hqp : q = p
    · -- the internal count of a node in the stack is not positive, so it is not deleted
      subst q
      refine Or.inr fun nd hnd hlast => ?_
      obtain ⟨k, hk⟩ := h.stacked_of_mem hc hq
      have hdetached := (h.eq_detached hnd (by omega)).1
      rw [hk] at hdetached
      cases hdetached
    · exact Or.inl hqp
  | ret res =>
    simp only [machine, hpc, Option.some.injEq] at hstep
    subst hstep
    exact ⟨l, by simpa [State.goto, raisesAfter, hpc] using hc⟩
  | idle | pushCas _ | fault => simp [machine, hpc] at hstep

/-- **One step** keeps the counts exact. -/
theorem counted_step (h : Refines s a place cells) (hc : Counted s.heap s.head raises l)
    (hstep : machine.step s lab = some s') :
    ∃ l', Counted s'.heap s'.head (raisesAfter s raises lab) l' := by
  cases lab with
  | push t v n =>
    obtain ⟨hpc, hfree, rfl⟩ := step_push hstep
    have hnode := h.node n
    rw [hfree] at hnode
    have hmem : n ∉ l := h.not_mem hc fun k => by simp [hnode.eq_free]
    refine ⟨l, hc.frame fun q hq => ?_⟩
    simp [State.push, State.goto, nextAt, ne_of_mem_of_not_mem hq hmem]
  | pushCas t spurious =>
    obtain ⟨n, hpc, rfl⟩ := step_pushCas hstep
    obtain ⟨nd, hnd⟩ := h.exists_node (t := t) (p := n) (by simp [hpc, Pc.uses])
    have hag := h.agrees_of hpc
    have hmem : n ∉ l := h.not_mem hc fun k => by simp [hag.1]
    by_cases hcas : s.head = nd.next ∧ spurious = false
    · have hnext : nextAt s.heap n = some s.head := by simp [nextAt, hnd, hcas.1]
      refine ⟨n :: l, ?_⟩
      simpa [State.pushCas, State.goto, raisesAfter, hpc, hnd, hcas, hnext]
        using hc.publish hmem hnext
    · have hcas' : ¬(nextAt s.heap n = some s.head ∧ spurious = false) := by
        simpa [nextAt, hnd, eq_comm] using hcas
      refine ⟨l, ?_⟩
      simp only [State.pushCas, hnd, if_neg hcas, raisesAfter, hpc, if_neg hcas']
      refine hc.frame fun q hq => ?_
      simp [State.goto, nextAt, ne_of_mem_of_not_mem hq hmem]
  | pop t =>
    obtain ⟨-, rfl⟩ := step_pop hstep
    exact ⟨l, hc⟩
  | next t => exact counted_next h hc hstep

/-- The stack corresponds to the abstract one, and its counts are exact. -/
def Invariant (x : State Tid α × Raises) : Prop :=
  (∃ a, Refinement x.1 a) ∧ ∃ l, Counted x.1.heap x.1.head x.2 l

theorem invariant_init : Invariant (counting : Machine (State Tid α × Raises) _).init := by
  refine ⟨⟨_, refinement_init⟩, [], ⟨rfl, rfl, ?_⟩⟩
  intro p hp
  cases hp

theorem invariant_step {x y : State Tid α × Raises} (h : Invariant x)
    (hstep : counting.step x lab = some y) : Invariant y := by
  obtain ⟨⟨a, hR⟩, l, hc⟩ := h
  obtain ⟨s', hs', rfl⟩ := Machine.instrument_step_eq_some.mp hstep
  obtain ⟨a', -, hR'⟩ := refinement_step hR hs'
  obtain ⟨place, cells, hrefines⟩ := hR
  exact ⟨⟨a', hR'⟩, counted_step hrefines hc hs'⟩

/-- Where the counts are exact, the raises left say whether the increment fits. -/
theorem fits_step_iff {x y : State Tid α × Raises} (h : Invariant x) (hfits : x.1.Fits)
    (hstep : counting.step x lab = some y) : y.1.Fits ↔ RaisesLeft x lab := by
  obtain ⟨s', hs', rfl⟩ := Machine.instrument_step_eq_some.mp hstep
  obtain ⟨-, l, hc⟩ := h
  have hexact : x.1.head.externalCount = firstCount x.1.head.ptr + x.2 x.1.head.ptr := hc.head
  rw [fits_step hs' hfits, hexact]
  constructor
  · intro hread hreads
    have := hread hreads
    omega
  · intro hleft hreads
    have := hleft hreads
    omega

/-- **Which runs do not overflow.**  Along a run no count is about to be raised beyond the
largest `int` if and only if every head that a pop has read in order to raise its count has been
raised fewer times before than the type of the count allows. -/
theorem fits_iff {ls : List (Label Tid α)} {r : State Tid α}
    (hr : machine.run machine.init ls = some r) :
    NeverOverflows ls ↔ counting.RunMeets RaisesLeft counting.init ls := by
  have hcount : ∀ {before u}, machine.run machine.init before = some u →
      ∃ raises, counting.run counting.init before = some ((u, raises) : State Tid α × Raises) :=
    fun h => Machine.exists_instrument_run h _
  obtain ⟨raises, hcounting⟩ := hcount hr
  have hinit : Invariant (counting : Machine (State Tid α × Raises) _).init ∧
      (counting : Machine (State Tid α × Raises) _).init.1.Fits :=
    ⟨invariant_init, fun t old hold => by cases hold⟩
  rw [← Machine.runMeets_iff (M := counting) (P := fun x => Invariant x ∧ x.1.Fits) ?_ hinit
    hcounting]
  · constructor
    · intro hfits before x hpre hx
      have hinv : Invariant x :=
        (Machine.reachable_of_run before hx).invariant invariant_init fun _ _ _ => invariant_step
      exact ⟨hinv, hfits before x.1 hpre (Machine.run_of_instrument hx)⟩
    · intro hmeets before u hpre hu
      obtain ⟨raises', hx⟩ := hcount hu
      exact (hmeets before (u, raises') hpre hx).2
  · rintro x lab y ⟨hinv, hfits⟩ hstep
    rw [← fits_step_iff hinv hfits hstep]
    exact and_iff_right (invariant_step hinv hstep)

end Runs

/-- Two threads pop the only element: `b` raises the count later, so that `a` fails to unlink the
node, and is the last to let go of it. -/
def lostRace : List (Label Two ℕ) :=
  [.push .a 5 0, .pushCas .a false, .pop .a, .pop .b, .next .a, .next .b, .next .b, .next .a,
    .next .b, .next .a, .next .b, .next .b, .next .b, .next .a, .next .a, .next .a]

theorem lostRace_neverOverflows : ∃ r, machine.run machine.init lostRace = some r ∧
    r.pc .a = .ret none ∧ r.pc .b = .ret (some 5) ∧ NeverOverflows lostRace :=
  ⟨_, rfl, rfl, rfl, (fits_iff rfl).mpr (by decide)⟩

/-! ## Pops of an empty stack -/

/-- A pop of an empty stack, by one thread. -/
def emptyPop : List (Label Unit ℕ) := [.pop (), .next (), .next ()]

/-- `n` such pops. -/
def emptyPops : ℕ → List (Label Unit ℕ)
  | 0 => []
  | n + 1 => emptyPops n ++ emptyPop

/-- Each pop of the empty stack leaves the count of the head higher by one. -/
theorem run_emptyPops (n : ℕ) :
    machine.run machine.init (emptyPops n) =
      some ⟨fun _ => none, ⟨n, none⟩, fun _ => .idle⟩ := by
  induction n with
  | zero => rfl
  | succ n ih =>
    refine machine.run_append ih ?_
    have hpc : ∀ (pc : Unit → Pc ℕ) x, Function.update pc () x = fun _ => x :=
      fun pc x => funext fun _ => Function.update_self ..
    simp [emptyPop, Machine.run, machine, State.goto, State.increase, hpc]

/-- The next pop reads a head that has been raised `n` times. -/
theorem run_emptyPops_pop (n : ℕ) :
    ∃ s, machine.run machine.init (emptyPops n ++ [.pop ()]) = some s ∧
      (s.pc ()).toRaise = some ⟨n, none⟩ :=
  ⟨_, machine.run_append (run_emptyPops n) rfl, rfl⟩

/-- **The count overflows**: after 2147483647 pops of a stack that has always been empty, the
next one raises a count beyond the largest `int`. -/
theorem emptyPops_overflow :
    ∃ s, machine.run machine.init (emptyPops 2147483647 ++ [.pop ()]) = some s ∧
      ¬ NeverOverflows (emptyPops 2147483647 ++ [.pop ()]) := by
  obtain ⟨s, hs, hraise⟩ := run_emptyPops_pop 2147483647
  refine ⟨s, hs, fun hnever => ?_⟩
  have hfits := hnever _ s (List.prefix_refl _) hs () _ hraise
  simp [maxInt] at hfits

end Sundries.LockFreeStackWithRc
