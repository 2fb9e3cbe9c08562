import Mathlib.Data.BitVec
import Sundries.Machine

/-!
# Releasing a node of `lock_free_queue`

A node of the queue has two pointers to it, each with an external count of the
threads that have read it, and one word `node_counter` of its own.  A thread that
is done with the node takes one off `internal_count` (`release_ref`); a thread that
has removed a pointer takes one off `external_counters` and adds the pointer's
external count to `internal_count`, less 2 (`free_external_counter`).  The call that
leaves both fields zero deletes the node.

Releases may come before the counts they balance, so `internal_count` may wrap
below zero.  It is all the time the wrap of what is still owed: the releases to come
less the counts to come (`Inv.counter`).  With a counter to come `external_counters`
is not zero, and with only releases to come `internal_count` is not, as long as they
are fewer than the field has values; so the last call deletes the node, and no other.

The queue itself is not modelled: it is marked as broken, and does not compile.  A
step is one atomic operation on the word `count`, or the deletion of the node.  The
additions to `internal_count` are made in an `int`, which holds them, as both terms
are less than 2^30.
-/
namespace Sundries.LockFreeQueue

/-- `node_counter`. -/
structure NodeCounter where
  internalCount : BitVec 30
  externalCounters : BitVec 2
  deriving DecidableEq

/-- A call on the node: `release_ref()`, or `free_external_counter` of a pointer with
the given external count. -/
inductive Call where
  | releaseRef
  | freeExternalCounter (externalCount : ℤ)
  deriving DecidableEq

namespace NodeCounter

/-- The constructor of `node`. -/
def new : NodeCounter := ⟨0, 2⟩

/-- The `new_counter` of `release_ref`. -/
def releaseRef (old : NodeCounter) : NodeCounter :=
  { old with internalCount := old.internalCount - 1 }

/-- The `new_counter` of `free_external_counter`. -/
def freeExternalCounter (old : NodeCounter) (externalCount : ℤ) : NodeCounter :=
  let countIncrease := externalCount - 2
  { internalCount := old.internalCount + BitVec.ofInt 30 countIncrease
    externalCounters := old.externalCounters - 1 }

/-- The `new_counter` of the call. -/
def after (old : NodeCounter) : Call → NodeCounter
  | .releaseRef => old.releaseRef
  | .freeExternalCounter externalCount => old.freeExternalCounter externalCount

/-- Both fields are zero. -/
def isZero (c : NodeCounter) : Bool := c.internalCount = 0 && c.externalCounters = 0

end NodeCounter

/-- Where a call is: the next thing it does. -/
inductive Pc where
  /-- Read `count`. -/
  | load (c : Call)
  /-- The exchange of `count`, expected to be `old`. -/
  | exchange (c : Call) (old : NodeCounter)
  | deleteNode
  | returned
  /-- Returned after deleting the node. -/
  | deleted
  | useAfterFree
  deriving DecidableEq

/-- The next step of a call: what becomes of the node's `count`, which is gone with
the node, and where the call goes. -/
def advance : Option NodeCounter → Pc → Option (Option NodeCounter × Pc)
  | some old, .load c => some (some old, .exchange c old)
  | some cur, .exchange c old =>
    if cur = old then
      some (some (old.after c), if (old.after c).isZero then .deleteNode else .returned)
    -- the exchange that fails leaves the current value in `old_counter`
    else some (some cur, .exchange c cur)
  | some _, .deleteNode => some (none, .deleted)
  | none, .load _ | none, .exchange _ _ | none, .deleteNode => some (none, .useAfterFree)
  | _, .returned | _, .deleted | _, .useAfterFree => none

/-- The node's `count`, as long as the node is there, and the calls on it. -/
structure State where
  count : Option NodeCounter
  calls : List Pc
  deriving DecidableEq

/-- A new node with calls on it; a label names the call that moves. -/
def machine (calls : List Call) : Machine State ℕ where
  init := ⟨some .new, calls.map .load⟩
  step s i :=
    match s.calls[i]? with
    | none => none
    | some pc => (advance s.count pc).map fun r => ⟨r.1, s.calls.set i r.2⟩

/-- The exchange of the call `i` succeeds: it takes effect, and goes on to delete the
node or not. -/
def effect (s : State) (i : ℕ) : List (ℕ × Bool) :=
  match s.count, s.calls[i]? with
  | some cur, some (.exchange c old) => if cur = old then [(i, (old.after c).isZero)] else []
  | _, _ => []

/-- The call has not taken effect yet. -/
def Pc.pending : Pc → Option Call
  | .load c | .exchange c _ => some c
  | _ => none

/-! ## What is still owed -/

/-- A release to come. -/
def Pc.releases (pc : Pc) : ℕ :=
  match pc.pending with
  | some .releaseRef => 1
  | _ => 0

/-- A counter to come. -/
def Pc.counters (pc : Pc) : ℕ :=
  match pc.pending with
  | some (.freeExternalCounter _) => 1
  | _ => 0

/-- A count to come. -/
def Pc.counts (pc : Pc) : ℕ :=
  match pc.pending with
  | some (.freeExternalCounter externalCount) => (externalCount - 2).toNat
  | _ => 0

/-- A call that will delete the node. -/
def Pc.deleting (pc : Pc) : ℕ := if pc = .deleteNode then 1 else 0

/-- A call that has deleted the node. -/
def Pc.deletes (pc : Pc) : ℕ := if pc = .deleted then 1 else 0

namespace State

def releases (s : State) : ℕ := Machine.total Pc.releases s.calls

def counters (s : State) : ℕ := Machine.total Pc.counters s.calls

def counts (s : State) : ℕ := Machine.total Pc.counts s.calls

def deleting (s : State) : ℕ := Machine.total Pc.deleting s.calls

def deletes (s : State) : ℕ := Machine.total Pc.deletes s.calls

end State

/-- `count` is the wrap of what is still owed, and as long as anything is owed no
call deletes the node; then one does. -/
structure Inv (s : State) : Prop where
  releases_lt : s.releases < 1073741824
  counters_le : s.counters ≤ 2
  counter : ∀ c, s.count = some c →
    c.internalCount = BitVec.ofInt 30 (s.releases - s.counts) ∧
      c.externalCounters = BitVec.ofInt 2 s.counters
  deleters : s.deleting + s.deletes = if s.releases + s.counters = 0 then 1 else 0
  gone : s.deletes = if s.count = none then 1 else 0
  sound : ∀ pc ∈ s.calls, pc ≠ .useAfterFree
  external : ∀ pc ∈ s.calls, ∀ e, pc.pending = some (.freeExternalCounter e) → 2 ≤ e

/-- The cases of a step: a read, or an exchange that fails; an exchange that succeeds;
the deletion of the node; and an access to a node that is gone. -/
theorem advance_cases {count count' : Option NodeCounter} {pc x : Pc}
    (h : advance count pc = some (count', x)) :
    (∃ c old, pc.pending = some c ∧ (∀ b, pc = .exchange c b → count ≠ some b) ∧
      x = .exchange c old ∧ count' = count) ∨
    (∃ c old, pc = .exchange c old ∧ count = some old ∧ count' = some (old.after c) ∧
      x = if (old.after c).isZero then .deleteNode else .returned) ∨
    (∃ c, pc = .deleteNode ∧ count = some c ∧ count' = none ∧ x = .deleted) ∨
    count = none ∧ count' = none ∧ x = .useAfterFree ∧ (pc.pending ≠ none ∨ pc = .deleteNode) := by
  cases pc with
  | load c =>
    cases count with
    | none =>
      cases h
      exact Or.inr (Or.inr (Or.inr ⟨rfl, rfl, rfl, Or.inl (Option.some_ne_none c)⟩))
    | some old =>
      cases h
      exact Or.inl ⟨c, old, rfl, by simp, rfl, rfl⟩
  | exchange c old =>
    cases count with
    | none =>
      cases h
      exact Or.inr (Or.inr (Or.inr ⟨rfl, rfl, rfl, Or.inl (Option.some_ne_none c)⟩))
    | some cur =>
      rw [advance] at h
      split at h
      · next heq =>
        subst heq
        cases h
        exact Or.inr (Or.inl ⟨c, cur, rfl, rfl, rfl, rfl⟩)
      · next hne =>
        cases h
        refine Or.inl ⟨c, cur, rfl, ?_, rfl, rfl⟩
        rintro b ⟨⟩ hb
        exact hne (Option.some.inj hb)
  | deleteNode =>
    cases count with
    | none =>
      cases h
      exact Or.inr (Or.inr (Or.inr ⟨rfl, rfl, rfl, Or.inr rfl⟩))
    | some c =>
      cases h
      exact Or.inr (Or.inr (Or.inl ⟨c, rfl, rfl, rfl, rfl⟩))
  | returned | deleted | useAfterFree => cases count <;> cases h

theorem step_cases {calls : List Call} {s s' : State} {i : ℕ}
    (h : (machine calls).step s i = some s') :
    ∃ pc x, s.calls[i]? = some pc ∧ advance s.count pc = some (s'.count, x) ∧
      s'.calls = s.calls.set i x := by
  simp only [machine] at h
  split at h
  · cases h
  · next pc hpc =>
    obtain ⟨⟨count', x⟩, hadv, rfl⟩ := Option.map_eq_some_iff.mp h
    exact ⟨pc, x, hpc, hadv, rfl⟩

/-! ## The words -/

theorem ofInt_sub {w : ℕ} (x y : ℤ) :
    BitVec.ofInt w (x - y) = BitVec.ofInt w x - BitVec.ofInt w y := by
  rw [Int.sub_eq_add_neg, BitVec.ofInt_add, BitVec.ofInt_neg, BitVec.sub_eq_add_neg]

/-- A number that the word can hold is wrapped to zero only if it is zero. -/
theorem ofInt_eq_zero_iff {w n : ℕ} (hn : n < 2 ^ w) : BitVec.ofInt w n = 0 ↔ n = 0 := by
  constructor
  · intro h
    have hzero := congrArg BitVec.toNat h
    rw [BitVec.ofInt_natCast, BitVec.toNat_ofNat, Nat.mod_eq_of_lt hn] at hzero
    simpa using hzero
  · rintro rfl
    simp

/-- Without a counter to come there is no count to come. -/
theorem counts_eq_zero {s : State} (h : s.counters = 0) : s.counts = 0 := by
  refine Machine.total_eq_zero.mpr fun pc hpc => ?_
  have hnone := Machine.total_eq_zero.mp h pc hpc
  unfold Pc.counters at hnone
  unfold Pc.counts
  split at hnone
  · cases hnone
  · rfl

/-- The word is zero only if nothing is owed. -/
theorem isZero_iff {c : NodeCounter} {releases counters counts : ℕ}
    (hreleases : releases < 1073741824) (hcounters : counters ≤ 2)
    (hcounts : counters = 0 → counts = 0)
    (hinternal : c.internalCount = BitVec.ofInt 30 (releases - counts))
    (hexternal : c.externalCounters = BitVec.ofInt 2 counters) :
    c.isZero = true ↔ releases + counters = 0 := by
  have hzero : c.externalCounters = 0 ↔ counters = 0 := by
    rw [hexternal]
    exact ofInt_eq_zero_iff (by omega)
  rw [NodeCounter.isZero, Bool.and_eq_true, decide_eq_true_eq, decide_eq_true_eq, hzero]
  constructor
  · -- without a counter to come only releases are owed, too few to wrap to zero
    rintro ⟨hint, hnone⟩
    rw [hinternal, hcounts hnone, Nat.cast_zero, Int.sub_zero, ofInt_eq_zero_iff (by omega)] at hint
    omega
  · intro hsum
    have hnone : counters = 0 := by omega
    have hrel : releases = 0 := by omega
    refine ⟨?_, hnone⟩
    rw [hinternal, hcounts hnone, hrel]
    rfl

/-! ## One step -/

section Step
variable {s s' : State} {i : ℕ} {pc x : Pc}

/-- A call moves: what it owes and does is exchanged. -/
theorem totals_set (hpc : s.calls[i]? = some pc) (hs' : s'.calls = s.calls.set i x) :
    s'.releases + pc.releases = s.releases + x.releases ∧
      s'.counters + pc.counters = s.counters + x.counters ∧
      s'.counts + pc.counts = s.counts + x.counts ∧
      s'.deleting + pc.deleting = s.deleting + x.deleting ∧
      s'.deletes + pc.deletes = s.deletes + x.deletes := by
  simp only [State.releases, State.counters, State.counts, State.deleting, State.deletes, hs']
  exact ⟨Machine.total_set _ hpc x, Machine.total_set _ hpc x, Machine.total_set _ hpc x,
    Machine.total_set _ hpc x, Machine.total_set _ hpc x⟩

/-- A call that has not taken effect owes something. -/
theorem owed_pos (hpc : pc ∈ s.calls) (hpending : pc.pending ≠ none) :
    0 < s.releases + s.counters := by
  by_contra hzero
  have hrel : s.releases = 0 := by omega
  have hcnt : s.counters = 0 := by omega
  have hpcRel := Machine.total_eq_zero.mp hrel pc hpc
  have hpcCnt := Machine.total_eq_zero.mp hcnt pc hpc
  cases hc : pc.pending with
  | none => exact hpending hc
  | some c => cases c <;> simp [Pc.releases, Pc.counters, hc] at hpcRel hpcCnt

/-- The node is there for every call that accesses it. -/
theorem Inv.count_ne_none (h : Inv s) (hpc : pc ∈ s.calls)
    (haccess : pc.pending ≠ none ∨ pc = .deleteNode) : s.count ≠ none := by
  intro hnone
  have hgone := h.gone
  have hdel := h.deleters
  rw [if_pos hnone] at hgone
  rcases haccess with hpending | rfl
  · have := owed_pos hpc hpending
    rw [if_neg (by omega)] at hdel
    omega
  · have hpos : s.deleting ≠ 0 := fun hzero => by
      simpa [Pc.deleting] using Machine.total_eq_zero.mp hzero _ hpc
    split at hdel <;> omega

theorem Pc.owes_nothing (hx : x.pending = none) :
    x.releases = 0 ∧ x.counters = 0 ∧ x.counts = 0 := by
  simp [Pc.releases, Pc.counters, Pc.counts, hx]

/-- A call that takes effect gives what it owes. -/
theorem Inv.after (h : Inv s) {c : Call} {old : NodeCounter}
    (hpc : s.calls[i]? = some (.exchange c old)) (hcount : s.count = some old)
    (hs' : s'.calls = s.calls.set i x) (hx : x.pending = none) :
    (old.after c).internalCount = BitVec.ofInt 30 (s'.releases - s'.counts) ∧
      (old.after c).externalCounters = BitVec.ofInt 2 s'.counters := by
  obtain ⟨hrel, hcnt, hcounts, -, -⟩ := totals_set hpc hs'
  obtain ⟨hxrel, hxcnt, hxcounts⟩ := Pc.owes_nothing hx
  obtain ⟨hinternal, hexternal⟩ := h.counter old hcount
  rw [hxrel] at hrel
  rw [hxcnt] at hcnt
  rw [hxcounts] at hcounts
  cases c with
  | releaseRef =>
    simp only [Pc.releases, Pc.counters, Pc.counts, Pc.pending] at hrel hcnt hcounts
    have howed : (s'.releases : ℤ) - s'.counts = s.releases - s.counts - 1 := by omega
    have hsame : s'.counters = s.counters := by omega
    refine ⟨?_, by rw [hsame]; exact hexternal⟩
    rw [howed, ofInt_sub, ← hinternal]
    rfl
  | freeExternalCounter e =>
    have he : 2 ≤ e := h.external _ (List.mem_of_getElem? hpc) e rfl
    simp only [Pc.releases, Pc.counters, Pc.counts, Pc.pending] at hrel hcnt hcounts
    have howed : (s'.releases : ℤ) - s'.counts = s.releases - s.counts + (e - 2) := by omega
    have hless : (s'.counters : ℤ) = s.counters - 1 := by omega
    constructor
    · rw [howed, BitVec.ofInt_add, ← hinternal]
      rfl
    · rw [hless, ofInt_sub, ← hexternal]
      rfl

theorem Pc.pending_deletes {c : Call} (h : pc.pending = some c) :
    pc.deleting = 0 ∧ pc.deletes = 0 := by
  cases pc <;> simp [Pc.pending] at h <;> exact ⟨rfl, rfl⟩

/-- What holds of every call holds after a step, if it holds of the call that moved. -/
theorem forall_calls {P : Pc → Prop} (h : ∀ pc ∈ s.calls, P pc) (hs' : s'.calls = s.calls.set i x)
    (hx : P x) : ∀ pc ∈ s'.calls, P pc := by
  intro y hy
  rw [hs'] at hy
  rcases List.mem_or_eq_of_mem_set hy with hold | rfl
  · exact h y hold
  · exact hx

/-- A call that stays as pending as it was owes the same. -/
theorem owed_same (hpc : s.calls[i]? = some pc) (hs' : s'.calls = s.calls.set i x)
    (hsame : pc.pending = x.pending) :
    s'.releases = s.releases ∧ s'.counters = s.counters ∧ s'.counts = s.counts := by
  obtain ⟨hrel, hcnt, hcounts, -, -⟩ := totals_set hpc hs'
  have hr : pc.releases = x.releases := by simp [Pc.releases, hsame]
  have hk : pc.counters = x.counters := by simp [Pc.counters, hsame]
  have hc : pc.counts = x.counts := by simp [Pc.counts, hsame]
  omega

/-- Nothing changes but what the call has read. -/
theorem Inv.read (h : Inv s) {c : Call} {old : NodeCounter} (hpc : s.calls[i]? = some pc)
    (hpending : pc.pending = some c) (hcount : s'.count = s.count)
    (hs' : s'.calls = s.calls.set i (.exchange c old)) : Inv s' := by
  obtain ⟨-, -, -, hdeleting, hdeletes⟩ := totals_set hpc hs'
  obtain ⟨hR, hK, hC⟩ := owed_same hpc hs' hpending
  obtain ⟨hd, he⟩ := Pc.pending_deletes hpending
  have hx : (Pc.exchange c old).deleting = 0 ∧ (Pc.exchange c old).deletes = 0 := ⟨rfl, rfl⟩
  have hD : s'.deleting = s.deleting := by omega
  have hE : s'.deletes = s.deletes := by omega
  refine ⟨hR ▸ h.releases_lt, hK ▸ h.counters_le, ?_, ?_, ?_, forall_calls h.sound hs' (by simp),
    forall_calls h.external hs' fun e he => h.external pc (List.mem_of_getElem? hpc) e ?_⟩
  · rw [hcount, hR, hK, hC]
    exact h.counter
  · rw [hR, hK, hD, hE]
    exact h.deleters
  · rw [hcount, hE]
    exact h.gone
  · exact hpending.trans he

/-- The exchange succeeds: the call gives what it owes, and deletes the node if
nothing is owed any more. -/
theorem Inv.exchange (h : Inv s) {c : Call} {old : NodeCounter}
    (hpc : s.calls[i]? = some (.exchange c old)) (hcount : s.count = some old)
    (hnew : s'.count = some (old.after c))
    (hx : x = if (old.after c).isZero then .deleteNode else .returned)
    (hs' : s'.calls = s.calls.set i x) :
    Inv s' ∧ ((old.after c).isZero = true ↔ s'.releases + s'.counters = 0) := by
  have hnone : x.pending = none := by rw [hx]; split <;> rfl
  have hpos := owed_pos (List.mem_of_getElem? hpc) (Option.some_ne_none c)
  obtain ⟨hrel, hcnt, -, hdeleting, hdeletes⟩ := totals_set hpc hs'
  obtain ⟨hxr, hxk, -⟩ := Pc.owes_nothing hnone
  obtain ⟨hinternal, hexternal⟩ := h.after hpc hcount hs' hnone
  have hd : (Pc.exchange c old).deleting = 0 ∧ (Pc.exchange c old).deletes = 0 := ⟨rfl, rfl⟩
  have hlt := h.releases_lt
  have hle := h.counters_le
  have hdel := h.deleters
  have hgone := h.gone
  have hzero := isZero_iff (by omega) (by omega) counts_eq_zero hinternal hexternal
  rw [if_neg (by omega)] at hdel
  rw [if_neg (by simp [hcount])] at hgone
  have hxd : x.deletes = 0 := by rw [hx]; split <;> rfl
  have hxD : x.deleting = if (old.after c).isZero then 1 else 0 := by rw [hx]; split <;> rfl
  refine ⟨⟨by omega, by omega, ?_, ?_, ?_, forall_calls h.sound hs' ?_,
    forall_calls h.external hs' fun e he => ?_⟩, hzero⟩
  · rw [hnew]
    rintro _ ⟨⟩
    exact ⟨hinternal, hexternal⟩
  · have hsum : s'.deleting + s'.deletes = x.deleting := by omega
    rw [hsum, hxD]
    exact if_congr hzero rfl rfl
  · rw [if_neg (by simp [hnew])]
    omega
  · rw [hx]
    split <;> simp
  · rw [hnone] at he
    cases he

/-- The node is deleted by the call that was to delete it. -/
theorem Inv.delete (h : Inv s) {c : NodeCounter} (hpc : s.calls[i]? = some .deleteNode)
    (hcount : s.count = some c) (hnew : s'.count = none)
    (hs' : s'.calls = s.calls.set i .deleted) : Inv s' := by
  obtain ⟨-, -, -, hdeleting, hdeletes⟩ := totals_set hpc hs'
  obtain ⟨hR, hK, -⟩ := owed_same hpc hs' rfl
  have hd : Pc.deleteNode.deleting = 1 ∧ Pc.deleteNode.deletes = 0 := ⟨rfl, rfl⟩
  have hx : Pc.deleted.deleting = 0 ∧ Pc.deleted.deletes = 1 := ⟨rfl, rfl⟩
  have hgone := h.gone
  rw [if_neg (by simp [hcount])] at hgone
  refine ⟨hR ▸ h.releases_lt, hK ▸ h.counters_le, by simp [hnew], ?_, ?_,
    forall_calls h.sound hs' (by simp), forall_calls h.external hs' (by simp [Pc.pending])⟩
  · rw [hR, hK, ← h.deleters]
    omega
  · rw [if_pos hnew]
    omega

/-- A step of the call `i` without effect, or that takes effect: then nothing is owed
any more just if the call goes on to delete the node. -/
inductive Takes (s : State) (i : ℕ) (s' : State) : List (ℕ × Bool) → Prop where
  | quiet (owed : s'.releases + s'.counters = s.releases + s.counters)
      (pending : s'.calls.map Pc.pending = s.calls.map Pc.pending) : Takes s i s' []
  | effect (deletes : Bool) (c : Call) (owed : 0 < s.releases + s.counters)
      (zero : deletes = true ↔ s'.releases + s'.counters = 0)
      (before : (s.calls.map Pc.pending)[i]? = some (some c))
      (after : s'.calls.map Pc.pending = (s.calls.map Pc.pending).set i none) :
      Takes s i s' [(i, deletes)]

/-- A call that has not taken effect by its step leaves what is pending alone. -/
theorem pending_set (hpc : s.calls[i]? = some pc) (hs' : s'.calls = s.calls.set i x)
    (hsame : pc.pending = x.pending) : s'.calls.map Pc.pending = s.calls.map Pc.pending := by
  have hi : (s.calls.map Pc.pending)[i]? = some x.pending := by
    rw [List.getElem?_map, hpc, ← hsame]
    rfl
  obtain ⟨hlt, heq⟩ := List.getElem?_eq_some_iff.mp hi
  rw [hs', List.map_set, ← heq, List.set_getElem_self]

/-- **One step.** -/
theorem Inv.step (h : Inv s) {calls : List Call} (hstep : (machine calls).step s i = some s') :
    Inv s' ∧ Takes s i s' (effect s i) := by
  obtain ⟨pc, x, hpc, hadv, hs'⟩ := step_cases hstep
  rcases advance_cases hadv with ⟨c, old, hpending, hnot, rfl, hcount⟩ |
    ⟨c, old, rfl, hcount, hnew, hx⟩ | ⟨c, rfl, hcount, hnew, rfl⟩ | ⟨hnone, -, -, haccess⟩
  · obtain ⟨hR, hK, -⟩ := owed_same hpc hs' hpending
    have hquiet : effect s i = [] := by
      unfold effect
      split
      · next cur c' b hcur hcall =>
        rw [hpc] at hcall
        cases hcall
        cases hpending
        exact if_neg fun hb => hnot b rfl (hcur.trans (congrArg some hb))
      · rfl
    rw [hquiet]
    exact ⟨h.read hpc hpending hcount hs', .quiet (by omega) (pending_set hpc hs' hpending)⟩
  · obtain ⟨hinv, hzero⟩ := h.exchange hpc hcount hnew hx hs'
    have htakes : effect s i = [(i, (old.after c).isZero)] := by simp [effect, hcount, hpc]
    have hnone : x.pending = none := by rw [hx]; split <;> rfl
    rw [htakes]
    refine ⟨hinv, .effect _ c (owed_pos (List.mem_of_getElem? hpc) (Option.some_ne_none c)) hzero
      ?_ ?_⟩
    · rw [List.getElem?_map, hpc]
      rfl
    · rw [hs', List.map_set, hnone]
  · have hpending : Pc.deleteNode.pending = Pc.deleted.pending := rfl
    obtain ⟨hR, hK, -⟩ := owed_same hpc hs' hpending
    have hquiet : effect s i = [] := by simp [effect, hcount, hpc]
    rw [hquiet]
    exact ⟨h.delete hpc hcount hnew hs', .quiet (by omega) (pending_set hpc hs' hpending)⟩
  · exact absurd hnone (h.count_ne_none (List.mem_of_getElem? hpc) haccess)

end Step

/-! ## Whole runs -/

/-- The calls on a node: two counters with the counts `e₁` and `e₂`, and as many
releases as the two counts are above 2. -/
def callsFor (e₁ e₂ : ℤ) : List Call :=
  .freeExternalCounter e₁ :: .freeExternalCounter e₂ ::
    List.replicate (e₁ - 2 + (e₂ - 2)).toNat .releaseRef

theorem init_counters {e₁ e₂ : ℤ} : (machine (callsFor e₁ e₂)).init.counters = 2 := by
  simp [machine, callsFor, State.counters, Machine.total, Machine.total_replicate, Pc.counters,
    Pc.pending]

theorem inv_init {e₁ e₂ : ℤ} (h₁ : 2 ≤ e₁) (h₂ : 2 ≤ e₂) (hsum : e₁ - 2 + (e₂ - 2) < 1073741824) :
    Inv (machine (callsFor e₁ e₂)).init := by
  have hreleases : (machine (callsFor e₁ e₂)).init.releases = (e₁ - 2 + (e₂ - 2)).toNat := by
    simp [machine, callsFor, State.releases, Machine.total, Machine.total_replicate, Pc.releases,
      Pc.pending]
  have hcounters : (machine (callsFor e₁ e₂)).init.counters = 2 := init_counters
  have hcounts : (machine (callsFor e₁ e₂)).init.counts = (e₁ - 2).toNat + (e₂ - 2).toNat := by
    simp [machine, callsFor, State.counts, Machine.total, Machine.total_replicate, Pc.counts,
      Pc.pending]
  have hdeleting : (machine (callsFor e₁ e₂)).init.deleting = 0 := by
    simp [machine, callsFor, State.deleting, Machine.total, Machine.total_replicate, Pc.deleting]
  have hdeletes : (machine (callsFor e₁ e₂)).init.deletes = 0 := by
    simp [machine, callsFor, State.deletes, Machine.total, Machine.total_replicate, Pc.deletes]
  have hcalls : ∀ pc ∈ (machine (callsFor e₁ e₂)).init.calls, ∃ c, pc = .load c ∧
      (c = .freeExternalCounter e₁ ∨ c = .freeExternalCounter e₂ ∨ c = .releaseRef) := by
    intro pc hpc
    simp only [machine, callsFor, List.map_cons, List.map_replicate, List.mem_cons,
      List.mem_replicate] at hpc
    rcases hpc with rfl | rfl | ⟨-, rfl⟩ <;> exact ⟨_, rfl, by simp⟩
  refine ⟨by omega, by omega, ?_, ?_, ?_, fun pc hpc => ?_, fun pc hpc e he => ?_⟩
  · rintro _ ⟨⟩
    rw [hreleases, hcounters, hcounts]
    have hzero : ((e₁ - 2 + (e₂ - 2)).toNat : ℤ) - ((e₁ - 2).toNat + (e₂ - 2).toNat : ℕ) = 0 := by
      omega
    rw [hzero]
    exact ⟨rfl, rfl⟩
  · rw [hdeleting, hdeletes, hcounters, if_neg (by omega)]
  · rw [hdeletes]
    rfl
  · obtain ⟨c, rfl, -⟩ := hcalls pc hpc
    simp
  · obtain ⟨c, rfl, hc⟩ := hcalls pc hpc
    cases he
    rcases hc with hc | hc | hc <;> cases hc <;> assumption

/-- Something is owed as long as a call has not taken effect. -/
theorem owed_pos_iff {s : State} :
    0 < s.releases + s.counters ↔ ∃ pc ∈ s.calls, pc.pending ≠ none := by
  constructor
  · intro hpos
    by_contra hnone
    have hnothing : ∀ pc ∈ s.calls, pc.pending = none := fun pc hpc => by
      by_contra hpending
      exact hnone ⟨pc, hpc, hpending⟩
    have hrel : s.releases = 0 :=
      Machine.total_eq_zero.mpr fun pc hpc => (Pc.owes_nothing (hnothing pc hpc)).1
    have hcnt : s.counters = 0 :=
      Machine.total_eq_zero.mpr fun pc hpc => (Pc.owes_nothing (hnothing pc hpc)).2.1
    omega
  · rintro ⟨pc, hpc, hpending⟩
    exact owed_pos hpc hpending

/-- What the calls that have taken effect were told, in their order: each of them once,
none to delete the node as long as anything is owed, and then the last one to. -/
structure Told (s : State) (told : List (ℕ × Bool)) : Prop where
  once : (told.map Prod.fst).Nodup
  mem : ∀ j, j ∈ told.map Prod.fst ↔ (s.calls.map Pc.pending)[j]? = some none
  kept : 0 < s.releases + s.counters → ∀ x ∈ told, x.2 = false
  last : s.releases + s.counters = 0 →
    ∃ before i, told = before ++ [(i, true)] ∧ ∀ x ∈ before, x.2 = false

theorem Told.step {s s' : State} {told effects : List (ℕ × Bool)} {i : ℕ} (h : Told s told)
    (htakes : Takes s i s' effects) : Told s' (told ++ effects) := by
  cases htakes with
  | quiet owed pending =>
    rw [List.append_nil]
    exact ⟨h.once, pending ▸ h.mem, fun hp => h.kept (owed ▸ hp), fun hz => h.last (owed ▸ hz)⟩
  | effect deletes c owed zero before after =>
    have hnew : i ∉ told.map Prod.fst := fun hi => by
      have := (h.mem i).mp hi
      rw [before] at this
      cases this
    refine ⟨?_, fun j => ?_, fun hp x hx => ?_, fun hz => ⟨told, i, ?_, h.kept owed⟩⟩
    · rw [List.map_append]
      exact h.once.append (List.nodup_singleton i) (by simpa using hnew)
    · rw [after, List.getElem?_set, List.map_append, List.mem_append, h.mem j]
      have hlt : i < (s.calls.map Pc.pending).length := (List.getElem?_eq_some_iff.mp before).1
      by_cases hij : i = j
      · subst hij
        rw [if_pos rfl, if_pos hlt]
        simp
      · simp [hij, Ne.symm hij]
    · rcases List.mem_append.mp hx with hold | hlast
      · exact h.kept owed x hold
      · rw [List.mem_singleton.mp hlast]
        by_contra hdel
        have := zero.mp (Bool.eq_true_of_not_eq_false hdel)
        omega
    · rw [zero.mpr hz]

variable {e₁ e₂ : ℤ} {ls : List ℕ} {s : State}

theorem told_of_run (h₁ : 2 ≤ e₁) (h₂ : 2 ≤ e₂) (hsum : e₁ - 2 + (e₂ - 2) < 1073741824)
    (hrun : (machine (callsFor e₁ e₂)).run (machine (callsFor e₁ e₂)).init ls = some s) :
    Inv s ∧
      Told s ((machine (callsFor e₁ e₂)).trace effect (machine (callsFor e₁ e₂)).init ls) := by
  have hinit := inv_init h₁ h₂ hsum
  have hstart : Told (machine (callsFor e₁ e₂)).init [] := by
    refine ⟨List.nodup_nil, fun j => ?_, fun _ _ hx => (by cases hx), fun hz => ?_⟩
    · have hload : ∀ pc ∈ (machine (callsFor e₁ e₂)).init.calls, pc.pending ≠ none := by
        intro pc hpc
        obtain ⟨c, -, rfl⟩ := List.mem_map.mp hpc
        exact Option.some_ne_none c
      refine iff_of_false List.not_mem_nil fun hj => ?_
      obtain ⟨pc, hpc, hnone⟩ := List.mem_map.mp (List.mem_of_getElem? hj)
      exact hload pc hpc hnone
    · rw [init_counters] at hz
      omega
  refine Machine.run_induction_from _ (P := fun ls s => Inv s ∧
    Told s ((machine (callsFor e₁ e₂)).trace effect (machine (callsFor e₁ e₂)).init ls))
    ⟨hinit, hstart⟩ ?_ hrun
  rintro ls u i u' hu ⟨hinv, htold⟩ hstep
  obtain ⟨hinv', htakes⟩ := hinv.step hstep
  rw [Machine.trace_concat hu hstep]
  exact ⟨hinv', htold.step htakes⟩

/-- A call that cannot move has returned. -/
theorem advance_eq_none {count : Option NodeCounter} {pc : Pc} (h : advance count pc = none) :
    pc.pending = none ∧ pc ≠ .deleteNode := by
  cases pc with
  | load c => cases count <;> cases h
  | exchange c old =>
    cases count with
    | none => cases h
    | some cur =>
      rw [advance] at h
      split at h <;> cases h
  | deleteNode => cases count <;> cases h
  | returned | deleted | useAfterFree => exact ⟨rfl, by simp⟩

theorem deletes_eq_count : s.deletes = s.calls.count .deleted := by
  unfold State.deletes
  induction s.calls with
  | nil => rfl
  | cons pc calls ih =>
    rw [Machine.total, ih, List.count_cons, Nat.add_comm]
    simp [Pc.deletes]

/-- **The node is deleted once and last.**  For all external counts from 2 on whose
excess over 2 is less than 2^30 together, and in every run of the two calls of
`free_external_counter` with these counts and as many calls of `release_ref`: as long
as one of the calls has not taken effect, none of those that have is told to delete
the node; once all have, each of them once, the last one to take effect is, and only
that one.  No call accesses the node after its deletion, and when no call can move any
more, one call has deleted it. -/
theorem deleted_once_and_last (h₁ : 2 ≤ e₁) (h₂ : 2 ≤ e₂) (hsum : e₁ - 2 + (e₂ - 2) < 1073741824)
    (hrun : (machine (callsFor e₁ e₂)).run (machine (callsFor e₁ e₂)).init ls = some s) :
    let told := (machine (callsFor e₁ e₂)).trace effect (machine (callsFor e₁ e₂)).init ls
    ((∃ pc ∈ s.calls, pc.pending ≠ none) → ∀ x ∈ told, x.2 = false) ∧
      ((∀ pc ∈ s.calls, pc.pending = none) →
        (told.map Prod.fst).Perm (List.range s.calls.length) ∧
          ∃ before i, told = before ++ [(i, true)] ∧ ∀ x ∈ before, x.2 = false) ∧
      (∀ pc ∈ s.calls, pc ≠ .useAfterFree) ∧
      ((∀ i, (machine (callsFor e₁ e₂)).step s i = none) →
        s.count = none ∧ s.calls.count .deleted = 1) := by
  intro told
  obtain ⟨hinv, htold⟩ := told_of_run h₁ h₂ hsum hrun
  have hnothing : (∀ pc ∈ s.calls, pc.pending = none) → s.releases + s.counters = 0 := by
    intro hnone
    by_contra hne
    obtain ⟨pc, hpc, hpending⟩ := owed_pos_iff.mp (Nat.pos_of_ne_zero hne)
    exact hpending (hnone pc hpc)
  refine ⟨fun hpending => htold.kept (owed_pos_iff.mpr hpending),
    fun hnone => ⟨?_, htold.last (hnothing hnone)⟩, hinv.sound, fun hstuck => ?_⟩
  · refine (List.perm_ext_iff_of_nodup htold.once List.nodup_range).mpr fun j => ?_
    rw [htold.mem j, List.mem_range, List.getElem?_map, Option.map_eq_some_iff]
    constructor
    · rintro ⟨pc, hpc, -⟩
      exact (List.getElem?_eq_some_iff.mp hpc).1
    · intro hj
      exact ⟨s.calls[j], List.getElem?_eq_getElem hj, hnone _ (List.getElem_mem hj)⟩
  · have hended : ∀ pc ∈ s.calls, pc.pending = none ∧ pc ≠ .deleteNode := by
      intro pc hpc
      obtain ⟨i, hi⟩ := List.mem_iff_getElem?.mp hpc
      have hadv := hstuck i
      simp only [machine, hi, Option.map_eq_none_iff] at hadv
      exact advance_eq_none hadv
    have hzero := hnothing fun pc hpc => (hended pc hpc).1
    have hdeleting : s.deleting = 0 :=
      Machine.total_eq_zero.mpr fun pc hpc => if_neg (hended pc hpc).2
    have hdeletes := hinv.deleters
    rw [if_pos hzero, hdeleting, Nat.zero_add] at hdeletes
    have hgone := hinv.gone
    rw [hdeletes] at hgone
    refine ⟨by_contra fun hcount => ?_, by rw [← deletes_eq_count, hdeletes]⟩
    rw [if_neg hcount] at hgone
    cases hgone

/-- The release comes first, and the exchange of the first call fails once. -/
def releaseFirst : List ℕ := [0, 2, 2, 0, 0, 1, 1, 1]

theorem releaseFirst_deleted_once :
    (∃ u, (machine (callsFor 3 2)).run (machine (callsFor 3 2)).init [0, 2, 2] = some u ∧
      u.count = some ⟨1073741823, 2⟩) ∧
    ∃ s, (machine (callsFor 3 2)).run (machine (callsFor 3 2)).init releaseFirst = some s ∧
      s.count = none ∧
      ∃ before i, (machine (callsFor 3 2)).trace effect (machine (callsFor 3 2)).init releaseFirst =
        before ++ [(i, true)] ∧ ∀ x ∈ before, x.2 = false := by
  obtain ⟨-, hlast, -, -⟩ := @deleted_once_and_last 3 2 releaseFirst _
    (by decide) (by decide) (by decide) rfl
  exact ⟨⟨_, rfl, rfl⟩, _, rfl, rfl, (hlast (by decide)).2⟩

end Sundries.LockFreeQueue
