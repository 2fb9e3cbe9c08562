import Sundries.ParallelAccumulate

/-!
# The recursive `parallel_accumulate` over `std::async`

A call on more than 25 elements hands the first half, with `init`, to `std::async`, and sums
the second half itself, from `T()`; so each call makes at most one other, and the calls of a
run form a chain.  A state is that chain, the outermost call first.

`std::async` is called without a policy, so each asynchronous call may run on a thread of its
own or be deferred until its result is asked for; the label of the step that makes the call
decides (`Policy`).  A deferred call takes its steps while the call that made it waits in
`get`.
-/
namespace Sundries.ParallelAccumulateAsync

/-- `max_chunk_size`. -/
def maxChunkSize : ℕ := 25

/-- How `std::async` runs a call. -/
inductive Policy where
  | async
  | deferred
  deriving DecidableEq

/-- Where a call is. -/
inductive Pc (T : Type) where
  | entry
  /-- In `std::accumulate(first, last, init)`. -/
  | whole (loop : Loop T)
  /-- The first half is handed on; in `std::accumulate(mid_point, last, T())`. -/
  | second (loop : Loop T)
  /-- In `first_half_result.get() + second_half_result`. -/
  | get (second : T)
  | done (r : T)
  | fault

/-- A call on the elements before `last`. -/
structure Call (T : Type) where
  last : ℕ
  init : T
  policy : Policy
  pc : Pc T

/-- Call `call` takes a step; `policy` is for the call that it makes, if it makes one. -/
structure Label where
  call : ℕ
  policy : Policy

variable {T : Type} [AddMonoid T]

/-- The call waits for the one that it has made. -/
def Call.inGet (c : Call T) : Bool :=
  match c.pc with
  | .get _ => true
  | _ => false

/-- Call `d` has a thread to run on: its own, or the one that waits for it. -/
def hasThread (calls : List (Call T)) (d : ℕ) (c : Call T) : Bool :=
  match c.policy, d with
  | .async, _ => true
  | .deferred, 0 => true
  | .deferred, d + 1 => (calls[d]?.map Call.inGet).getD false

/-- The result of call `d`, once it is there. -/
def result (calls : List (Call T)) (d : ℕ) : Option T :=
  calls[d]?.bind fun c =>
    match c.pc with
    | .done r => some r
    | _ => none

/-- A step of the call `c` at depth `d`. -/
def stepCall (w : ℕ) (vals : List T) (calls : List (Call T)) (d : ℕ) (policy : Policy)
    (c : Call T) : Option (List (Call T)) :=
  match c.pc with
  | .entry =>
    let length := (BlockPartition.length w c.last).toNat
    if length ≤ maxChunkSize then
      some (calls.set d { c with pc := .whole ⟨0, c.last, c.init⟩ })
    else
      let midPoint := length / 2
      if c.last < midPoint then some (calls.set d { c with pc := .fault })
      else
        some (calls.set d { c with pc := .second ⟨midPoint, c.last, 0⟩ } ++
          [⟨midPoint, c.init, policy, .entry⟩])
  | .whole loop =>
    match loop.step vals with
    | none => some (calls.set d { c with pc := .fault })
    | some (.inl loop') => some (calls.set d { c with pc := .whole loop' })
    | some (.inr r) => some (calls.set d { c with pc := .done r })
  | .second loop =>
    match loop.step vals with
    | none => some (calls.set d { c with pc := .fault })
    | some (.inl loop') => some (calls.set d { c with pc := .second loop' })
    | some (.inr second) => some (calls.set d { c with pc := .get second })
  | .get second =>
    (result calls (d + 1)).map fun first => calls.set d { c with pc := .done (first + second) }
  | .done _ | .fault => none

/-- `parallel_accumulate(first, last, init)` on the elements `vals`. -/
def parallelAccumulate (w : ℕ) (vals : List T) (init : T) : Machine (List (Call T)) Label where
  init := [⟨vals.length, init, .async, .entry⟩]
  step calls l :=
    match calls[l.call]? with
    | none => none
    | some c =>
      if hasThread calls l.call c then stepCall w vals calls l.call l.policy c else none

/-! ## What each call computes -/

variable {w : ℕ} {vals : List T} {init : T} {calls calls' : List (Call T)} {d : ℕ} {c : Call T}

/-- What holds of the call `c` at depth `d`: it was given `init`, and what it has computed so
far is part of its sum.  The call that it has made is the next in the chain, on the elements
before those that it sums itself. -/
def Fits (vals : List T) (init : T) (calls : List (Call T)) (d : ℕ) (c : Call T) : Prop :=
  c.init = init ∧ c.last ≤ vals.length ∧
    match c.pc with
    | .entry => d + 1 = calls.length
    | .whole loop => d + 1 = calls.length ∧ loop.last = c.last ∧ loop.Summed vals 0 init
    | .second loop => ∃ child, calls[d + 1]? = some child ∧ loop.last = c.last ∧
        loop.Summed vals child.last 0
    | .get second => ∃ child, calls[d + 1]? = some child ∧ child.last ≤ c.last ∧
        second = accumulate (Block.slice ⟨child.last, c.last⟩ vals) 0
    | .done r => r = accumulate (vals.take c.last) init
    | .fault => False

/-- The invariant. -/
def Invariant (vals : List T) (init : T) (calls : List (Call T)) : Prop :=
  (∃ c, calls[0]? = some c ∧ c.last = vals.length) ∧
    ∀ d c, calls[d]? = some c → Fits vals init calls d c

/-- The calls of the chain are there, on the same elements, further on perhaps. -/
def Extends (calls calls' : List (Call T)) : Prop :=
  ∀ (d : ℕ) (c : Call T), calls[d]? = some c → ∃ c' : Call T, calls'[d]? = some c' ∧
    c'.last = c.last

omit [AddMonoid T] in
theorem extends_set {pc : Pc T} (hc : calls[d]? = some c) :
    Extends calls (calls.set d { c with pc := pc }) := by
  intro i x hi
  obtain ⟨hlt, -⟩ := List.getElem?_eq_some_iff.mp hi
  by_cases hid : d = i
  · subst hid
    cases hc.symm.trans hi
    exact ⟨{ c with pc := pc }, List.getElem?_set_self hlt, rfl⟩
  · exact ⟨x, by rw [List.getElem?_set_ne hid]; exact hi, rfl⟩

omit [AddMonoid T] in
theorem extends_append (more : List (Call T)) : Extends calls (calls ++ more) := by
  intro i x hi
  obtain ⟨hlt, -⟩ := List.getElem?_eq_some_iff.mp hi
  exact ⟨x, by rw [List.getElem?_append_left hlt]; exact hi, rfl⟩

omit [AddMonoid T] in
theorem Extends.trans {calls'' : List (Call T)} (h : Extends calls calls')
    (h' : Extends calls' calls'') : Extends calls calls'' := by
  intro d c hc
  obtain ⟨c', hc', hlast⟩ := h d c hc
  obtain ⟨c'', hc'', hlast'⟩ := h' d c' hc'
  exact ⟨c'', hc'', hlast'.trans hlast⟩

/-- **Frame rule**: a call does not mind steps of the others, unless it is the last of the chain
and has not handed on its first half. -/
theorem Fits.congr (h : Fits vals init calls d c) (hext : Extends calls calls')
    (hlen : d + 1 = calls.length → d + 1 = calls'.length) : Fits vals init calls' d c := by
  obtain ⟨hinit, hlast, hpc⟩ := h
  refine ⟨hinit, hlast, ?_⟩
  cases hc : c.pc with
  | entry =>
    rw [hc] at hpc
    exact hlen hpc
  | whole loop =>
    rw [hc] at hpc
    obtain ⟨hd, hloop⟩ := hpc
    exact ⟨hlen hd, hloop⟩
  | second loop =>
    rw [hc] at hpc
    obtain ⟨child, hchild, hend, hsum⟩ := hpc
    obtain ⟨child', hchild', heq⟩ := hext _ _ hchild
    exact ⟨child', hchild', hend, heq ▸ hsum⟩
  | get second =>
    rw [hc] at hpc
    obtain ⟨child, hchild, hle, hsum⟩ := hpc
    obtain ⟨child', hchild', heq⟩ := hext _ _ hchild
    exact ⟨child', hchild', heq ▸ hle, heq ▸ hsum⟩
  | done r =>
    rw [hc] at hpc
    exact hpc
  | fault =>
    rw [hc] at hpc
    exact hpc

/-- One call moves to `pc`, where it fits. -/
theorem Invariant.set (h : Invariant vals init calls) (hc : calls[d]? = some c) {pc : Pc T}
    (hfits : Fits vals init calls d { c with pc := pc }) :
    Invariant vals init (calls.set d { c with pc := pc }) := by
  obtain ⟨⟨outer, houter, hlast⟩, hcalls⟩ := h
  have hext : Extends calls (calls.set d { c with pc := pc }) := extends_set hc
  have hlen : (calls.set d { c with pc := pc }).length = calls.length := List.length_set
  constructor
  · obtain ⟨outer', houter', heq⟩ := hext 0 outer houter
    exact ⟨outer', houter', heq.trans hlast⟩
  · intro i x hi
    rw [List.getElem?_set] at hi
    by_cases hid : d = i
    · rw [if_pos hid] at hi
      split at hi
      · cases hi
        exact hid ▸ hfits.congr hext fun heq => heq.trans hlen.symm
      · cases hi
    · rw [if_neg hid] at hi
      exact (hcalls i x hi).congr hext fun heq => heq.trans hlen.symm

/-- The last call of the chain hands on the elements before `midPoint`. -/
theorem Invariant.handOn (h : Invariant vals init calls) (hc : calls[d]? = some c)
    (hd : d + 1 = calls.length) {midPoint : ℕ} (hmid : midPoint ≤ c.last) (policy : Policy) :
    Invariant vals init (calls.set d { c with pc := .second ⟨midPoint, c.last, 0⟩ } ++
      [⟨midPoint, c.init, policy, .entry⟩]) := by
  obtain ⟨⟨outer, houter, hlast⟩, hcalls⟩ := h
  obtain ⟨hinit, hle, -⟩ := hcalls d c hc
  have hlen : (calls.set d { c with pc := .second ⟨midPoint, c.last, 0⟩ }).length =
    calls.length := List.length_set
  have hext : Extends calls (calls.set d { c with pc := .second ⟨midPoint, c.last, 0⟩ } ++
      [⟨midPoint, c.init, policy, .entry⟩]) := (extends_set hc).trans (extends_append _)
  constructor
  · obtain ⟨outer', houter', heq⟩ := hext 0 outer houter
    exact ⟨outer', houter', heq.trans hlast⟩
  · intro i x hi
    rcases Nat.lt_trichotomy i calls.length with hlt | rfl | hgt
    · rw [List.getElem?_append_left (hlen.symm ▸ hlt), List.getElem?_set] at hi
      by_cases hid : d = i
      · rw [if_pos hid] at hi
        split at hi
        · cases hi
          refine ⟨hinit, hle, ⟨midPoint, c.init, policy, .entry⟩, ?_, rfl,
            Loop.summed_start 0 hmid hle⟩
          rw [← hid, hd, ← hlen, List.getElem?_concat_length]
        · cases hi
      · rw [if_neg hid] at hi
        exact (hcalls i x hi).congr hext fun heq => absurd (hd.trans heq.symm) (by omega)
    · rw [← hlen, List.getElem?_concat_length] at hi
      cases hi
      exact ⟨hinit, Nat.le_trans hmid hle, by simp⟩
    · rw [List.getElem?_eq_none (by simp; omega)] at hi
      cases hi

/-- The two halves make up the whole. -/
theorem first_add_second {xs : List T} {mid last : ℕ} (hmid : mid ≤ last) :
    accumulate (xs.take mid) init + accumulate (Block.slice ⟨mid, last⟩ xs) 0 =
      accumulate (xs.take last) init := by
  have hsplit : xs.take last = xs.take mid ++ Block.slice ⟨mid, last⟩ xs := by
    conv_lhs => rw [← List.take_append_drop mid (xs.take last)]
    rw [List.take_take, Nat.min_eq_left hmid, Block.slice]
  rw [hsplit]
  simp only [accumulate]
  rw [List.foldl_append, ← foldl_add_start, add_zero]

/-- Where a step takes a call that makes no other call by it. -/
inductive Advance (vals : List T) (init : T) (calls : List (Call T)) (d : ℕ) (c : Call T) :
    Pc T → Prop where
  | begin (hpc : c.pc = .entry) (hd : d + 1 = calls.length) :
    Advance vals init calls d c (.whole ⟨0, c.last, c.init⟩)
  | whole {loop loop' : Loop T} (hpc : c.pc = .whole loop) (hd : d + 1 = calls.length)
    (hlast : loop'.last = c.last) (hsum : loop'.Summed vals 0 init)
    (hless : loop'.last - loop'.pos < loop.last - loop.pos) :
    Advance vals init calls d c (.whole loop')
  | wholeEnd {loop : Loop T} (hpc : c.pc = .whole loop) :
    Advance vals init calls d c (.done (accumulate (vals.take c.last) init))
  | second {loop loop' : Loop T} {child : Call T} (hpc : c.pc = .second loop)
    (hchild : calls[d + 1]? = some child) (hlast : loop'.last = c.last)
    (hsum : loop'.Summed vals child.last 0)
    (hless : loop'.last - loop'.pos < loop.last - loop.pos) :
    Advance vals init calls d c (.second loop')
  | secondEnd {loop : Loop T} {child : Call T} (hpc : c.pc = .second loop)
    (hchild : calls[d + 1]? = some child) (hle : child.last ≤ c.last) :
    Advance vals init calls d c
      (.get (accumulate (Block.slice ⟨child.last, c.last⟩ vals) 0))
  | ret {second : T} (hpc : c.pc = .get second) :
    Advance vals init calls d c (.done (accumulate (vals.take c.last) init))

/-- **What a step does**: one call moves on, or the last of the chain hands on its first half. -/
theorem Invariant.step_cases {l : Label} (h : Invariant vals init calls)
    (hstep : (parallelAccumulate w vals init).step calls l = some calls') :
    ∃ c, calls[l.call]? = some c ∧
      ((∃ pc, Advance vals init calls l.call c pc ∧
          calls' = calls.set l.call { c with pc := pc }) ∨
        c.pc = .entry ∧ l.call + 1 = calls.length ∧ maxChunkSize < c.last ∧
          ∃ midPoint, 2 * midPoint ≤ c.last ∧
            calls' = calls.set l.call { c with pc := .second ⟨midPoint, c.last, 0⟩ } ++
              [⟨midPoint, c.init, l.policy, .entry⟩]) := by
  simp only [parallelAccumulate] at hstep
  split at hstep
  · cases hstep
  rename_i c hc
  split at hstep
  swap
  · cases hstep
  refine ⟨c, hc, ?_⟩
  obtain ⟨hinit, hle, hpc⟩ := h.2 _ c hc
  rw [stepCall] at hstep
  cases hcpc : c.pc with
  | entry =>
    rw [hcpc] at hpc hstep
    -- the stored length may be smaller than the length, never larger
    have hlen : (BlockPartition.length w c.last).toNat ≤ c.last := by
      rw [BlockPartition.toNat_length]
      exact Nat.mod_le _ _
    simp only at hstep
    split at hstep
    · cases hstep
      exact Or.inl ⟨_, .begin hcpc hpc, rfl⟩
    · rw [if_neg (by omega)] at hstep
      cases hstep
      exact Or.inr ⟨rfl, hpc, by omega, _, by omega, rfl⟩
  | whole loop =>
    rw [hcpc] at hpc hstep
    obtain ⟨hd, hlast, hsum⟩ := hpc
    rcases hsum.step with ⟨loop', hnext, hsum', hlast', hlt, hpos⟩ | hnext
    · simp only [hnext] at hstep
      cases hstep
      exact Or.inl ⟨_, .whole hcpc hd (hlast'.trans hlast) hsum' (by omega), rfl⟩
    · simp only [hnext] at hstep
      cases hstep
      rw [hlast, show Block.slice ⟨0, c.last⟩ vals = vals.take c.last by
        rw [Block.slice, List.drop_zero]]
      exact Or.inl ⟨_, .wholeEnd hcpc, rfl⟩
  | second loop =>
    rw [hcpc] at hpc hstep
    obtain ⟨child, hchild, hlast, hsum⟩ := hpc
    rcases hsum.step with ⟨loop', hnext, hsum', hlast', hlt, hpos⟩ | hnext
    · simp only [hnext] at hstep
      cases hstep
      exact Or.inl ⟨_, .second hcpc hchild (hlast'.trans hlast) hsum' (by omega), rfl⟩
    · simp only [hnext] at hstep
      cases hstep
      rw [hlast]
      exact Or.inl ⟨_, .secondEnd hcpc hchild
        (hlast ▸ Nat.le_trans hsum.start_le hsum.le_last), rfl⟩
  | get second =>
    rw [hcpc] at hpc hstep
    obtain ⟨child, hchild, hmid, rfl⟩ := hpc
    obtain ⟨first, hfirst, rfl⟩ := Option.map_eq_some_iff.mp hstep
    obtain ⟨-, -, hcpc'⟩ := h.2 _ child hchild
    -- the result that `get` gives is that of the next call, on the elements before this half
    have hdone : child.pc = .done first := by
      simp only [result, hchild, Option.bind_some] at hfirst
      split at hfirst
      · cases hfirst
        assumption
      · cases hfirst
    rw [hdone] at hcpc'
    rw [show first = accumulate (vals.take child.last) init from hcpc', first_add_second hmid]
    exact Or.inl ⟨_, .ret hcpc, rfl⟩
  | done r =>
    rw [hcpc] at hstep
    cases hstep
  | fault =>
    rw [hcpc] at hstep
    cases hstep

theorem Advance.fits {pc : Pc T} (h : Advance vals init calls d c pc) (hinit : c.init = init)
    (hle : c.last ≤ vals.length) : Fits vals init calls d { c with pc := pc } := by
  refine ⟨hinit, hle, ?_⟩
  cases h with
  | begin hpc hd =>
    refine ⟨hd, rfl, ?_⟩
    rw [← hinit]
    exact Loop.summed_start c.init (Nat.zero_le _) hle
  | whole hpc hd hlast hsum => exact ⟨hd, hlast, hsum⟩
  | wholeEnd => exact rfl
  | second hpc hchild hlast hsum => exact ⟨_, hchild, hlast, hsum⟩
  | secondEnd hpc hchild hle => exact ⟨_, hchild, hle, rfl⟩
  | ret => exact rfl

/-- **Each step keeps the invariant.** -/
theorem Invariant.step {l : Label} (h : Invariant vals init calls)
    (hstep : (parallelAccumulate w vals init).step calls l = some calls') :
    Invariant vals init calls' := by
  obtain ⟨c, hc, ⟨pc, hadvance, rfl⟩ | ⟨hpc, hd, -, midPoint, hmid, rfl⟩⟩ := h.step_cases hstep
  · obtain ⟨hinit, hle, -⟩ := h.2 _ c hc
    exact h.set hc (hadvance.fits hinit hle)
  · exact h.handOn hc hd (by omega) l.policy

theorem invariant_init :
    Invariant vals init (parallelAccumulate w vals init).init := by
  constructor
  · exact ⟨_, rfl, rfl⟩
  · intro d c hc
    cases d with
    | zero =>
      cases hc
      exact ⟨rfl, Nat.le_refl _, rfl⟩
    | succ d => cases hc

/-! ## Termination -/

/-- The steps that a call has left at most, those of the calls that it makes included. -/
def Call.size (c : Call T) : ℕ :=
  match c.pc with
  | .entry => 4 * c.last + 4
  | .whole loop => loop.last - loop.pos + 1
  | .second loop => loop.last - loop.pos + 2
  | .get _ => 1
  | .done _ | .fault => 0

omit [AddMonoid T] in
theorem Call.size_eq {pc : Pc T} (hpc : c.pc = pc) : c.size = Call.size { c with pc := pc } := by
  rw [← hpc]

theorem Advance.size_lt {pc : Pc T} (h : Advance vals init calls d c pc) :
    Call.size { c with pc := pc } < c.size := by
  cases h with
  | begin hpc =>
    rw [Call.size_eq hpc]
    show c.last - 0 + 1 < 4 * c.last + 4
    omega
  | whole hpc hd hlast hsum hless =>
    rw [Call.size_eq hpc]
    exact Nat.succ_lt_succ hless
  | wholeEnd hpc =>
    rw [Call.size_eq hpc]
    exact Nat.succ_pos _
  | second hpc hchild hlast hsum hless =>
    rw [Call.size_eq hpc]
    exact Nat.add_lt_add_right hless 2
  | @secondEnd loop child hpc hchild hle =>
    rw [Call.size_eq hpc]
    show 1 < loop.last - loop.pos + 2
    omega
  | ret hpc =>
    rw [Call.size_eq hpc]
    exact Nat.one_pos

/-- **Each step leaves less to do.** -/
theorem size_step {l : Label} (h : Invariant vals init calls)
    (hstep : (parallelAccumulate w vals init).step calls l = some calls') :
    Machine.total Call.size calls' < Machine.total Call.size calls := by
  obtain ⟨c, hc, ⟨pc, hadvance, rfl⟩ | ⟨hpc, -, hlong, midPoint, hmid, rfl⟩⟩ := h.step_cases hstep
  · have hset := Machine.total_set Call.size hc { c with pc := pc }
    have hlt := hadvance.size_lt
    omega
  · -- what is left of this call and the new one are together less than the call was
    have hset := Machine.total_set Call.size hc { c with pc := .second ⟨midPoint, c.last, 0⟩ }
    rw [Call.size_eq hpc] at hset
    rw [Machine.total_append]
    simp only [Machine.total, Call.size, maxChunkSize] at hset hlong ⊢
    omega

/-- A call with a thread has ended, or it or one further on can take a step.  The induction is on
the number of calls further on: a call that waits gives its thread to the next. -/
theorem exists_step_of_hasThread (h : Invariant vals init calls) (hc : calls[d]? = some c)
    (hthread : hasThread calls d c = true) :
    (∃ r, c.pc = .done r) ∨
      ∃ l calls', (parallelAccumulate w vals init).step calls l = some calls' := by
  induction hn : calls.length - d generalizing d c with
  | zero =>
    obtain ⟨hlt, -⟩ := List.getElem?_eq_some_iff.mp hc
    omega
  | succ n ih =>
    obtain ⟨-, -, hpc⟩ := h.2 d c hc
    have hstep : (∃ calls', stepCall w vals calls d .async c = some calls') →
        ∃ l calls', (parallelAccumulate w vals init).step calls l = some calls' := by
      rintro ⟨calls', hs⟩
      refine ⟨⟨d, .async⟩, calls', ?_⟩
      simp only [parallelAccumulate, hc]
      rw [if_pos hthread]
      exact hs
    rw [stepCall] at hstep
    cases hcpc : c.pc with
    | entry =>
      right
      by_cases hshort : (BlockPartition.length w c.last).toNat ≤ maxChunkSize
      · exact hstep ⟨_, by rw [hcpc]; exact if_pos hshort⟩
      · have hlen : (BlockPartition.length w c.last).toNat ≤ c.last := by
          rw [BlockPartition.toNat_length]
          exact Nat.mod_le _ _
        exact hstep ⟨_, by rw [hcpc]; exact (if_neg hshort).trans (if_neg (by omega))⟩
    | whole loop =>
      right
      rw [hcpc] at hpc
      obtain ⟨-, -, hsum⟩ := hpc
      rcases hsum.step with ⟨loop', hnext, -⟩ | hnext
      · exact hstep (by simp only [hcpc, hnext]; exact ⟨_, rfl⟩)
      · exact hstep (by simp only [hcpc, hnext]; exact ⟨_, rfl⟩)
    | second loop =>
      right
      rw [hcpc] at hpc
      obtain ⟨child, -, -, hsum⟩ := hpc
      rcases hsum.step with ⟨loop', hnext, -⟩ | hnext
      · exact hstep (by simp only [hcpc, hnext]; exact ⟨_, rfl⟩)
      · exact hstep (by simp only [hcpc, hnext]; exact ⟨_, rfl⟩)
    | get second =>
      right
      rw [hcpc] at hpc
      obtain ⟨child, hchild, -, -⟩ := hpc
      have hgiven : hasThread calls (d + 1) child = true := by
        cases hpolicy : child.policy with
        | async => simp only [hasThread, hpolicy]
        | deferred => simp [hasThread, hpolicy, hc, Call.inGet, hcpc]
      rcases ih hchild hgiven (by omega) with ⟨first, hdone⟩ | hmove
      · have hresult : result calls (d + 1) = some first := by
          simp only [result, hchild, Option.bind_some, hdone]
        exact hstep (by simp only [hcpc, hresult, Option.map_some]; exact ⟨_, rfl⟩)
      · exact hmove
    | done r => exact Or.inl ⟨r, rfl⟩
    | fault =>
      rw [hcpc] at hpc
      exact hpc.elim

/-- **The recursive `parallel_accumulate` is `std::accumulate`**, however the asynchronous calls
are run.  No step has undefined behaviour; a call that ends, at any depth, returns the sum of its
own elements beginning with `init`, once; and the outermost call comes to an end. -/
theorem parallelAccumulateAsync_eq_accumulate (w : ℕ) (vals : List T) (init : T) :
    (∀ calls, (parallelAccumulate w vals init).Reachable calls →
      ∀ (d : ℕ) (c : Call T), calls[d]? = some c → c.pc ≠ .fault ∧
        ∀ r, c.pc = .done r → r = accumulate (vals.take c.last) init) ∧
      (parallelAccumulate w vals init).Terminates fun calls =>
        ∃ c, calls[0]? = some c ∧ c.pc = .done (accumulate vals init) := by
  constructor
  · intro calls hreach d c hc
    have hinv : Invariant vals init calls :=
      hreach.invariant invariant_init fun _ _ _ hinv hstep => hinv.step hstep
    obtain ⟨-, -, hpc⟩ := hinv.2 d c hc
    constructor
    · intro hfault
      rw [hfault] at hpc
      exact hpc
    · intro r hdone
      rw [hdone] at hpc
      exact hpc
  · apply Machine.terminates_of_decreasing (P := Invariant vals init) invariant_init
      (Machine.total Call.size)
    · intro calls l calls' hinv hstep
      exact ⟨hinv.step hstep, size_step hinv hstep⟩
    · intro calls hinv hnot
      obtain ⟨⟨c, hc, hlast⟩, hcalls⟩ := hinv
      have hthread : hasThread calls 0 c = true := by
        cases hpolicy : c.policy with
        | async => simp only [hasThread, hpolicy]
        | deferred => simp only [hasThread, hpolicy]
      rcases exists_step_of_hasThread (w := w) ⟨⟨c, hc, hlast⟩, hcalls⟩ hc hthread with
        ⟨r, hdone⟩ | hmove
      · obtain ⟨-, -, hpc⟩ := hcalls 0 c hc
        rw [hdone] at hpc
        refine absurd ⟨c, hc, ?_⟩ hnot
        rw [hdone, show r = accumulate (vals.take c.last) init from hpc, hlast, List.take_length]
      · exact hmove

end Sundries.ParallelAccumulateAsync
