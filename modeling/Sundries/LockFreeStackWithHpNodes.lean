import Sundries.LockFreeStackWithHp

/-!
# The nodes and records of `lock_free_stack_with_hp`

Each node address is free, or its node is being pushed, in one of the stacks,
unlinked by one pop, or retired, which is to say that one record is about it
(`Nodes`).  Each record address is free, or its record is in the list from
`nodes_to_reclaim`, in the chain one thread is walking, or being put into the
list by one thread (`Records`).  Both say what the steps do to the memory; who
may still look at a node is the business of the hazard pointers.
-/
namespace Sundries.LockFreeStackWithHp

variable {slots : Nat} {Sid Tid α : Type}

/-! ## What a thread has in hand -/

/-- The node the thread is pushing. -/
def Pc.pushes : Pc Sid α → Option Addr
  | .pushCas _ n => some n
  | _ => none

/-- The node the thread has unlinked, and neither deleted nor handed over. -/
def Pc.unlinks : Pc Sid α → Option Addr
  | .popClear old => old
  | .swapData old => some old
  | .scanOld f _ | .deleteOld f | .newRecord f => some f.oldHead
  | _ => none

/-- The record the thread is putting into the list. -/
def Pc.adds : Pc Sid α → Option Addr
  | .addLoad _ r _ | .addCas _ r _ => some r
  | _ => none

/-- The chain of records the thread is walking. -/
def Pc.chain : Pc Sid α → Option Addr
  | .walk _ current => current
  | .scanRecord _ r _ _ _ | .deleteRecord _ r _ _ => some r
  | .addLoad _ _ (.walk next) | .addCas _ _ (.walk next) => next
  | _ => none

/-- The record the thread has read, with what it has read. -/
def Pc.current : Pc Sid α → Option (Addr × DataToReclaim)
  | .scanRecord _ r next p _ | .deleteRecord _ r next p => some (r, ⟨p, next⟩)
  | _ => none

/-! ## Nodes -/

/-- The place of a node address. -/
inductive Place (Sid Tid : Type) where
  | free
  | pushing (t : Tid)
  | stacked (k : Sid)
  | unlinked (t : Tid)
  | retired (r : Addr)

/-- The places of the nodes, with the nodes of each stack. -/
structure Nodes (s : State slots Sid Tid α) (place : Addr → Place Sid Tid)
    (stk : Sid → List Addr) : Prop where
  stack : ∀ k, Segment (nextAt s.heap) (s.head k) (stk k) none
  stacked : ∀ x k, place x = .stacked k ↔ x ∈ stk k
  free : ∀ x, place x = .free ↔ s.heap x = none
  pushing : ∀ x t, place x = .pushing t ↔ (s.pc t).pushes = some x
  unlinked : ∀ x t, place x = .unlinked t ↔ (s.pc t).unlinks = some x
  retired : ∀ x r, place x = .retired r ↔ recordData s.records r = some x

section Nodes
variable {s s' : State slots Sid Tid α} {place : Addr → Place Sid Tid}
  {stk stk' : Sid → List Addr} {t : Tid} {p : Addr} {x : Pc Sid α}

namespace Nodes

/-- An address that is not free has a node. -/
theorem exists_node (h : Nodes s place stk) (hp : place p ≠ .free) : ∃ nd, s.heap p = some nd :=
  Option.ne_none_iff_exists'.mp fun hnone => hp ((h.free p).mpr hnone)

/-- The head of a stack is one of its nodes. -/
theorem stacked_of_head (h : Nodes s place stk) {k : Sid} (hp : s.head k = some p) :
    place p = .stacked k := by
  obtain ⟨l', hl⟩ := (hp ▸ h.stack k).exists_cons
  exact (h.stacked p k).mpr (hl ▸ List.mem_cons_self)

variable [DecidableEq Tid]

/-- A thread moves and leaves the nodes alone. -/
theorem move (h : Nodes s place stk) (hpc : s'.pc = Function.update s.pc t x)
    (hheap : s'.heap = s.heap) (hhead : s'.head = s.head)
    (hdata : ∀ r, recordData s'.records r = recordData s.records r)
    (hpushes : x.pushes = (s.pc t).pushes) (hunlinks : x.unlinks = (s.pc t).unlinks) :
    Nodes s' place stk where
  stack k := by rw [hheap, hhead]; exact h.stack k
  stacked := h.stacked
  free y := by rw [hheap]; exact h.free y
  pushing y u := by
    rw [hpc]
    by_cases hut : u = t
    · subst u
      simpa [hpushes] using h.pushing y t
    · simpa [hut] using h.pushing y u
  unlinked y u := by
    rw [hpc]
    by_cases hut : u = t
    · subst u
      simpa [hunlinks] using h.unlinked y t
    · simpa [hut] using h.unlinked y u
  retired y r := by rw [hdata]; exact h.retired y r

/-- A thread moves and changes the node at `p`, which it pushes or has unlinked. -/
theorem write (h : Nodes s place stk) (hpc : s'.pc = Function.update s.pc t x) {nd : Node α}
    (hheap : s'.heap = Function.update s.heap p (some nd)) (hhead : s'.head = s.head)
    (hrecords : s'.records = s.records) (hp : place p = .pushing t ∨ place p = .unlinked t)
    (hpushes : x.pushes = (s.pc t).pushes) (hunlinks : x.unlinks = (s.pc t).unlinks) :
    Nodes s' place stk := by
  have hmove : Nodes { s with pc := s'.pc } place stk :=
    h.move (t := t) hpc rfl rfl (fun _ => rfl) hpushes hunlinks
  refine ⟨fun k => ?_, h.stacked, fun y => ?_, hmove.pushing, hmove.unlinked, ?_⟩
  · rw [hhead, hheap]
    refine (h.stack k).congr fun y hy => ?_
    have hyp : y ≠ p := by
      rintro rfl
      have := (h.stacked y k).mpr hy
      rcases hp with hp | hp <;> rw [hp] at this <;> cases this
    simp [nextAt, hyp]
  · rw [hheap]
    by_cases hy : y = p
    · subst y
      rcases hp with hp | hp <;> simp [hp]
    · simpa [hy] using h.free y
  · rw [hrecords]
    exact h.retired

/-- The place of one node changes from one that has to do with no other thread to
another such. -/
theorem change (h : Nodes s place stk) {pl : Place Sid Tid} (node : Option (Node α))
    (hpc : s'.pc = Function.update s.pc t x) (hheap : s'.heap = Function.update s.heap p node)
    (hold : ∀ u, u ≠ t → place p ≠ .pushing u ∧ place p ≠ .unlinked u)
    (hnew : ∀ u, u ≠ t → pl ≠ .pushing u ∧ pl ≠ .unlinked u)
    (hstack : ∀ k, Segment (nextAt s'.heap) (s'.head k) (stk' k) none)
    (hstacked : ∀ y k, Function.update place p pl y = .stacked k ↔ y ∈ stk' k)
    (hfree : pl = .free ↔ node = none)
    (hpushing : pl = .pushing t ↔ x.pushes = some p)
    (hpushes : ∀ y, y ≠ p → (x.pushes = some y ↔ (s.pc t).pushes = some y))
    (hunlinked : pl = .unlinked t ↔ x.unlinks = some p)
    (hunlinks : ∀ y, y ≠ p → (x.unlinks = some y ↔ (s.pc t).unlinks = some y))
    (hretired : ∀ y r, Function.update place p pl y = .retired r ↔
      recordData s'.records r = some y) :
    Nodes s' (Function.update place p pl) stk' where
  stack := hstack
  stacked := hstacked
  free y := by
    rw [hheap]
    by_cases hy : y = p
    · subst y
      simpa using hfree
    · simpa [hy] using h.free y
  pushing y u := by
    rw [hpc]
    by_cases hut : u = t
    · subst u
      by_cases hy : y = p
      · subst y
        simpa using hpushing
      · simpa [hy, hpushes y hy] using h.pushing y t
    · by_cases hy : y = p
      · subst y
        simpa [hut, (hnew u hut).1] using fun hu => (hold u hut).1 ((h.pushing p u).mpr hu)
      · simpa [hy, hut] using h.pushing y u
  unlinked y u := by
    rw [hpc]
    by_cases hut : u = t
    · subst u
      by_cases hy : y = p
      · subst y
        simpa using hunlinked
      · simpa [hy, hunlinks y hy] using h.unlinked y t
    · by_cases hy : y = p
      · subst y
        simpa [hut, (hnew u hut).2] using fun hu => (hold u hut).2 ((h.unlinked p u).mpr hu)
      · simpa [hy, hut] using h.unlinked y u
  retired := hretired

omit [DecidableEq Tid] in
theorem retired_update (h : Nodes s place stk) {pl : Place Sid Tid}
    (hp : ∀ r, place p ≠ .retired r) (hpl : ∀ r, pl ≠ .retired r) (y r : Addr) :
    Function.update place p pl y = .retired r ↔ recordData s.records r = some y := by
  by_cases hy : y = p
  · subst y
    simpa [hpl r, hp r] using h.retired p r
  · simpa [hy] using h.retired y r

/-- A new node is made. -/
theorem push (h : Nodes s place stk) {k : Sid} {v : α} (hpc : s.pc t = .idle)
    (hfree : s.heap p = none) : Nodes (s.push t k v p) (Function.update place p (.pushing t)) stk := by
  have hplace : place p = .free := (h.free p).mpr hfree
  have hne : ∀ k', ∀ y ∈ stk k', y ≠ p := fun k' y hy he => by
    have := (h.stacked y k').mpr hy
    rw [he, hplace] at this
    cases this
  refine h.change (t := t) (x := .pushCas k p) _ rfl rfl (by simp [hplace])
    (by simp +contextual [eq_comm]) (fun k' => (h.stack k').congr fun y hy => ?_) (fun y k' => ?_)
    (by simp) (by simp [Pc.pushes]) (fun y hy => by simp [hpc, Pc.pushes, Ne.symm hy])
    (by simp [Pc.unlinks]) (by simp [hpc, Pc.unlinks])
    (h.retired_update (by simp [hplace]) (by simp))
  · simp [State.push, nextAt, hne k' y hy]
  · by_cases hy : y = p
    · subst y
      simpa [hplace] using h.stacked p k'
    · simpa [hy] using h.stacked y k'

omit [DecidableEq Tid] in
/-- The first node of a stack, or the one put on top, comes or goes. -/
theorem stacked_update [DecidableEq Sid] (h : Nodes s place stk) {k : Sid} {pl : Place Sid Tid}
    {l : List Addr} (hother : ∀ k', k' ≠ k → place p ≠ .stacked k' ∧ pl ≠ .stacked k')
    (hp : pl = .stacked k ↔ p ∈ l) (hl : ∀ y, y ≠ p → (y ∈ l ↔ y ∈ stk k)) (y : Addr) (k' : Sid) :
    Function.update place p pl y = .stacked k' ↔ y ∈ Function.update stk k l k' := by
  by_cases hk : k' = k
  · subst k'
    by_cases hy : y = p
    · subst y
      simpa using hp
    · simpa [hy, hl y hy] using h.stacked y k
  · by_cases hy : y = p
    · subst y
      simpa [hk, (hother k' hk).2] using fun hmem => (hother k' hk).1 ((h.stacked p k').mpr hmem)
    · simpa [hy, hk] using h.stacked y k'

/-- The exchange of `push` succeeds. -/
theorem publish [DecidableEq Sid] (h : Nodes s place stk) {k : Sid} (hpc : s.pc t = .pushCas k p)
    (hnext : nextAt s.heap p = s.head k) :
    Nodes ({ s with head := Function.update s.head k (some p) }.goto t .idle)
      (Function.update place p (.stacked k)) (Function.update stk k (p :: stk k)) := by
  have hplace : place p = .pushing t := (h.pushing p t).mpr (by simp [hpc, Pc.pushes])
  obtain ⟨nd, hnd⟩ := h.exists_node (p := p) (by simp [hplace])
  refine h.change (t := t) (x := .idle) (s.heap p) rfl (Function.update_eq_self ..).symm
    (by simp +contextual [hplace, eq_comm]) (by simp) (fun k' => ?_)
    (h.stacked_update (k := k) (by simp +contextual [hplace, eq_comm]) (by simp)
      (fun y hy => by simp [hy]))
    (by simp [hnd]) (by simp [Pc.pushes]) (fun y hy => by simp [hpc, Pc.pushes, Ne.symm hy])
    (by simp [Pc.unlinks]) (by simp [hpc, Pc.unlinks])
    (h.retired_update (by simp [hplace]) (by simp))
  by_cases hk : k' = k
  · subst k'
    simpa [hnext] using h.stack k
  · simpa [hk] using h.stack k'

/-- The exchange of `pop` succeeds. -/
theorem unlink [DecidableEq Sid] (h : Nodes s place stk) {k : Sid} {next : Option Addr}
    (hpc : s.pc t = .popCas k p next) (hhead : s.head k = some p)
    (hnext : nextAt s.heap p = next) :
    ∃ l', Nodes ({ s with head := Function.update s.head k next }.goto t (.popClear (some p)))
      (Function.update place p (.unlinked t)) (Function.update stk k l') := by
  have hplace : place p = .stacked k := h.stacked_of_head hhead
  obtain ⟨nd, hnd⟩ := h.exists_node (p := p) (by simp [hplace])
  obtain ⟨l', hl⟩ := (hhead ▸ h.stack k).exists_cons
  have hchain : Segment (nextAt s.heap) (some p) (p :: l') none := hl ▸ hhead ▸ h.stack k
  have hpl : p ∉ l' := (List.nodup_cons.mp hchain.nodup).1
  refine ⟨l', h.change (t := t) (x := .popClear (some p)) (s.heap p) rfl
    (Function.update_eq_self ..).symm (by simp [hplace]) (by simp +contextual [eq_comm])
    (fun k' => ?_)
    (h.stacked_update (k := k) (by simp +contextual [hplace, eq_comm]) (by simp [hpl])
      (fun y hy => by simp [hl, hy]))
    (by simp [hnd]) (by simp [Pc.pushes]) (by simp [hpc, Pc.pushes]) (by simp [Pc.unlinks])
    (fun y hy => by simp [hpc, Pc.unlinks, Ne.symm hy])
    (h.retired_update (by simp [hplace]) (by simp))⟩
  by_cases hk : k' = k
  · subst k'
    simpa [hnext] using hchain.2
  · simpa [hk] using h.stack k'

/-- A node that is in no stack is deleted, or handed to `reclaim_later`. -/
theorem retire (h : Nodes s place stk) (pl : Place Sid Tid) (node : Option (Node α))
    (hp : place p = .unlinked t ∨ ∃ r, place p = .retired r)
    (hpl : pl = .free ∨ ∃ r, pl = .retired r) (hpc : s'.pc = Function.update s.pc t x)
    (hheap : s'.heap = Function.update s.heap p node) (hhead : s'.head = s.head)
    (hfree : pl = .free ↔ node = none) (hpushes : x.pushes = (s.pc t).pushes)
    (hunlinks : x.unlinks = none) (hown : ∀ y, (s.pc t).unlinks = some y → y = p)
    (hretired : ∀ y r, Function.update place p pl y = .retired r ↔
      recordData s'.records r = some y) :
    Nodes s' (Function.update place p pl) stk := by
  have hunstacked : ∀ k, place p ≠ .stacked k := by
    rcases hp with hp | ⟨r, hp⟩ <;> simp [hp]
  have hne : ∀ k, ∀ y ∈ stk k, y ≠ p := fun k y hy he =>
    hunstacked k (he ▸ (h.stacked y k).mpr hy)
  have hnopush : (s.pc t).pushes ≠ some p := fun hpush => by
    have := (h.pushing p t).mpr hpush
    rcases hp with hp | ⟨r, hp⟩ <;> rw [hp] at this <;> cases this
  refine h.change (t := t) node hpc hheap (fun u hut => ?_) (fun u hut => ?_) (fun k => ?_)
    (fun y k => ?_) hfree ?_ (fun y _ => by rw [hpushes]) ?_ (fun y hy => ?_) hretired
  · rcases hp with hp | ⟨r, hp⟩ <;> simp [hp, Ne.symm hut]
  · rcases hpl with rfl | ⟨r, rfl⟩ <;> simp
  · rw [hhead, hheap]
    exact (h.stack k).congr fun y hy => by simp [nextAt, hne k y hy]
  · by_cases hy : y = p
    · subst y
      have hnot : p ∉ stk k := fun hmem => hne k p hmem rfl
      rcases hpl with rfl | ⟨r, rfl⟩ <;> simp [hnot]
    · simpa [hy] using h.stacked y k
  · rw [hpushes]
    rcases hpl with rfl | ⟨r, rfl⟩ <;> simpa using hnopush
  · rw [hunlinks]
    rcases hpl with rfl | ⟨r, rfl⟩ <;> simp
  · rw [hunlinks]
    simpa using fun hu => hy (hown y hu)

end Nodes
end Nodes

/-! ## Records -/

/-- The place of a record address. -/
inductive RecordPlace (Tid : Type) where
  | free
  | listed
  | walked (t : Tid)
  | adding (t : Tid)

/-- The places of the records, with the list from `nodes_to_reclaim` and the
threads' chains. -/
structure Records (s : State slots Sid Tid α) (rplace : Addr → RecordPlace Tid)
    (listed : List Addr) (walked : Tid → List Addr) : Prop where
  free : ∀ r, rplace r = .free ↔ s.records r = none
  list : Segment (recordNext s.records) s.nodesToReclaim listed none
  listed_iff : ∀ r, rplace r = .listed ↔ r ∈ listed
  chain : ∀ t, Segment (recordNext s.records) (s.pc t).chain (walked t) none
  walked_iff : ∀ r t, rplace r = .walked t ↔ r ∈ walked t
  adding : ∀ r t, rplace r = .adding t ↔ (s.pc t).adds = some r
  current : ∀ t r rec, (s.pc t).current = some (r, rec) → s.records r = some rec

section Records
variable {s s' : State slots Sid Tid α} {rplace rplace' : Addr → RecordPlace Tid}
  {listed listed' : List Addr} {walked walked' : Tid → List Addr} {t : Tid} {r : Addr}
  {x : Pc Sid α}

namespace Records

theorem exists_record (h : Records s rplace listed walked) (hr : rplace r ≠ .free) :
    ∃ rec, s.records r = some rec :=
  Option.ne_none_iff_exists'.mp fun hnone => hr ((h.free r).mpr hnone)

/-- The record a thread has read is the first of its chain. -/
theorem walked_of_current (h : Records s rplace listed walked) {rec : DataToReclaim}
    (hc : (s.pc t).current = some (r, rec)) : rplace r = .walked t := by
  have hchain : (s.pc t).chain = some r := by
    cases hpc : s.pc t <;> rw [hpc] at hc <;> cases hc <;> rfl
  obtain ⟨l', hl⟩ := (hchain ▸ h.chain t).exists_cons
  exact (h.walked_iff r t).mpr (hl ▸ List.mem_cons_self)

variable [DecidableEq Tid]

/-- A step of thread `t`: what it has to show about the records.  Records in the
chains of other threads, or being added by them, are left alone. -/
theorem change (h : Records s rplace listed walked) (chain : List Addr)
    (hpc : s'.pc = Function.update s.pc t x)
    (hothers : ∀ y u, u ≠ t → (rplace' y = .walked u ↔ rplace y = .walked u) ∧
      (rplace' y = .adding u ↔ rplace y = .adding u))
    (hsame : ∀ y u, u ≠ t → rplace y = .walked u → s'.records y = s.records y)
    (hfree : ∀ y, rplace' y = .free ↔ s'.records y = none)
    (hlist : Segment (recordNext s'.records) s'.nodesToReclaim listed' none)
    (hlisted : ∀ y, rplace' y = .listed ↔ y ∈ listed')
    (hchain : Segment (recordNext s'.records) x.chain chain none)
    (hwalked : ∀ y, rplace' y = .walked t ↔ y ∈ chain)
    (hadding : ∀ y, rplace' y = .adding t ↔ x.adds = some y)
    (hcurrent : ∀ y rec, x.current = some (y, rec) → s'.records y = some rec) :
    Records s' rplace' listed' (Function.update walked t chain) where
  free := hfree
  list := hlist
  listed_iff := hlisted
  chain u := by
    rw [hpc]
    by_cases hut : u = t
    · subst u
      simpa using hchain
    · rw [Function.update_of_ne hut, Function.update_of_ne hut]
      refine (h.chain u).congr fun y hy => ?_
      simp [recordNext, hsame y u hut ((h.walked_iff y u).mpr hy)]
  walked_iff y u := by
    by_cases hut : u = t
    · subst u
      simpa using hwalked y
    · rw [Function.update_of_ne hut]
      exact (hothers y u hut).1.trans (h.walked_iff y u)
  adding y u := by
    rw [hpc]
    by_cases hut : u = t
    · subst u
      simpa using hadding y
    · rw [Function.update_of_ne hut]
      exact (hothers y u hut).2.trans (h.adding y u)
  current u y rec hu := by
    rw [hpc] at hu
    by_cases hut : u = t
    · subst u
      exact hcurrent y rec (by simpa using hu)
    · rw [Function.update_of_ne hut] at hu
      rw [hsame y u hut (h.walked_of_current hu)]
      exact h.current u y rec hu

/-- A thread moves and leaves the records alone. -/
theorem move (h : Records s rplace listed walked) (hpc : s'.pc = Function.update s.pc t x)
    (hrecords : s'.records = s.records) (hlist : s'.nodesToReclaim = s.nodesToReclaim)
    (hchain : x.chain = (s.pc t).chain) (hadds : x.adds = (s.pc t).adds)
    (hcurrent : ∀ y rec, x.current = some (y, rec) → s.records y = some rec) :
    Records s' rplace listed walked := by
  have hself : Function.update walked t (walked t) = walked := Function.update_eq_self ..
  rw [← hself]
  exact h.change (walked t) hpc (fun _ _ _ => ⟨Iff.rfl, Iff.rfl⟩) (fun y _ _ _ => by rw [hrecords])
    (fun y => by rw [hrecords]; exact h.free y) (by rw [hrecords, hlist]; exact h.list) h.listed_iff
    (by rw [hrecords, hchain]; exact h.chain t) (fun y => h.walked_iff y t)
    (fun y => by rw [hadds]; exact h.adding y t)
    (fun y rec hy => by rw [hrecords]; exact hcurrent y rec hy)

/-- A thread makes a record, or goes on with its chain, its own record being
elsewhere before and after. -/
theorem changeOne (h : Records s rplace listed walked) {pl : RecordPlace Tid}
    (record : Option DataToReclaim) (chain : List Addr)
    (hpc : s'.pc = Function.update s.pc t x)
    (hrecords : s'.records = Function.update s.records r record)
    (hold : ∀ u, u ≠ t → rplace r ≠ .walked u ∧ rplace r ≠ .adding u)
    (hnew : ∀ u, u ≠ t → pl ≠ .walked u ∧ pl ≠ .adding u)
    (hfree : pl = .free ↔ record = none)
    (hlist : Segment (recordNext s'.records) s'.nodesToReclaim listed' none)
    (hlisted : ∀ y, Function.update rplace r pl y = .listed ↔ y ∈ listed')
    (hchain : Segment (recordNext s'.records) x.chain chain none)
    (hwalked : ∀ y, Function.update rplace r pl y = .walked t ↔ y ∈ chain)
    (hadding : ∀ y, Function.update rplace r pl y = .adding t ↔ x.adds = some y)
    (hcurrent : x.current = none) :
    Records s' (Function.update rplace r pl) listed' (Function.update walked t chain) := by
  refine h.change chain hpc (fun y u hut => ?_) (fun y u hut hy => ?_) (fun y => ?_) hlist hlisted
    hchain hwalked hadding (by simp [hcurrent])
  · by_cases hy : y = r
    · subst y
      simp [hold u hut, hnew u hut]
    · simp [hy]
  · have hyr : y ≠ r := fun he => (hold u hut).1 (he ▸ hy)
    rw [hrecords, Function.update_of_ne hyr]
  · rw [hrecords]
    by_cases hy : y = r
    · subst y
      simpa using hfree
    · simpa [hy] using h.free y

/-- `reclaim_later` makes a record. -/
theorem newRecord (h : Records s rplace listed walked) {f : Frame α}
    (hpc : s.pc t = .newRecord f) (hfree : s.records r = none) :
    ∃ walked', Records (s.newRecord t f r) (Function.update rplace r (.adding t)) listed walked' := by
  have hplace : rplace r = .free := (h.free r).mpr hfree
  have hne : ∀ y, rplace y ≠ .free → y ≠ r := fun y hy he => hy (he ▸ hplace)
  have hnext : ∀ y, y ≠ r →
      recordNext (s.newRecord t f r).records y = recordNext s.records y := fun y hy => by
    simp [State.newRecord, State.goto, recordNext, hy]
  have hnone : walked t = [] := by
    have := h.chain t
    rw [hpc] at this
    exact this.eq_nil
  refine ⟨_, h.changeOne (t := t) (x := .addLoad f r .exchange) _ [] rfl rfl
    (by simp [hplace]) (by simp +contextual [eq_comm]) (by simp)
    (h.list.congr fun y hy => hnext y (hne y (by simp [(h.listed_iff y).mpr hy]))) (fun y => ?_) rfl
    (fun y => ?_) (fun y => ?_) rfl⟩
  · by_cases hy : y = r
    · subst y
      simpa [hplace] using h.listed_iff r
    · simpa [hy] using h.listed_iff y
  · by_cases hy : y = r
    · subst y
      simp
    · simpa [hy, hnone] using h.walked_iff y t
  · by_cases hy : y = r
    · subst y
      simp [Pc.adds]
    · simpa [hy, Ne.symm hy, hpc, Pc.adds] using h.adding y t

/-- The record being added gets its `next`. -/
theorem addLoad (h : Records s rplace listed walked) {f : Frame α} {k : After}
    (hpc : s.pc t = .addLoad f r k ∨ s.pc t = .addCas f r k) {rec : DataToReclaim}
    (hrec : s.records r = some rec) :
    Records (s.addLoad t f r k) rplace listed walked := by
  have hplace : rplace r = .adding t :=
    (h.adding r t).mpr (by rcases hpc with hpc | hpc <;> simp [hpc, Pc.adds])
  have hself : Function.update rplace r (.adding t) = rplace := by
    rw [← hplace, Function.update_eq_self]
  have hself' : Function.update walked t (walked t) = walked := Function.update_eq_self ..
  have hnext : ∀ y, rplace y ≠ .adding t →
      recordNext (Function.update s.records r (some { rec with next := s.nodesToReclaim })) y =
        recordNext s.records y := fun y hy => by
    have hyr : y ≠ r := fun he => hy (he ▸ hplace)
    simp [recordNext, hyr]
  rw [State.addLoad, State.accessRecord, hrec, ← hself, ← hself']
  refine h.changeOne (t := t) (x := .addCas f r k) _ _ rfl rfl (by simp +contextual [hplace, eq_comm])
    (by simp +contextual [eq_comm]) (by simp)
    (h.list.congr fun y hy => hnext y (by simp [(h.listed_iff y).mpr hy])) (fun y => ?_) ?_
    (fun y => ?_) (fun y => ?_) rfl
  · rw [hself]
    exact h.listed_iff y
  · have hchain : (Pc.addCas f r k : Pc Sid α).chain = (s.pc t).chain := by
      rcases hpc with hpc | hpc
      · rw [hpc]
        cases k <;> rfl
      · rw [hpc]
    rw [hchain]
    exact (h.chain t).congr fun y hy => hnext y (by simp [(h.walked_iff y t).mpr hy])
  · rw [hself]
    exact h.walked_iff y t
  · rw [hself, h.adding y t]
    rcases hpc with hpc | hpc <;> simp [hpc, Pc.adds]

/-- The exchange of `nodes_to_reclaim` puts the record in front of the list. -/
theorem add (h : Records s rplace listed walked) {f : Frame α} {k : After}
    (hpc : s.pc t = .addCas f r k) (hnext : recordNext s.records r = s.nodesToReclaim) :
    Records ({ s with nodesToReclaim := some r }.goto t (Pc.after f k))
      (Function.update rplace r .listed) (r :: listed) walked := by
  have hplace : rplace r = .adding t := (h.adding r t).mpr (by simp [hpc, Pc.adds])
  obtain ⟨rec, hrec⟩ := h.exists_record (r := r) (by simp [hplace])
  have hself : Function.update walked t (walked t) = walked := Function.update_eq_self ..
  rw [← hself]
  refine h.changeOne (t := t) (x := Pc.after f k) (s.records r) _ rfl
    (Function.update_eq_self ..).symm (by simp +contextual [hplace, eq_comm]) (by simp)
    (by simp [hrec]) ⟨rfl, hnext ▸ h.list⟩ (fun y => ?_) ?_ (fun y => ?_) (fun y => ?_) ?_
  · by_cases hy : y = r
    · subst y
      simp
    · simpa [hy] using h.listed_iff y
  · have hchain : (Pc.after f k : Pc Sid α).chain = (s.pc t).chain := by
      rw [hpc]
      cases k <;> rfl
    rw [hchain]
    exact h.chain t
  · by_cases hy : y = r
    · subst y
      simpa [hplace] using h.walked_iff r t
    · simpa [hy] using h.walked_iff y t
  · have hnone : (Pc.after f k : Pc Sid α).adds = none := by cases k <;> rfl
    by_cases hy : y = r
    · subst y
      simp [hnone]
    · rw [hnone]
      simpa [hy, Ne.symm hy, hpc, Pc.adds] using h.adding y t
  · cases k <;> rfl

/-- The whole list becomes the thread's chain. -/
theorem exchange (h : Records s rplace listed walked) {f : Frame α}
    (hpc : s.pc t = .exchange f) :
    ∃ walked', Records ({ s with nodesToReclaim := none }.goto t (.walk f s.nodesToReclaim))
      (fun y => if y ∈ listed then .walked t else rplace y) [] walked' := by
  have hnone : walked t = [] := by
    have := h.chain t
    rw [hpc] at this
    exact this.eq_nil
  refine ⟨_, h.change (t := t) (x := .walk f s.nodesToReclaim) listed rfl
    (fun y u hut => ?_) (fun _ _ _ _ => rfl) (fun y => ?_) rfl (fun y => ?_) h.list (fun y => ?_)
    (fun y => ?_) (by simp [Pc.current])⟩
  · by_cases hy : y ∈ listed
    · simp [hy, (h.listed_iff y).mpr hy, Ne.symm hut]
    · simp [hy]
  · by_cases hy : y ∈ listed
    · simpa [hy, (h.listed_iff y).mpr hy, State.goto] using h.free y
    · simpa [hy, State.goto] using h.free y
  · by_cases hy : y ∈ listed
    · simp [hy]
    · simpa [hy] using h.listed_iff y
  · by_cases hy : y ∈ listed
    · simp [hy]
    · simpa [hy, hnone] using h.walked_iff y t
  · by_cases hy : y ∈ listed
    · simp [hy, Pc.adds]
    · simpa [hy, hpc, Pc.adds] using h.adding y t

omit [DecidableEq Tid] in
/-- The chain of a thread that has read its first record. -/
theorem chain_of_current (h : Records s rplace listed walked) {next : Option Addr} {p : Addr}
    (hchain : (s.pc t).chain = some r) (hcur : (s.pc t).current = some (r, ⟨p, next⟩)) :
    ∃ l, walked t = r :: l ∧ r ∉ l ∧ Segment (recordNext s.records) next l none := by
  have hseg := hchain ▸ h.chain t
  obtain ⟨l, hl⟩ := hseg.exists_cons
  rw [hl] at hseg
  have hnext : recordNext s.records r = next := by simp [recordNext, h.current t r _ hcur]
  exact ⟨l, hl, (List.nodup_cons.mp hseg.nodup).1, hnext ▸ hseg.2⟩

/-- The record is put back: it leaves the chain. -/
theorem putBack (h : Records s rplace listed walked) {f : Frame α}
    {next : Option Addr} {p : Addr} {i : Nat} (hpc : s.pc t = .scanRecord f r next p i) :
    ∃ walked', Records (s.goto t (.addLoad f r (.walk next)))
      (Function.update rplace r (.adding t)) listed walked' := by
  have hcur : (s.pc t).current = some (r, ⟨p, next⟩) := by rw [hpc]; rfl
  have hplace := h.walked_of_current hcur
  obtain ⟨l, hl, hrl, hseg⟩ := h.chain_of_current (by rw [hpc]; rfl) hcur
  refine ⟨_, h.changeOne (t := t) (s.records r) l rfl
    (Function.update_eq_self ..).symm (by simp +contextual [hplace, eq_comm])
    (by simp +contextual [eq_comm]) (by simp [h.current t r _ hcur]) h.list (fun y => ?_) hseg
    (fun y => ?_) (fun y => ?_) rfl⟩
  · by_cases hy : y = r
    · subst y
      simpa [hplace] using h.listed_iff r
    · simpa [hy] using h.listed_iff y
  · by_cases hy : y = r
    · subst y
      simpa using hrl
    · simpa [hy, hl] using h.walked_iff y t
  · by_cases hy : y = r
    · subst y
      simp [Pc.adds]
    · simpa [hy, Ne.symm hy, hpc, Pc.adds] using h.adding y t

/-- The record is deleted: it leaves the chain. -/
theorem deleteRecord (h : Records s rplace listed walked) {f : Frame α} {next : Option Addr}
    {p : Addr} (hpc : s.pc t = .deleteRecord f r next p)
    (hpc' : s'.pc = Function.update s.pc t (.walk f next))
    (hrecords : s'.records = Function.update s.records r none)
    (hlist : s'.nodesToReclaim = s.nodesToReclaim) :
    ∃ walked', Records s' (Function.update rplace r .free) listed walked' := by
  have hcur : (s.pc t).current = some (r, ⟨p, next⟩) := by rw [hpc]; rfl
  have hplace := h.walked_of_current hcur
  obtain ⟨l, hl, hrl, hseg⟩ := h.chain_of_current (by rw [hpc]; rfl) hcur
  have hnext : ∀ y, y ≠ r → recordNext s'.records y = recordNext s.records y := fun y hy => by
    simp [hrecords, recordNext, hy]
  refine ⟨_, h.changeOne (t := t) none l hpc' hrecords
    (by simp +contextual [hplace, eq_comm]) (by simp) (by simp) ?_ (fun y => ?_)
    (hseg.congr fun y hy => hnext y fun he => hrl (he ▸ hy)) (fun y => ?_) (fun y => ?_) rfl⟩
  · rw [hlist]
    refine h.list.congr fun y hy => hnext y ?_
    rintro rfl
    have := (h.listed_iff y).mpr hy
    rw [hplace] at this
    cases this
  · by_cases hy : y = r
    · subst y
      simpa [hplace] using h.listed_iff r
    · simpa [hy] using h.listed_iff y
  · by_cases hy : y = r
    · subst y
      simpa using hrl
    · simpa [hy, hl] using h.walked_iff y t
  · by_cases hy : y = r
    · subst y
      simp [Pc.adds]
    · simpa [hy, hpc, Pc.adds] using h.adding y t

end Records
end Records
end Sundries.LockFreeStackWithHp
