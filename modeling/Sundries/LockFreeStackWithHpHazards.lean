import Sundries.LockFreeStackWithHpNodes

/-!
# Hazard pointers of `lock_free_stack_with_hp`

A pop that has found `_head` unchanged after publishing the node in its hazard
pointer holds the node: at that moment the node was in the stack, so whoever
unlinks it does so later and scans the hazard pointers later still.  A scan that
has come to slot `i` knows that the slots before `i` hold no claim on its node:
the pointer was different when it was read, and nobody can come to hold a node
that is no longer in a stack (`Hazards.scanned`).  A scan that has seen all slots
may delete its node.

The two other dangers are covered by the same invariant: as long as a pop holds
a node its address is not free, so it cannot come back as another node's, and
the exchange of `_head` unlinks the very node whose `next` was read.
-/
namespace Sundries.LockFreeStackWithHp

variable {slots : Nat} {Sid Tid α : Type}

/-! ## Holding and scanning -/

/-- The node the thread has found in `_head` after publishing it. -/
def Pc.holds : Pc Sid α → Option Addr
  | .popReadNext _ old | .popCas _ old _ => some old
  | _ => none

/-- What the thread's hazard pointer shows, while that matters. -/
def Pc.publishes : Pc Sid α → Option (Option Addr)
  | .popCheck _ temp => some temp
  | .popReadNext _ old | .popCas _ old _ => some (some old)
  | _ => none

/-- The thread uses its hazard pointer. -/
def Pc.needsSlot : Pc Sid α → Bool
  | .popLoad _ | .popStore _ _ | .popCheck _ _ | .popReadNext _ _ | .popCas _ _ _ | .popClear _
  | .release => true
  | _ => false

/-- The node the thread is looking for in the hazard pointers, and how many slots
it has seen. -/
def Pc.scans (slots : Nat) : Pc Sid α → Option (Addr × Nat)
  | .scanOld f i => some (f.oldHead, i)
  | .deleteOld f => some (f.oldHead, slots)
  | .scanRecord _ _ _ p i => some (p, i)
  | .deleteRecord _ _ _ p => some (p, slots)
  | _ => none

/-- No thread has found the address in `_head` since its node was made. -/
def Place.fresh : Place Sid Tid → Bool
  | .free | .pushing _ => true
  | _ => false

theorem Pc.holds_eq_none {pc : Pc Sid α} {e : Addr × Nat} (h : pc.scans slots = some e) :
    pc.holds = none := by
  cases pc <;> first | rfl | cases h

/-- What the hazard pointers guarantee. -/
structure Hazards (s : State slots Sid Tid α) (place : Addr → Place Sid Tid) : Prop where
  owner : ∀ t i, s.hp t = some i → (s.hazardPointers i).id = some t
  hasSlot : ∀ t, (s.pc t).needsSlot = true → s.hp t ≠ none
  published : ∀ t i q, s.hp t = some i → (s.pc t).publishes = some q →
    (s.hazardPointers i).pointer = q
  held : ∀ t x, (s.pc t).holds = some x → (place x).fresh = false
  next : ∀ t k x nx, s.pc t = .popCas k x nx → place x = .stacked k → nextAt s.heap x = nx
  scanned : ∀ t y i, (s.pc t).scans slots = some (y, i) →
    ∀ u j, (s.pc u).holds = some y → s.hp u = some j → i ≤ j.val

section Hazards
variable {s s' : State slots Sid Tid α} {place place' : Addr → Place Sid Tid} {t : Tid} {p : Addr}
  {x : Pc Sid α}

namespace Hazards

/-- A node that has been scanned for in all slots is held by nobody. -/
theorem not_held (h : Hazards s place) (hscan : (s.pc t).scans slots = some (p, slots)) (u : Tid) :
    (s.pc u).holds ≠ some p := by
  intro hu
  have hneeds : (s.pc u).needsSlot = true := by
    cases hpc : s.pc u <;> rw [hpc] at hu <;> first | rfl | cases hu
  obtain ⟨j, hj⟩ := Option.ne_none_iff_exists'.mp (h.hasSlot u hneeds)
  have := h.scanned t p slots hscan u j hu hj
  omega

theorem not_held_of_fresh (h : Hazards s place) (hp : (place p).fresh = true) (u : Tid) :
    (s.pc u).holds ≠ some p := fun hu => by
  rw [h.held u p hu] at hp
  cases hp

/-- Two threads do not share a slot. -/
theorem slot_ne (h : Hazards s place) {u : Tid} {i j : Fin slots} (hut : u ≠ t)
    (hi : s.hp t = some i) (hj : s.hp u = some j) : j ≠ i := by
  rintro rfl
  have := (h.owner t j hi).symm.trans (h.owner u j hj)
  exact hut (Option.some.inj this).symm

variable [DecidableEq Tid]

/-- **The frame of a step.**  Thread `t` moves to `x`.  Other threads keep their
hazard pointers; an address becomes free or a new node only if it was so or
nobody holds it; and a node comes to be held only if nobody scans for it. -/
theorem change (h : Hazards s place) (hpc : s'.pc = Function.update s.pc t x)
    (howner : ∀ u i, s'.hp u = some i → (s'.hazardPointers i).id = some u)
    (hhp : ∀ u, u ≠ t → s'.hp u = s.hp u)
    (hpointer : ∀ u i, u ≠ t → s.hp u = some i →
      (s'.hazardPointers i).pointer = (s.hazardPointers i).pointer)
    (hslot : x.needsSlot = true → s'.hp t ≠ none)
    (hkeep : x.holds ≠ none → s'.hp t = s.hp t)
    (hpublished : ∀ i q, s'.hp t = some i → x.publishes = some q →
      (s'.hazardPointers i).pointer = q)
    (hholds : ∀ y, x.holds = some y → (s.pc t).holds = some y ∨
      (place y).fresh = false ∧ ∀ u i, (s.pc u).scans slots ≠ some (y, i))
    (hfresh : ∀ y, (place' y).fresh = true → (place y).fresh = true ∨
      x.holds ≠ some y ∧ ∀ u, (s.pc u).holds ≠ some y)
    (hstays : ∀ y k, place' y = .stacked k → (place y).fresh = true ∨
      place y = .stacked k ∧ nextAt s'.heap y = nextAt s.heap y)
    (hnext : ∀ k y nx, x = .popCas k y nx → place' y = .stacked k → nextAt s'.heap y = nx)
    (hscans : ∀ y i, x.scans slots = some (y, i) →
      ∀ u j, (s.pc u).holds = some y → s.hp u = some j → i ≤ j.val) :
    Hazards s' place' where
  owner := howner
  hasSlot u := by
    rw [hpc]
    by_cases hut : u = t
    · subst u
      simpa using hslot
    · rw [Function.update_of_ne hut, hhp u hut]
      exact h.hasSlot u
  published u i q := by
    rw [hpc]
    by_cases hut : u = t
    · subst u
      simpa using hpublished i q
    · rw [Function.update_of_ne hut, hhp u hut]
      intro hi hq
      rw [hpointer u i hut hi]
      exact h.published u i q hi hq
  held u y hu := by
    by_contra hf
    have hf : (place' y).fresh = true := by simpa using hf
    rw [hpc] at hu
    by_cases hut : u = t
    · subst u
      rw [Function.update_self] at hu
      rcases hfresh y hf with hold | ⟨hx, -⟩
      · rcases hholds y hu with hheld | ⟨hnf, -⟩
        · exact h.not_held_of_fresh hold t hheld
        · rw [hnf] at hold
          cases hold
      · exact hx hu
    · rw [Function.update_of_ne hut] at hu
      rcases hfresh y hf with hold | ⟨-, hnone⟩
      · exact h.not_held_of_fresh hold u hu
      · exact hnone u hu
  next u k y nx hu hplace := by
    rw [hpc] at hu
    by_cases hut : u = t
    · subst u
      exact hnext k y nx (by simpa using hu) hplace
    · rw [Function.update_of_ne hut] at hu
      rcases hstays y k hplace with hold | ⟨hold, hsame⟩
      · exact absurd (by rw [hu]; rfl) (h.not_held_of_fresh hold u)
      · exact hsame.trans (h.next u k y nx hu hold)
  scanned w y i hw u j hu hj := by
    rw [hpc] at hw hu
    by_cases hwt : w = t
    · subst w
      rw [Function.update_self] at hw
      by_cases hut : u = t
      · -- nobody holds and scans at once
        subst u
        rw [Function.update_self, Pc.holds_eq_none hw] at hu
        cases hu
      · rw [Function.update_of_ne hut] at hu
        rw [hhp u hut] at hj
        exact hscans y i hw u j hu hj
    · rw [Function.update_of_ne hwt] at hw
      by_cases hut : u = t
      · subst u
        rw [Function.update_self] at hu
        rw [hkeep (by simp [hu])] at hj
        rcases hholds y hu with hheld | ⟨-, hnone⟩
        · exact h.scanned w y i hw t j hheld hj
        · exact absurd hw (hnone w i)
      · rw [Function.update_of_ne hut] at hu
        rw [hhp u hut] at hj
        exact h.scanned w y i hw u j hu hj

/-- A thread moves, the hazard pointers being left alone, to where it holds no
node and scans for none, or has only just begun to. -/
theorem memory (h : Hazards s place) (hpc : s'.pc = Function.update s.pc t x)
    (hhp : s'.hp = s.hp) (hpointers : s'.hazardPointers = s.hazardPointers)
    (hneeds : x.needsSlot = true → (s.pc t).needsSlot = true)
    (hpublishes : x.publishes = none) (hholds : x.holds = none)
    (hscans : ∀ y i, x.scans slots = some (y, i) → i = 0)
    (hfresh : ∀ y, (place' y).fresh = true → (place y).fresh = true ∨
      ∀ u, (s.pc u).holds ≠ some y)
    (hstays : ∀ y k, place' y = .stacked k → (place y).fresh = true ∨
      place y = .stacked k ∧ nextAt s'.heap y = nextAt s.heap y) :
    Hazards s' place' := by
  refine h.change hpc (fun u i hi => ?_) (fun u _ => by rw [hhp]) (fun u i _ _ => by rw [hpointers])
    (fun hx => ?_) (fun hx => absurd hholds hx) (by simp [hpublishes]) (by simp [hholds])
    (fun y hy => (hfresh y hy).imp_right fun hnone => ⟨by simp [hholds], hnone⟩) hstays ?_ ?_
  · rw [hhp] at hi
    rw [hpointers]
    exact h.owner u i hi
  · rw [hhp]
    exact h.hasSlot t (hneeds hx)
  · rintro k y nx rfl
    cases hholds
  · intro y i hi u j _ _
    rw [hscans y i hi]
    exact Nat.zero_le _

end Hazards
end Hazards

/-! ## The invariant -/

/-- What every step keeps. -/
structure Inv (s : State slots Sid Tid α) (place : Addr → Place Sid Tid) (stk : Sid → List Addr)
    (rplace : Addr → RecordPlace Tid) (listed : List Addr) (walked : Tid → List Addr) : Prop where
  nodes : Nodes s place stk
  records : Records s rplace listed walked
  hazards : Hazards s place
  running : ∀ t, s.pc t ≠ .fault
  handed : ∀ x, s.handed x = true ↔ ∃ r, place x = .retired r

/-- Some places and lists make it hold. -/
def Safe (s : State slots Sid Tid α) : Prop :=
  ∃ place stk rplace listed walked, Inv s place stk rplace listed walked

section Inv
variable {s s' : State slots Sid Tid α} {place place' : Addr → Place Sid Tid}
  {stk stk' : Sid → List Addr} {rplace rplace' : Addr → RecordPlace Tid}
  {listed listed' : List Addr} {walked walked' : Tid → List Addr} {t : Tid} {p : Addr}
  {x : Pc Sid α}

/-- A node that is not fresh, or is nobody's when it becomes so, changes its place. -/
theorem Place.fresh_update {d : Place Sid Tid}
    (hd : d.fresh = true → (place p).fresh = true ∨ ∀ u, (s.pc u).holds ≠ some p) (y : Addr)
    (hy : (Function.update place p d y).fresh = true) :
    (place y).fresh = true ∨ ∀ u, (s.pc u).holds ≠ some y := by
  by_cases hyp : y = p
  · subst y
    exact hd (by simpa using hy)
  · exact Or.inl (by simpa [hyp] using hy)

/-- A node that goes into a stack was fresh, and the other nodes keep their links. -/
theorem Place.stacked_update {d : Place Sid Tid}
    (hd : ∀ k, d = .stacked k → (place p).fresh = true)
    (hnext : ∀ y, y ≠ p → nextAt s'.heap y = nextAt s.heap y) (y : Addr) (k : Sid)
    (hy : Function.update place p d y = .stacked k) :
    (place y).fresh = true ∨ place y = .stacked k ∧ nextAt s'.heap y = nextAt s.heap y := by
  by_cases hyp : y = p
  · subst y
    exact Or.inl (hd k (by simpa using hy))
  · exact Or.inr ⟨by simpa [hyp] using hy, hnext y hyp⟩

namespace Inv

/-- A node that is scanned for has been unlinked. -/
theorem not_stacked_of_scans (h : Inv s place stk rplace listed walked) {i : Nat}
    (hscan : (s.pc t).scans slots = some (p, i)) (k : Sid) : place p ≠ .stacked k := by
  have hrecord : ∀ r next, (s.pc t).current = some (r, ⟨p, next⟩) → place p = .retired r := by
    intro r next hcur
    refine (h.nodes.retired p r).mpr ?_
    simp [recordData, h.records.current t r _ hcur]
  cases hpc : s.pc t <;> rw [hpc] at hscan <;> cases hscan
  case scanOld => simp [(h.nodes.unlinked _ t).mpr (by rw [hpc]; rfl)]
  case deleteOld => simp [(h.nodes.unlinked _ t).mpr (by rw [hpc]; rfl)]
  case scanRecord f r next => simp [hrecord r next (by rw [hpc]; rfl)]
  case deleteRecord f r next => simp [hrecord r next (by rw [hpc]; rfl)]

/-- A node changes its place, not retired before or after. -/
theorem handed_update (h : Inv s place stk rplace listed walked) {d : Place Sid Tid}
    (hp : ∀ r, place p ≠ .retired r) (hd : ∀ r, d ≠ .retired r) (y : Addr) :
    s.handed y = true ↔ ∃ r, Function.update place p d y = .retired r := by
  by_cases hyp : y = p
  · subst y
    simpa [hp, hd] using h.handed p
  · simpa [hyp] using h.handed y

variable [DecidableEq Tid]

theorem running_update (h : Inv s place stk rplace listed walked)
    (hpc : s'.pc = Function.update s.pc t x) (hx : x ≠ .fault) (u : Tid) : s'.pc u ≠ .fault := by
  rw [hpc]
  by_cases hut : u = t
  · subst u
    simpa using hx
  · simpa [hut] using h.running u

/-- A thread moves, and nothing else changes. -/
theorem move (h : Inv s place stk rplace listed walked) (hx : x ≠ .fault)
    (hpushes : x.pushes = (s.pc t).pushes) (hunlinks : x.unlinks = (s.pc t).unlinks)
    (hchain : x.chain = (s.pc t).chain) (hadds : x.adds = (s.pc t).adds)
    (hcurrent : ∀ y rec, x.current = some (y, rec) → s.records y = some rec)
    (hslot : x.needsSlot = true → s.hp t ≠ none)
    (hpublishes : ∀ q, x.publishes = some q → (s.pc t).publishes = some q)
    (hholds : ∀ y, x.holds = some y → (s.pc t).holds = some y ∨ ∃ k, place y = .stacked k)
    (hnext : ∀ k y nx, x = .popCas k y nx → nextAt s.heap y = nx)
    (hscans : ∀ y i, x.scans slots = some (y, i) →
      ∀ u j, (s.pc u).holds = some y → s.hp u = some j → i ≤ j.val) :
    Inv (s.goto t x) place stk rplace listed walked where
  nodes := h.nodes.move (t := t) rfl rfl rfl (fun _ => rfl) hpushes hunlinks
  records := h.records.move (t := t) rfl rfl rfl hchain hadds hcurrent
  hazards := by
    refine h.hazards.change (t := t) (x := x) rfl h.hazards.owner (fun _ _ => rfl)
      (fun _ _ _ _ => rfl) hslot (fun _ => rfl)
      (fun i q hi hq => h.hazards.published t i q hi (hpublishes q hq)) (fun y hy => ?_)
      (fun y hy => Or.inl hy) (fun y k hy => Or.inr ⟨hy, rfl⟩) (fun k y nx hx _ => hnext k y nx hx)
      hscans
    refine (hholds y hy).imp_right ?_
    rintro ⟨k, hk⟩
    exact ⟨by simp [hk, Place.fresh], fun u i hu => h.not_stacked_of_scans hu k hk⟩
  running := h.running_update (t := t) rfl hx
  handed := h.handed

/-- A thread stores `q` in its hazard pointer, holding no node afterwards. -/
theorem storeHazard (h : Inv s place stk rplace listed walked) {q : Option Addr}
    (hneeds : s.hp t ≠ none) (hx : x ≠ .fault)
    (hpushes : x.pushes = (s.pc t).pushes) (hunlinks : x.unlinks = (s.pc t).unlinks)
    (hchain : x.chain = (s.pc t).chain) (hadds : x.adds = (s.pc t).adds)
    (hcurrent : x.current = none) (hholds : x.holds = none) (hscans : x.scans slots = none)
    (hpublishes : ∀ q', x.publishes = some q' → q' = q) :
    Inv (s.storeHazard t q x) place stk rplace listed walked := by
  obtain ⟨i, hi⟩ := Option.ne_none_iff_exists'.mp hneeds
  have hstep : s.storeHazard t q x =
      { s with
        hazardPointers := Function.update s.hazardPointers i
          { s.hazardPointers i with pointer := q } }.goto t x := by
    simp [State.storeHazard, hi]
  rw [hstep]
  refine ⟨h.nodes.move (t := t) rfl rfl rfl (fun _ => rfl) hpushes hunlinks,
    h.records.move (t := t) rfl rfl rfl hchain hadds (by simp [hcurrent]), ?_,
    h.running_update (t := t) rfl hx, h.handed⟩
  refine h.hazards.change (t := t) (x := x) rfl (fun u j hj => ?_) (fun _ _ => rfl)
    (fun u j hut hj => ?_) (fun _ => hneeds) (fun hne => absurd hholds hne) (fun j q' hj hq => ?_)
    (by simp [hholds]) (fun y hy => Or.inl hy) (fun y k hy => Or.inr ⟨hy, rfl⟩) ?_ (by simp [hscans])
  · have hid := h.hazards.owner u j hj
    by_cases hji : j = i
    · subst j
      simpa using hid
    · simpa [hji] using hid
  · simp [h.hazards.slot_ne hut hi hj]
  · have hji : j = i := Option.some.inj ((show s.hp t = some j from hj).symm.trans hi)
    subst j
    simp [hpublishes q' hq]
  · rintro k y nx rfl
    cases hholds

/-- A thread acquires a free slot. -/
theorem acquire [DecidableEq Sid] (h : Inv s place stk rplace listed walked) {i : Fin slots} {k : Sid}
    (hpc : s.pc t = .popStart k) (hfree : (s.hazardPointers i).id = none) :
    Inv (s.acquire t i k) place stk rplace listed walked := by
  refine ⟨h.nodes.move (t := t) (x := .popLoad k) rfl rfl rfl (fun _ => rfl)
      (by simp [hpc, Pc.pushes]) (by simp [hpc, Pc.unlinks]),
    h.records.move (t := t) (x := .popLoad k) rfl rfl rfl (by simp [hpc, Pc.chain])
      (by simp [hpc, Pc.adds]) (by simp [Pc.current]), ?_,
    h.running_update (t := t) (x := .popLoad k) rfl (by simp), h.handed⟩
  -- the slots of other threads have another thread's mark
  have hother : ∀ u j, s.hp u = some j → j ≠ i := by
    rintro u j hj rfl
    have := h.hazards.owner u j hj
    rw [hfree] at this
    cases this
  refine h.hazards.change (t := t) (x := .popLoad k) rfl (fun u j hj => ?_) (fun u hut => ?_)
    (fun u j _ hj => ?_) (by simp [State.acquire]) (by simp [Pc.holds]) (by simp [Pc.publishes])
    (by simp [Pc.holds]) (fun y hy => Or.inl hy) (fun y k hy => Or.inr ⟨hy, rfl⟩) (by simp)
    (by simp [Pc.scans])
  · by_cases hut : u = t
    · subst u
      have hij : i = j := by simpa [State.acquire] using hj
      subst j
      simp [State.acquire]
    · have hj' : s.hp u = some j := by simpa [State.acquire, hut] using hj
      simpa [State.acquire, hother u j hj'] using h.hazards.owner u j hj'
  · simp [State.acquire, hut]
  · simp [State.acquire, hother u j hj]

/-- `~hp_owner` gives the slot back. -/
theorem release (h : Inv s place stk rplace listed walked) (hpc : s.pc t = .release) :
    Inv (s.release t) place stk rplace listed walked := by
  obtain ⟨i, hi⟩ := Option.ne_none_iff_exists'.mp
    (h.hazards.hasSlot t (by simp [hpc, Pc.needsSlot]))
  have hstep : s.release t =
      { s with
        hazardPointers := Function.update s.hazardPointers i { s.hazardPointers i with id := none }
        hp := Function.update s.hp t none }.goto t .idle := by
    simp [State.release, hi]
  rw [hstep]
  refine ⟨h.nodes.move (t := t) (x := .idle) rfl rfl rfl (fun _ => rfl)
      (by simp [hpc, Pc.pushes]) (by simp [hpc, Pc.unlinks]),
    h.records.move (t := t) (x := .idle) rfl rfl rfl (by simp [hpc, Pc.chain])
      (by simp [hpc, Pc.adds]) (by simp [Pc.current]), ?_,
    h.running_update (t := t) (x := .idle) rfl (by simp), h.handed⟩
  refine h.hazards.change (t := t) (x := .idle) rfl (fun u j hj => ?_) (fun u hut => by simp [hut])
    (fun u j hut hj => ?_) (by simp [Pc.needsSlot]) (by simp [Pc.holds]) (by simp)
    (by simp [Pc.holds]) (fun y hy => Or.inl hy) (fun y k hy => Or.inr ⟨hy, rfl⟩) (by simp)
    (by simp [Pc.scans])
  · by_cases hut : u = t
    · subst u
      simp at hj
    · have hj' : s.hp u = some j := by simpa [hut] using hj
      simpa [h.hazards.slot_ne hut hi hj'] using h.hazards.owner u j hj'
  · simp [h.hazards.slot_ne hut hi hj]

/-! ## The stacks -/

theorem push [DecidableEq Sid] (h : Inv s place stk rplace listed walked) {k : Sid} {v : α}
    (hpc : s.pc t = .idle) (hfree : s.heap p = none) :
    Inv (s.push t k v p) (Function.update place p (.pushing t)) stk rplace listed walked := by
  have hplace : place p = .free := (h.nodes.free p).mpr hfree
  refine ⟨h.nodes.push hpc hfree, h.records.move (t := t) (x := .pushCas k p) rfl rfl rfl
    (by simp [hpc, Pc.chain]) (by simp [hpc, Pc.adds]) (by simp [Pc.current]), ?_,
    h.running_update (t := t) (x := .pushCas k p) rfl (by simp),
    h.handed_update (by simp [hplace]) (by simp)⟩
  exact h.hazards.memory (t := t) (x := .pushCas k p) rfl rfl rfl (by simp [Pc.needsSlot]) rfl rfl
    (by simp [Pc.scans]) (Place.fresh_update fun _ => Or.inl (by simp [hplace, Place.fresh]))
    (Place.stacked_update (by simp) fun y hy => by simp [State.push, nextAt, hy])

theorem publish [DecidableEq Sid] (h : Inv s place stk rplace listed walked) {k : Sid}
    (hpc : s.pc t = .pushCas k p) (hnext : nextAt s.heap p = s.head k) :
    Inv ({ s with head := Function.update s.head k (some p) }.goto t .idle)
      (Function.update place p (.stacked k)) (Function.update stk k (p :: stk k)) rplace listed
      walked := by
  have hplace : place p = .pushing t := (h.nodes.pushing p t).mpr (by simp [hpc, Pc.pushes])
  refine ⟨h.nodes.publish hpc hnext, h.records.move (t := t) (x := .idle) rfl rfl rfl
    (by simp [hpc, Pc.chain]) (by simp [hpc, Pc.adds]) (by simp [Pc.current]), ?_,
    h.running_update (t := t) (x := .idle) rfl (by simp),
    h.handed_update (by simp [hplace]) (by simp)⟩
  exact h.hazards.memory (t := t) (x := .idle) rfl rfl rfl (by simp [Pc.needsSlot]) rfl rfl
    (by simp [Pc.scans]) (Place.fresh_update (by simp [Place.fresh]))
    (Place.stacked_update (fun _ _ => by simp [hplace, Place.fresh]) fun _ _ => rfl)

/-- A thread writes to the node it pushes or has unlinked. -/
theorem write (h : Inv s place stk rplace listed walked) {nd : Node α} (hx : x ≠ .fault)
    (hp : place p = .pushing t ∨ place p = .unlinked t) (hpushes : x.pushes = (s.pc t).pushes)
    (hunlinks : x.unlinks = (s.pc t).unlinks) (hchain : x.chain = (s.pc t).chain)
    (hadds : x.adds = (s.pc t).adds) (hcurrent : x.current = none) (hneeds : x.needsSlot = false)
    (hpublishes : x.publishes = none) (hholds : x.holds = none)
    (hscans : ∀ y i, x.scans slots = some (y, i) → i = 0) :
    Inv ({ s with heap := Function.update s.heap p (some nd) }.goto t x) place stk rplace listed
      walked := by
  refine ⟨h.nodes.write (t := t) rfl rfl rfl rfl hp hpushes hunlinks,
    h.records.move (t := t) rfl rfl rfl hchain hadds (by simp [hcurrent]),
    h.hazards.memory (t := t) (x := x) rfl rfl rfl (by simp [hneeds]) hpublishes hholds hscans
      (fun y hy => Or.inl hy) (fun y k hy => Or.inr ⟨hy, ?_⟩),
    h.running_update (t := t) rfl hx, h.handed⟩
  have hyp : y ≠ p := by
    rintro rfl
    rcases hp with hp | hp <;> rw [hp] at hy <;> cases hy
  simp [nextAt, hyp]

theorem pushAgain [DecidableEq Sid] (h : Inv s place stk rplace listed walked) {k : Sid}
    {nd : Node α} (hpc : s.pc t = .pushCas k p) :
    Inv ({ s with heap := Function.update s.heap p (some nd) }.goto t (.pushCas k p)) place stk rplace
      listed walked :=
  h.write (by simp) (Or.inl ((h.nodes.pushing p t).mpr (by simp [hpc, Pc.pushes])))
    (by simp [hpc]) (by simp [hpc]) (by simp [hpc]) (by simp [hpc]) rfl rfl rfl rfl
    (by simp [Pc.scans])

/-- `_head` still shows the published node: the pop holds it. -/
theorem popCheck [DecidableEq Sid] (h : Inv s place stk rplace listed walked) {k : Sid}
    {temp : Option Addr} (hpc : s.pc t = .popCheck k temp) :
    Inv (s.popCheck t k temp) place stk rplace listed walked := by
  have hslot : s.hp t ≠ none := h.hazards.hasSlot t (by simp [hpc, Pc.needsSlot])
  by_cases hhead : s.head k = temp
  · rw [State.popCheck, if_pos hhead]
    cases temp with
    | none =>
      exact h.move (x := .popClear none) (by simp) (by simp [hpc, Pc.pushes])
        (by simp [hpc, Pc.unlinks]) (by simp [hpc, Pc.chain]) (by simp [hpc, Pc.adds])
        (by simp [Pc.current]) (fun _ => hslot) (by simp [Pc.publishes]) (by simp [Pc.holds])
        (by simp) (by simp [Pc.scans])
    | some a =>
      refine h.move (x := .popReadNext k a) (by simp) (by simp [hpc, Pc.pushes])
        (by simp [hpc, Pc.unlinks]) (by simp [hpc, Pc.chain]) (by simp [hpc, Pc.adds])
        (by simp [Pc.current]) (fun _ => hslot) (by simp [hpc, Pc.publishes]) ?_ (by simp)
        (by simp [Pc.scans])
      rintro y ⟨⟩
      exact Or.inr ⟨k, h.nodes.stacked_of_head hhead⟩
  · rw [State.popCheck, if_neg hhead]
    exact h.move (x := .popStore k (s.head k)) (by simp) (by simp [hpc, Pc.pushes])
      (by simp [hpc, Pc.unlinks]) (by simp [hpc, Pc.chain]) (by simp [hpc, Pc.adds])
      (by simp [Pc.current]) (fun _ => hslot) (by simp [Pc.publishes]) (by simp [Pc.holds])
      (by simp) (by simp [Pc.scans])

theorem popReadNext (h : Inv s place stk rplace listed walked) {k : Sid}
    (hpc : s.pc t = .popReadNext k p) :
    Inv (s.access t p fun nd => s.goto t (.popCas k p nd.next)) place stk rplace listed walked := by
  have hheld := h.hazards.held t p (by simp [hpc, Pc.holds])
  obtain ⟨nd, hnd⟩ := h.nodes.exists_node (p := p) fun hfree => by
    simp [hfree, Place.fresh] at hheld
  rw [State.access, hnd]
  refine h.move (x := .popCas k p nd.next) (by simp) (by simp [hpc, Pc.pushes])
    (by simp [hpc, Pc.unlinks]) (by simp [hpc, Pc.chain]) (by simp [hpc, Pc.adds])
    (by simp [Pc.current]) (fun _ => h.hazards.hasSlot t (by simp [hpc, Pc.needsSlot]))
    (by simp [hpc, Pc.publishes]) (by simp [hpc, Pc.holds]) ?_ (by simp [Pc.scans])
  rintro k' y nx ⟨⟩
  simp [nextAt, hnd]

/-- The exchange of `_head`. -/
theorem popCas [DecidableEq Sid] (h : Inv s place stk rplace listed walked) {k : Sid}
    {next : Option Addr} (hpc : s.pc t = .popCas k p next) : Safe (s.popCas t k p next) := by
  have hslot : s.hp t ≠ none := h.hazards.hasSlot t (by simp [hpc, Pc.needsSlot])
  by_cases hhead : s.head k = some p
  · rw [State.popCas, if_pos hhead]
    have hplace : place p = .stacked k := h.nodes.stacked_of_head hhead
    obtain ⟨l', hnodes⟩ := h.nodes.unlink hpc hhead (h.hazards.next t k p next hpc hplace)
    refine ⟨_, _, rplace, listed, walked, hnodes, h.records.move (t := t) (x := .popClear (some p))
      rfl rfl rfl (by simp [hpc, Pc.chain]) (by simp [hpc, Pc.adds]) (by simp [Pc.current]), ?_,
      h.running_update (t := t) (x := .popClear (some p)) rfl (by simp),
      h.handed_update (by simp [hplace]) (by simp)⟩
    exact h.hazards.memory (t := t) (x := .popClear (some p)) rfl rfl rfl
      (by simp [hpc, Pc.needsSlot]) rfl rfl (by simp [Pc.scans])
      (Place.fresh_update (by simp [Place.fresh])) (Place.stacked_update (by simp) fun _ _ => rfl)
  · rw [State.popCas, if_neg hhead]
    exact ⟨place, stk, rplace, listed, walked, h.move (x := .popStore k (s.head k)) (by simp)
      (by simp [hpc, Pc.pushes]) (by simp [hpc, Pc.unlinks]) (by simp [hpc, Pc.chain])
      (by simp [hpc, Pc.adds]) (by simp [Pc.current]) (fun _ => hslot) (by simp [Pc.publishes])
      (by simp [Pc.holds]) (by simp) (by simp [Pc.scans])⟩

theorem swapData (h : Inv s place stk rplace listed walked) (hpc : s.pc t = .swapData p) :
    Inv (s.swapData t p) place stk rplace listed walked := by
  have hplace : place p = .unlinked t := (h.nodes.unlinked p t).mpr (by simp [hpc, Pc.unlinks])
  obtain ⟨nd, hnd⟩ := h.nodes.exists_node (p := p) (by simp [hplace])
  rw [State.swapData, State.access, hnd]
  exact h.write (by simp) (Or.inr hplace) (by simp [hpc, Pc.pushes]) (by simp [hpc, Pc.unlinks])
    (by simp [hpc, Pc.chain]) (by simp [hpc, Pc.adds]) rfl rfl rfl rfl
    (by simp +contextual [Pc.scans, eq_comm])

/-! ## Reclaiming -/

/-- One round of a scan: whoever holds the node has a slot further on, since the
slot just seen shows something else. -/
theorem scan (h : Inv s place stk rplace listed walked) {i : Nat} {found next none : Pc Sid α}
    (hscan : (s.pc t).scans slots = some (p, i))
    (hfound : Safe (s.goto t found))
    (hnext : ∀ hi : i < slots, (s.hazardPointers ⟨i, hi⟩).pointer ≠ some p →
      (∀ u j, (s.pc u).holds = some p → s.hp u = some j → i + 1 ≤ j.val) → Safe (s.goto t next))
    (hnone : (∀ u j, (s.pc u).holds = some p → s.hp u = some j → slots ≤ j.val) →
      Safe (s.goto t none)) : Safe (s.scan t p i found next none) := by
  have hseen := h.hazards.scanned t p i hscan
  unfold State.scan
  split
  · rename_i hi
    split
    · exact hfound
    · rename_i hother
      refine hnext hi hother fun u j hu hj => ?_
      have hle := hseen u j hu hj
      have hne : j.val ≠ i := by
        rintro rfl
        refine hother (h.hazards.published u j (some p) hj ?_)
        cases hpc : s.pc u <;> rw [hpc] at hu <;> cases hu <;> rfl
      omega
  · exact hnone fun u j hu hj => by
      have := hseen u j hu hj
      omega

theorem scanOld (h : Inv s place stk rplace listed walked) {f : Frame α} {i : Nat}
    (hpc : s.pc t = .scanOld f i) :
    Safe (s.scan t f.oldHead i (.newRecord f) (.scanOld f (i + 1)) (.deleteOld f)) := by
  have hmove : ∀ x : Pc Sid α, x ≠ .fault → x.pushes = none → x.unlinks = some f.oldHead →
      x.chain = none → x.adds = none → x.current = none → x.needsSlot = false →
      x.publishes = none → x.holds = none →
      (∀ y i, x.scans slots = some (y, i) →
        ∀ u j, (s.pc u).holds = some y → s.hp u = some j → i ≤ j.val) → Safe (s.goto t x) := by
    intro x hx hpushes hunlinks hchain hadds hcurrent hneeds hpublishes hholds hscans
    refine ⟨place, stk, rplace, listed, walked, h.move hx (by rw [hpushes, hpc]; rfl)
      (by rw [hunlinks, hpc]; rfl) (by rw [hchain, hpc]; rfl) (by rw [hadds, hpc]; rfl)
      (by simp [hcurrent]) (by simp [hneeds]) (by simp [hpublishes]) (by simp [hholds]) ?_ hscans⟩
    rintro k y nx rfl
    cases hholds
  refine h.scan (by rw [hpc]; rfl) (hmove _ (by simp) rfl rfl rfl rfl rfl rfl rfl rfl
    (by simp [Pc.scans])) (fun hi hne hseen => hmove _ (by simp) rfl rfl rfl rfl rfl rfl rfl rfl ?_)
    (fun hseen => hmove _ (by simp) rfl rfl rfl rfl rfl rfl rfl rfl ?_)
  · rintro y i ⟨⟩
    exact hseen
  · rintro y i ⟨⟩
    exact hseen

/-- The unlinked node is deleted. -/
theorem deleteOld (h : Inv s place stk rplace listed walked) {f : Frame α}
    (hpc : s.pc t = .deleteOld f) :
    Inv (s.deleteOld t f) (Function.update place f.oldHead .free) stk rplace listed walked := by
  have hplace : place f.oldHead = .unlinked t :=
    (h.nodes.unlinked _ t).mpr (by simp [hpc, Pc.unlinks])
  obtain ⟨nd, hnd⟩ := h.nodes.exists_node (p := f.oldHead) (by simp [hplace])
  have hnone := h.hazards.not_held (t := t) (p := f.oldHead) (by rw [hpc]; rfl)
  rw [State.deleteOld, State.access, hnd]
  refine ⟨h.nodes.retire (t := t) (x := .exchange f) .free none (Or.inl hplace) (Or.inl rfl) rfl rfl
      rfl (by simp) (by simp [hpc, Pc.pushes]) rfl ?_
      (h.nodes.retired_update (by simp [hplace]) (by simp)),
    h.records.move (t := t) (x := .exchange f) rfl rfl rfl (by simp [hpc, Pc.chain])
      (by simp [hpc, Pc.adds]) (by simp [Pc.current]),
    h.hazards.memory (t := t) (x := .exchange f) rfl rfl rfl (by simp [Pc.needsSlot]) rfl rfl
      (by simp [Pc.scans]) (Place.fresh_update fun _ => Or.inr hnone)
      (Place.stacked_update (by simp) fun y hy => by simp [nextAt, hy]),
    h.running_update (t := t) (x := .exchange f) rfl (by simp),
    h.handed_update (by simp [hplace]) (by simp)⟩
  intro y hy
  rw [hpc] at hy
  exact (Option.some.inj hy).symm

/-- The unlinked node is handed to `reclaim_later`. -/
theorem newRecord (h : Inv s place stk rplace listed walked) {f : Frame α} {r : Addr}
    (hpc : s.pc t = .newRecord f) (hfree : s.records r = none) : Safe (s.newRecord t f r) := by
  have hplace : place f.oldHead = .unlinked t :=
    (h.nodes.unlinked _ t).mpr (by simp [hpc, Pc.unlinks])
  obtain ⟨nd, hnd⟩ := h.nodes.exists_node (p := f.oldHead) (by simp [hplace])
  have hnew : ∀ y, place y ≠ .retired r := fun y hy => by
    have := (h.nodes.retired y r).mp hy
    simp [recordData, hfree] at this
  obtain ⟨walked', hrecords⟩ := h.records.newRecord hpc hfree
  refine ⟨_, stk, _, listed, walked',
    h.nodes.retire (t := t) (x := .addLoad f r .exchange) (.retired r) (s.heap f.oldHead)
      (Or.inl hplace) (Or.inr ⟨r, rfl⟩) rfl
      (Function.update_eq_self ..).symm rfl (by simp [hnd]) (by simp [hpc, Pc.pushes]) rfl ?_
      (fun y r' => ?_), hrecords,
    h.hazards.memory (t := t) (x := .addLoad f r .exchange) rfl rfl rfl (by simp [Pc.needsSlot]) rfl
      rfl (by simp [Pc.scans]) (Place.fresh_update (by simp [Place.fresh]))
      (Place.stacked_update (by simp) fun _ _ => rfl),
    h.running_update (t := t) (x := .addLoad f r .exchange) rfl (by simp), fun y => ?_⟩
  · intro y hy
    rw [hpc] at hy
    exact (Option.some.inj hy).symm
  · have hold := h.nodes.retired y r'
    by_cases hy : y = f.oldHead
    · subst y
      by_cases hr : r' = r
      · subst r'
        simp [State.newRecord, recordData]
      · simpa [State.newRecord, recordData, hr, Ne.symm hr, hplace] using hold
    · by_cases hr : r' = r
      · subst r'
        simpa [State.newRecord, recordData, hy, Ne.symm hy] using hnew y
      · simpa [State.newRecord, recordData, hy, hr] using hold
  · by_cases hy : y = f.oldHead
    · subst y
      simp [State.newRecord]
    · simpa [State.newRecord, hy] using h.handed y

/-- The record being added is there, and its `next` is set to the list just read. -/
theorem addLoad (h : Inv s place stk rplace listed walked) {f : Frame α} {r : Addr} {k : After}
    (hpc : s.pc t = .addLoad f r k ∨ s.pc t = .addCas f r k) {rec : DataToReclaim}
    (hrec : s.records r = some rec) : Inv (s.addLoad t f r k) place stk rplace listed walked := by
  have hrecords := h.records.addLoad hpc hrec
  have hstep : s.addLoad t f r k =
      { s with
        records := Function.update s.records r (some { rec with next := s.nodesToReclaim }) }.goto t
        (.addCas f r k) := by
    simp [State.addLoad, State.accessRecord, hrec]
  rw [hstep] at hrecords ⊢
  refine ⟨h.nodes.move (t := t) (x := .addCas f r k) rfl rfl rfl (fun r' => ?_) ?_ ?_, hrecords,
    h.hazards.memory (t := t) (x := .addCas f r k) rfl rfl rfl (by simp [Pc.needsSlot]) rfl rfl
      (by simp [Pc.scans]) (fun y hy => Or.inl hy) (fun y k hy => Or.inr ⟨hy, rfl⟩),
    h.running_update (t := t) (x := .addCas f r k) rfl (by simp), h.handed⟩
  · by_cases hr : r' = r <;> simp [recordData, hr, hrec]
  · rcases hpc with hpc | hpc
    · rw [hpc]
      rfl
    · rw [hpc]
  · rcases hpc with hpc | hpc
    · rw [hpc]
      rfl
    · rw [hpc]

omit [DecidableEq Tid] in
theorem exists_added (h : Inv s place stk rplace listed walked) {r : Addr}
    (hadds : (s.pc t).adds = some r) : ∃ rec, s.records r = some rec :=
  h.records.exists_record (by simp [(h.records.adding r t).mpr hadds])

/-- The exchange of `nodes_to_reclaim`. -/
theorem addCas (h : Inv s place stk rplace listed walked) {f : Frame α} {r : Addr} {k : After}
    (hpc : s.pc t = .addCas f r k) : Safe (s.addCas t f r k) := by
  obtain ⟨rec, hrec⟩ := h.exists_added (t := t) (r := r) (by simp [hpc, Pc.adds])
  by_cases hcas : s.nodesToReclaim = rec.next
  · have hstep : s.addCas t f r k = { s with nodesToReclaim := some r }.goto t (Pc.after f k) := by
      simp [State.addCas, State.accessRecord, hrec, hcas]
    have hrecords := h.records.add hpc (by simp [recordNext, hrec, hcas])
    rw [hstep]
    refine ⟨place, stk, _, _, walked,
      h.nodes.move (t := t) (x := Pc.after f k) rfl rfl rfl (fun _ => rfl) ?_ ?_, hrecords,
      h.hazards.memory (t := t) (x := Pc.after f k) rfl rfl rfl ?_ ?_ ?_ ?_ (fun y hy => Or.inl hy)
        (fun y k hy => Or.inr ⟨hy, rfl⟩),
      h.running_update (t := t) (x := Pc.after f k) rfl ?_, h.handed⟩
    · rw [hpc]
      cases k <;> rfl
    · rw [hpc]
      cases k <;> rfl
    · cases k <;> simp [Pc.after, Pc.needsSlot]
    · cases k <;> rfl
    · cases k <;> rfl
    · cases k <;> simp [Pc.after, Pc.scans]
    · cases k <;> simp [Pc.after]
  · have hstep : s.addCas t f r k = s.addLoad t f r k := by
      simp [State.addCas, State.accessRecord, hrec, hcas]
    rw [hstep]
    exact ⟨_, _, _, _, _, h.addLoad (Or.inr hpc) hrec⟩

theorem exchange (h : Inv s place stk rplace listed walked) {f : Frame α}
    (hpc : s.pc t = .exchange f) :
    Safe ({ s with nodesToReclaim := none }.goto t (.walk f s.nodesToReclaim)) := by
  obtain ⟨walked', hrecords⟩ := h.records.exchange hpc
  exact ⟨place, stk, _, _, walked',
    h.nodes.move (t := t) (x := .walk f s.nodesToReclaim) rfl rfl rfl (fun _ => rfl)
      (by simp [hpc, Pc.pushes]) (by simp [hpc, Pc.unlinks]), hrecords,
    h.hazards.memory (t := t) (x := .walk f s.nodesToReclaim) rfl rfl rfl (by simp [Pc.needsSlot])
      rfl rfl (by simp [Pc.scans]) (fun y hy => Or.inl hy) (fun y k hy => Or.inr ⟨hy, rfl⟩),
    h.running_update (t := t) (x := .walk f s.nodesToReclaim) rfl (by simp), h.handed⟩

theorem walk (h : Inv s place stk rplace listed walked) {f : Frame α} {current : Option Addr}
    (hpc : s.pc t = .walk f current) : Inv (s.walk t f current) place stk rplace listed walked := by
  cases current with
  | none =>
    exact h.move (x := .ret f.res) (by simp) (by simp [hpc, Pc.pushes]) (by simp [hpc, Pc.unlinks])
      (by simp [hpc, Pc.chain]) (by simp [hpc, Pc.adds]) (by simp [Pc.current])
      (by simp [Pc.needsSlot]) (by simp [Pc.publishes]) (by simp [Pc.holds]) (by simp)
      (by simp [Pc.scans])
  | some r =>
    have hchain := h.records.chain t
    rw [hpc] at hchain
    obtain ⟨l, hl⟩ := hchain.exists_cons
    have hplace : rplace r = .walked t := (h.records.walked_iff r t).mpr (hl ▸ List.mem_cons_self)
    obtain ⟨rec, hrec⟩ := h.records.exists_record (r := r) (by simp [hplace])
    rw [State.walk, State.accessRecord, hrec]
    refine h.move (x := .scanRecord f r rec.next rec.data 0) (by simp) (by simp [hpc, Pc.pushes])
      (by simp [hpc, Pc.unlinks]) (by simp [hpc, Pc.chain]) (by simp [hpc, Pc.adds]) ?_
      (by simp [Pc.needsSlot]) (by simp [Pc.publishes]) (by simp [Pc.holds]) (by simp) ?_
    · rintro y rec' ⟨⟩
      exact hrec
    · rintro y i ⟨⟩ u j _ _
      exact Nat.zero_le _

theorem scanRecord (h : Inv s place stk rplace listed walked) {f : Frame α} {r : Addr}
    {next : Option Addr} {i : Nat} (hpc : s.pc t = .scanRecord f r next p i) :
    Safe (s.scan t p i (.addLoad f r (.walk next)) (.scanRecord f r next p (i + 1))
      (.deleteRecord f r next p)) := by
  have hcur : s.records r = some ⟨p, next⟩ := h.records.current t r _ (by rw [hpc]; rfl)
  refine h.scan (by rw [hpc]; rfl) ?_ (fun hi hne hseen => ⟨place, stk, rplace, listed, walked, ?_⟩)
    (fun hseen => ⟨place, stk, rplace, listed, walked, ?_⟩)
  · obtain ⟨walked', hrecords⟩ := h.records.putBack hpc
    exact ⟨place, stk, _, _, walked',
      h.nodes.move (t := t) (x := .addLoad f r (.walk next)) rfl rfl rfl (fun _ => rfl)
        (by simp [hpc, Pc.pushes]) (by simp [hpc, Pc.unlinks]), hrecords,
      h.hazards.memory (t := t) (x := .addLoad f r (.walk next)) rfl rfl rfl (by simp [Pc.needsSlot])
        rfl rfl (by simp [Pc.scans]) (fun y hy => Or.inl hy) (fun y k hy => Or.inr ⟨hy, rfl⟩),
      h.running_update (t := t) (x := .addLoad f r (.walk next)) rfl (by simp), h.handed⟩
  · refine h.move (x := .scanRecord f r next p (i + 1)) (by simp) (by simp [hpc, Pc.pushes])
      (by simp [hpc, Pc.unlinks]) (by simp [hpc, Pc.chain]) (by simp [hpc, Pc.adds]) ?_
      (by simp [Pc.needsSlot]) (by simp [Pc.publishes]) (by simp [Pc.holds]) (by simp) ?_
    · rintro y rec ⟨⟩
      exact hcur
    · rintro y i ⟨⟩
      exact hseen
  · refine h.move (x := .deleteRecord f r next p) (by simp) (by simp [hpc, Pc.pushes])
      (by simp [hpc, Pc.unlinks]) (by simp [hpc, Pc.chain]) (by simp [hpc, Pc.adds]) ?_
      (by simp [Pc.needsSlot]) (by simp [Pc.publishes]) (by simp [Pc.holds]) (by simp) ?_
    · rintro y rec ⟨⟩
      exact hcur
    · rintro y i ⟨⟩
      exact hseen

/-- A record is deleted, and with it the node it is about. -/
theorem deleteRecord (h : Inv s place stk rplace listed walked) {f : Frame α} {r : Addr}
    {next : Option Addr} (hpc : s.pc t = .deleteRecord f r next p) :
    Safe (s.deleteRecord t f r next) := by
  have hrec : s.records r = some ⟨p, next⟩ := h.records.current t r _ (by rw [hpc]; rfl)
  have hplace : place p = .retired r := (h.nodes.retired p r).mpr (by simp [recordData, hrec])
  obtain ⟨nd, hnd⟩ := h.nodes.exists_node (p := p) (by simp [hplace])
  have hnone := h.hazards.not_held (t := t) (p := p) (by rw [hpc]; rfl)
  rw [State.deleteRecord, State.accessRecord, hrec]
  dsimp only
  rw [State.access, hnd]
  obtain ⟨walked', hrecords⟩ : ∃ walked', Records ({ s with
      heap := Function.update s.heap p none
      records := Function.update s.records r none
      handed := Function.update s.handed p false }.goto t (.walk f next))
      (Function.update rplace r .free) listed walked' :=
    h.records.deleteRecord hpc (by rfl) (by rfl) (by rfl)
  refine ⟨_, stk, _, listed, walked',
    h.nodes.retire (t := t) (x := .walk f next) (p := p) .free none
      (Or.inr ⟨r, hplace⟩) (Or.inl rfl) rfl rfl rfl (by simp) (by simp [hpc, Pc.pushes]) rfl
      (by simp [hpc, Pc.unlinks]) (fun y r' => ?_), hrecords,
    h.hazards.memory (t := t) (x := .walk f next) rfl rfl rfl (by simp [Pc.needsSlot]) rfl rfl
      (by simp [Pc.scans]) (Place.fresh_update fun _ => Or.inr hnone)
      (Place.stacked_update (by simp) fun y hy => by simp [nextAt, hy]),
    h.running_update (t := t) (x := .walk f next) rfl (by simp), fun y => ?_⟩
  · have hold := h.nodes.retired y r'
    by_cases hy : y = p
    · subst y
      by_cases hr : r' = r
      · subst r'
        simp [recordData]
      · simpa [recordData, hr, Ne.symm hr, hplace] using hold
    · by_cases hr : r' = r
      · subst r'
        simpa [recordData, hy, hrec, Ne.symm hy] using hold
      · simpa [recordData, hy, hr] using hold
  · by_cases hy : y = p
    · subst y
      simp
    · simpa [hy] using h.handed y

end Inv
end Inv
end Sundries.LockFreeStackWithHp
