import Sundries.ThreadsafeQueue

/-!
# `threadsafe_queue` refines a FIFO queue

`Refines s a l tl` relates a state of the two-lock queue to a state of the
atomic FIFO queue: `l` are the nodes in front of the dummy node `tl`, their data
is the content of the abstract queue, and every thread is where its abstract
operation says.  Producers and consumers hold different mutexes; what keeps them
apart is that a producer writes the dummy node only, which is in front of no
one, and that a node taken out or not yet linked in belongs to one thread.
-/
namespace Sundries.ThreadsafeQueue

variable {Tid α : Type}

/-! ## The linked representation -/

/-- From `_head` the nodes `l` lead to the dummy node `tl`, which `_tail` points
to, and their data is `q`. -/
structure Shape (s : State Tid α) (l : List Addr) (tl : Addr) (q : List α) : Prop where
  chain : Segment (nextAt s.heap) s.head l (some tl)
  data : l.map (dataAt s.heap) = q.map some
  tail : s.tail = some tl
  dummy : s.heap tl = some ⟨none, none⟩

/-- The queue holds the values `q`. -/
def Holds (s : State Tid α) (q : List α) : Prop := ∃ l tl, Shape s l tl q

namespace Shape
variable {s : State Tid α} {l : List Addr} {tl : Addr} {q : List α}

/-- Every node in front of the dummy node holds a value. -/
theorem exists_data (h : Shape s l tl q) {a : Addr} (ha : a ∈ l) :
    ∃ v nx, s.heap a = some ⟨some v, nx⟩ := by
  have hmem : dataAt s.heap a ∈ q.map some := h.data ▸ List.mem_map_of_mem ha
  obtain ⟨v, -, hv⟩ := List.mem_map.mp hmem
  obtain ⟨nd, hnd, hd⟩ := Option.bind_eq_some_iff.mp hv.symm
  obtain ⟨data, nx⟩ := nd
  cases hd
  exact ⟨v, nx, hnd⟩

theorem tail_not_mem (h : Shape s l tl q) : tl ∉ l := by
  intro hmem
  obtain ⟨v, nx, hv⟩ := h.exists_data hmem
  rw [h.dummy] at hv
  cases hv

/-- The chain goes on to null through the dummy node, so no node occurs twice. -/
theorem nodup (h : Shape s l tl q) : (l ++ [tl]).Nodup := by
  have hend : nextAt s.heap tl = none := by simp [nextAt, h.dummy]
  exact (hend ▸ h.chain.concat).nodup

theorem length_eq (h : Shape s l tl q) : l.length = q.length := by
  simpa using congrArg List.length h.data

/-- The queue is empty exactly when `_head` and `_tail` are equal. -/
theorem head_eq_tail_iff (h : Shape s l tl q) : s.head = s.tail ↔ q = [] := by
  rw [h.tail, ← List.length_eq_zero_iff, ← h.length_eq, List.length_eq_zero_iff]
  constructor
  · intro hhead
    cases l with
    | nil => rfl
    | cons a l =>
      have hne : a ≠ tl := fun he => h.tail_not_mem (he ▸ List.mem_cons_self)
      have hcell : s.head = some a := h.chain.1
      rw [hhead] at hcell
      exact absurd (Option.some.inj hcell).symm hne
  · rintro rfl
    exact h.chain

/-- A state holds at most one content. -/
theorem unique {l' : List Addr} {tl' : Addr} {q' : List α} (h : Shape s l tl q)
    (h' : Shape s l' tl' q') : q = q' := by
  have htl : tl = tl' := Option.some.inj (h.tail.symm.trans h'.tail)
  subst tl'
  have hend : nextAt s.heap tl = none := by simp [nextAt, h.dummy]
  have hl := Segment.unique (hend ▸ h.chain.concat) (hend ▸ h'.chain.concat)
  have hl : l = l' := List.append_cancel_right hl
  subst l'
  exact List.map_injective_iff.mpr (Option.some_injective α) (h.data.symm.trans h'.data)

/-- The frame rule for the representation. -/
theorem congr {s' : State Tid α} (h : Shape s l tl q) (hhead : s'.head = s.head)
    (htail : s'.tail = s.tail) (hag : ∀ a, a ∈ l ∨ a = tl → s'.heap a = s.heap a) :
    Shape s' l tl q where
  chain := by
    rw [hhead]
    exact h.chain.congr fun a ha => by simp [nextAt, hag a (Or.inl ha)]
  data := by
    rw [← h.data]
    exact List.map_congr_left fun a ha => by simp [dataAt, hag a (Or.inl ha)]
  tail := htail.trans h.tail
  dummy := (hag tl (Or.inr rfl)).trans h.dummy

end Shape

/-! ## The refinement relation -/

/-- The node a thread owns outside the chain. -/
def Pc.owns : Pc α → Option Addr
  | .updateTail _ n => some n
  | .finish _ old _ => some old
  | _ => none

/-- The thread holds `_head_mutex`. -/
def Pc.holdsHead : Pc α → Bool
  | .evaluate _ | .fallAsleep _ | .popHead _ => true
  | _ => false

/-- The program point fits the phase of the abstract operation. -/
def Agrees (heap : Addr → Option (Node α)) :
    Pc α → Phase (ContainerOp α) (Reply α) → Prop
  | .idle, ph => ph = .idle
  | .updateTail v n, ph => heap n = some ⟨none, none⟩ ∧ ph = .pending (.push v)
  | .notify, ph => ∃ op, ph = .answered op .pushed
  | .lockHead c, ph | .evaluate c, ph | .popHead c, ph => ph = .pending (.pop c.waits)
  | .fallAsleep c, ph | .asleep c, ph => c.waits = true ∧ ph = .pending (.pop c.waits)
  | .finish c old moved, ph =>
    ∃ w, heap old = some ⟨some w, none⟩ ∧ (c.byRef = true → moved = some w) ∧
      ph = .answered (.pop c.waits) (.popped (some w))
  | .returnEmpty c, ph => c.waits = false ∧ ph = .answered (.pop c.waits) (.popped none)
  | .fault, _ => False

theorem Agrees.congr {heap heap' : Addr → Option (Node α)} {pc : Pc α}
    {ph : Phase (ContainerOp α) (Reply α)} (h : Agrees heap pc ph)
    (hag : ∀ n, pc.owns = some n → heap' n = heap n) : Agrees heap' pc ph := by
  cases pc with
  | updateTail v n => exact ⟨(hag n rfl).trans h.1, h.2⟩
  | finish c old moved =>
    obtain ⟨w, hw, hrest⟩ := h
    exact ⟨w, (hag old rfl).trans hw, hrest⟩
  | _ => exact h

/-- The queue's state and the abstract one, with the nodes `l` and the dummy
node `tl`. -/
structure Refines (s : State Tid α) (a : AtomicState Tid (List α) (ContainerOp α) (Reply α))
    (l : List Addr) (tl : Addr) : Prop extends Shape s l tl a.object where
  agrees : ∀ t, Agrees s.heap (s.pc t) (a.phase t)
  owned : ∀ t n, (s.pc t).owns = some n → n ∉ l ∧ n ≠ tl
  apart : ∀ t u n, (s.pc t).owns = some n → (s.pc u).owns = some n → t = u
  locked : ∀ t, (s.pc t).holdsHead = true → s.headMutex = some t
  found : ∀ t c, s.pc t = .popHead c → l ≠ []

/-- The relation the simulation keeps. -/
def Refinement (s : State Tid α) (a : AtomicState Tid (List α) (ContainerOp α) (Reply α)) :
    Prop := ∃ l tl, Refines s a l tl

variable [DecidableEq Tid]

section Goto
variable (s : State Tid α) (t : Tid) (pc : Pc α)

@[simp] theorem State.goto_heap : (s.goto t pc).heap = s.heap := rfl
@[simp] theorem State.goto_head : (s.goto t pc).head = s.head := rfl
@[simp] theorem State.goto_tail : (s.goto t pc).tail = s.tail := rfl
@[simp] theorem State.goto_headMutex : (s.goto t pc).headMutex = s.headMutex := rfl
@[simp] theorem State.goto_pc : (s.goto t pc).pc = Function.update s.pc t pc := rfl

end Goto

namespace Refines
variable {s : State Tid α} {a : AtomicState Tid (List α) (ContainerOp α) (Reply α)}
  {l : List Addr} {tl : Addr} {t : Tid}

omit [DecidableEq Tid] in
theorem agrees_of (h : Refines s a l tl) {y : Pc α} (hpc : s.pc t = y) :
    Agrees s.heap y (a.phase t) := hpc ▸ h.agrees t

omit [DecidableEq Tid] in
/-- While `t` holds `_head_mutex` no other thread does. -/
theorem holdsHead_unique (h : Refines s a l tl) (ht : (s.pc t).holdsHead = true) {u : Tid}
    (hu : (s.pc u).holdsHead = true) : u = t :=
  Option.some.inj ((h.locked u hu).symm.trans (h.locked t ht))

omit [DecidableEq Tid] in
/-- A node that some thread owns exists. -/
theorem exists_owned (h : Refines s a l tl) {n : Addr} (hn : (s.pc t).owns = some n) :
    s.heap n ≠ none := by
  have hag := h.agrees t
  cases hpc : s.pc t with
  | updateTail v n' =>
    rw [hpc] at hag hn
    cases hn
    simp [hag.1]
  | finish c old moved =>
    rw [hpc] at hag hn
    cases hn
    obtain ⟨w, hw, -⟩ := hag
    simp [hw]
  | _ =>
    rw [hpc] at hn
    cases hn

omit [DecidableEq Tid] in
/-- A node of the chain exists. -/
theorem exists_chain (h : Refines s a l tl) {n : Addr} (hn : n ∈ l ∨ n = tl) :
    s.heap n ≠ none := by
  rcases hn with hn | rfl
  · obtain ⟨v, nx, hv⟩ := h.exists_data hn
    simp [hv]
  · simp [h.dummy]

/-- **The frame rule for one step of `t`**: the relation survives if the new
nodes represent the new content, `t` fits its new phase, and what the other
threads own, hold and have found is left alone. -/
theorem change (h : Refines s a l tl) {s' : State Tid α} {x : Pc α}
    {ph : Phase (ContainerOp α) (Reply α)} {l' : List Addr} {tl' : Addr} {q' : List α}
    {g : List (Tid × ContainerOp α × Reply α)}
    (hpc : s'.pc = Function.update s.pc t x) (hshape : Shape s' l' tl' q')
    (hag : Agrees s'.heap x ph) (hown : ∀ n, x.owns = some n → n ∉ l' ∧ n ≠ tl')
    (hframe : ∀ u n, u ≠ t → (s.pc u).owns = some n →
      s'.heap n = s.heap n ∧ n ∉ l' ∧ n ≠ tl' ∧ x.owns ≠ some n)
    (hself : x.holdsHead = true → s'.headMutex = some t)
    (hother : ∀ u, u ≠ t → (s.pc u).holdsHead = true → s'.headMutex = some u)
    (hfound : ∀ c, x = .popHead c → l' ≠ [])
    (hfounds : ∀ u c, u ≠ t → s.pc u = .popHead c → l' ≠ []) :
    Refines s' ⟨q', Function.update a.phase t ph, g⟩ l' tl' where
  toShape := hshape
  agrees u := by
    rw [hpc]
    by_cases hu : u = t
    · subst u
      simpa using hag
    · simpa [hu] using (h.agrees u).congr fun n hn => (hframe u n hu hn).1
  owned u n := by
    rw [hpc]
    by_cases hu : u = t
    · subst u
      simpa using hown n
    · intro hn
      simp only [ne_eq, hu, not_false_eq_true, Function.update_of_ne] at hn
      exact ⟨(hframe u n hu hn).2.1, (hframe u n hu hn).2.2.1⟩
  apart u v n := by
    rw [hpc]
    by_cases hu : u = t
    · by_cases hv : v = t
      · exact fun _ _ => hu.trans hv.symm
      · subst u
        intro hx hn
        simp only [ne_eq, hv, not_false_eq_true, Function.update_of_ne, Function.update_self]
          at hx hn
        exact absurd hx (hframe v n hv hn).2.2.2
    · by_cases hv : v = t
      · subst v
        intro hn hx
        simp only [ne_eq, hu, not_false_eq_true, Function.update_of_ne, Function.update_self]
          at hx hn
        exact absurd hx (hframe u n hu hn).2.2.2
      · simpa [hu, hv] using h.apart u v n
  locked u := by
    rw [hpc]
    by_cases hu : u = t
    · subst u
      simpa using hself
    · simpa [hu] using hother u hu
  found u c := by
    rw [hpc]
    by_cases hu : u = t
    · subst u
      simpa using hfound c
    · simpa [hu] using hfounds u c hu

/-- A thread moves on without touching the nodes: only its own program point, its
phase and the lock are new. -/
theorem move (h : Refines s a l tl) {x : Pc α} {ph : Phase (ContainerOp α) (Reply α)}
    {m : Option Tid} {g : List (Tid × ContainerOp α × Reply α)} (hag : Agrees s.heap x ph)
    (howns : x.owns = none) (hself : x.holdsHead = true → m = some t)
    (hother : ∀ u, u ≠ t → (s.pc u).holdsHead = true → m = some u)
    (hfound : ∀ c, x = .popHead c → l ≠ []) :
    Refines ({ s with headMutex := m }.goto t x)
      ⟨a.object, Function.update a.phase t ph, g⟩ l tl := by
  refine h.change rfl (h.toShape.congr rfl rfl fun _ _ => rfl) hag ?_ ?_ hself hother hfound ?_
  · simp [howns]
  · intro u n _ hn
    exact ⟨rfl, (h.owned u n hn).1, (h.owned u n hn).2, by simp [howns]⟩
  · exact fun u c _ => h.found u c

/-- As `move`, with the lock left alone. -/
theorem moveOnly (h : Refines s a l tl) {x : Pc α} {ph : Phase (ContainerOp α) (Reply α)}
    {g : List (Tid × ContainerOp α × Reply α)} (hag : Agrees s.heap x ph)
    (howns : x.owns = none) (hself : x.holdsHead = true → s.headMutex = some t)
    (hfound : ∀ c, x = .popHead c → l ≠ []) :
    Refines (s.goto t x) ⟨a.object, Function.update a.phase t ph, g⟩ l tl :=
  h.move (m := s.headMutex) hag howns hself (fun u _ => h.locked u) hfound

omit [DecidableEq Tid] in
/-- A release of `_head_mutex` concerns no other thread. -/
theorem released (h : Refines s a l tl) (ht : (s.pc t).holdsHead = true) (m : Option Tid) :
    ∀ u, u ≠ t → (s.pc u).holdsHead = true → m = some u :=
  fun _ hne hu => absurd (h.holdsHead_unique ht hu) hne

/-- `push` makes its new dummy node outside the chain. -/
theorem push (h : Refines s a l tl) {n : Addr} (hn : s.heap n = none) (v : α) :
    Refines (s.push t v n) { a with phase := Function.update a.phase t (.pending (.push v)) }
      l tl := by
  have hout : n ∉ l ∧ n ≠ tl := by
    constructor
    · exact fun hmem => h.exists_chain (Or.inl hmem) hn
    · exact fun he => h.exists_chain (Or.inr he) hn
  have hsame : ∀ b, b ≠ n → (s.push t v n).heap b = s.heap b := fun b hb => by
    simp [State.push, hb]
  refine h.change rfl (h.toShape.congr rfl rfl ?_) ?_ ?_ ?_ ?_ ?_ ?_ ?_
  · rintro b (hb | rfl)
    · exact hsame b fun he => hout.1 (he ▸ hb)
    · exact hsame b hout.2.symm
  · exact ⟨by simp [State.push], rfl⟩
  · rintro b ⟨⟩
    exact hout
  · intro u b _ hb
    have hne : b ≠ n := fun he => h.exists_owned hb (he ▸ hn)
    exact ⟨hsame b hne, (h.owned u b hb).1, (h.owned u b hb).2, by
      simpa [Pc.owns] using hne.symm⟩
  · simp [Pc.holdsHead]
  · exact fun u _ hu => h.locked u hu
  · simp
  · exact fun u c _ => h.found u c

/-- `_tail` points to the dummy node, so the update of the tail finds it. -/
theorem updateTail_eq (h : Refines s a l tl) (v : α) (n : Addr) :
    s.updateTail t v n = { s with
      heap := Function.update s.heap tl (some ⟨some v, some n⟩), tail := some n }.goto t
      .notify := by
  simp [State.updateTail, deref, h.tail, h.dummy]

/-- The update of the tail fills the dummy node, which no other thread can
touch, and appends the new one. -/
theorem updateTail (h : Refines s a l tl) {v : α} {n : Addr}
    (hpc : s.pc t = .updateTail v n) {g : List (Tid × ContainerOp α × Reply α)} :
    Refines (s.updateTail t v n)
      ⟨a.object ++ [v], Function.update a.phase t (.answered (.push v) .pushed), g⟩
      (l ++ [tl]) n := by
  have hown : (s.pc t).owns = some n := by rw [hpc]; rfl
  have hn := h.owned t n hown
  have hag : Agrees s.heap (.updateTail v n) (a.phase t) := h.agrees_of hpc
  have hsame : ∀ b, b ≠ tl → Function.update s.heap tl (some ⟨some v, some n⟩) b = s.heap b :=
    fun b hb => Function.update_of_ne hb ..
  have hne : ∀ b ∈ l, b ≠ tl := fun b hb he => h.tail_not_mem (he ▸ hb)
  rw [h.updateTail_eq v n]
  refine h.change rfl ?_ ⟨_, rfl⟩ ?_ ?_ ?_ ?_ ?_ ?_
  · refine ⟨?_, ?_, rfl, ?_⟩
    · have hkept : Segment (nextAt (Function.update s.heap tl (some ⟨some v, some n⟩)))
          s.head l (some tl) :=
        h.chain.congr fun b hb => by simp [nextAt, hsame b (hne b hb)]
      have hlast : nextAt (Function.update s.heap tl (some ⟨some v, some n⟩)) tl = some n := by
        simp [nextAt]
      have hlong := hkept.concat
      rw [hlast] at hlong
      exact hlong
    · have hold : l.map (dataAt (Function.update s.heap tl (some ⟨some v, some n⟩))) =
          a.object.map some := by
        rw [← h.data]
        exact List.map_congr_left fun b hb => by simp [dataAt, hsame b (hne b hb)]
      simpa [dataAt] using hold
    · simpa [hsame n hn.2] using hag.1
  · simp [Pc.owns]
  · intro u b hu hb
    have hb' := h.owned u b hb
    have hbn : b ≠ n := fun he => hu (h.apart u t n (he ▸ hb) hown)
    exact ⟨hsame b hb'.2, by simp [hb'.1, hb'.2], hbn, by simp [Pc.owns]⟩
  · simp [Pc.holdsHead]
  · exact fun u _ hu => h.locked u hu
  · simp
  · simp

/-- A pop that found a node finds it at `_head`, with its data. -/
theorem popHead_eq (h : Refines s a l tl) {c : PopCall} (hpc : s.pc t = .popHead c) :
    ∃ old l' v q' nx, l = old :: l' ∧ a.object = v :: q' ∧ s.heap old = some ⟨some v, nx⟩ ∧
      s.popHead t c = { s with
        heap := Function.update s.heap old (some ⟨some v, none⟩)
        head := nx
        headMutex := none }.goto t (.finish c old (if c.byRef then some v else none)) := by
  obtain ⟨old, l', rfl⟩ := List.exists_cons_of_ne_nil (h.found t c hpc)
  obtain ⟨w, nx, hw⟩ := h.exists_data List.mem_cons_self
  obtain ⟨v, q', hq⟩ : ∃ v q', a.object = v :: q' :=
    List.exists_cons_of_length_pos (by rw [← h.length_eq]; simp)
  have hdata := h.data
  rw [hq] at hdata
  have hwv : w = v := by simpa [dataAt, hw] using (List.cons.inj hdata).1
  subst hwv
  refine ⟨old, l', w, q', nx, rfl, hq, hw, ?_⟩
  simp [State.popHead, deref, h.chain.1, hw]

/-- Taking the head node out: the node leaves the chain for the thread that took
it, with its data. -/
theorem popHead (h : Refines s a l tl) {c : PopCall} (hpc : s.pc t = .popHead c) :
    ∃ v q' l', a.object = v :: q' ∧ ∀ g, Refines (s.popHead t c)
      ⟨q', Function.update a.phase t (.answered (.pop c.waits) (.popped (some v))), g⟩ l' tl := by
  obtain ⟨old, l', w, q', nx, rfl, hq, hw, hstep⟩ := h.popHead_eq hpc
  obtain ⟨hhead, hchain⟩ := h.chain
  have hrest : l'.map (dataAt s.heap) = q'.map some := by
    have hdata := h.data
    rw [hq] at hdata
    exact (List.cons.inj hdata).2
  refine ⟨w, q', l', hq, fun g => ?_⟩
  have hnd := h.nodup
  simp only [List.cons_append, List.nodup_cons, List.mem_append, List.mem_singleton,
    not_or] at hnd
  obtain ⟨⟨hnot, hntl⟩, -⟩ := hnd
  have hsame : ∀ b, b ≠ old → Function.update s.heap old (some ⟨some w, none⟩) b = s.heap b :=
    fun b hb => Function.update_of_ne hb ..
  have hne : ∀ b ∈ l', b ≠ old := fun b hb he => hnot (he ▸ hb)
  have hholds : (s.pc t).holdsHead = true := by rw [hpc]; rfl
  rw [hstep]
  refine h.change rfl ?_ ?_ ?_ ?_ ?_ (h.released hholds _) ?_ ?_
  · -- what is left of the chain
    refine ⟨?_, ?_, h.tail, ?_⟩
    · have hnext : nextAt s.heap old = nx := by simp [nextAt, hw]
      rw [hnext] at hchain
      exact hchain.congr fun b hb => by simp [nextAt, hsame b (hne b hb)]
    · rw [← hrest]
      exact List.map_congr_left fun b hb => by simp [dataAt, hsame b (hne b hb)]
    · exact (hsame tl (Ne.symm hntl)).trans h.dummy
  · exact ⟨w, by simp, fun hr => by simp [hr], rfl⟩
  · rintro b ⟨⟩
    exact ⟨hnot, hntl⟩
  · intro u b hu hb
    have hb' := h.owned u b hb
    simp only [List.mem_cons, not_or] at hb'
    exact ⟨hsame b hb'.1.1, hb'.1.2, hb'.2, by simpa [Pc.owns] using Ne.symm hb'.1.1⟩
  · simp [Pc.holdsHead]
  · simp
  · -- nobody else has found the queue not empty: that takes the mutex
    intro u c' hu hpc'
    exact absurd (h.holdsHead_unique hholds (by rw [hpc']; rfl)) hu

/-- The returning pop destroys the node it took out, which nothing refers to. -/
theorem returnOld (h : Refines s a l tl) {c : PopCall} {old : Addr} {moved : Option α}
    (hpc : s.pc t = .finish c old moved) :
    Refines (s.returnOld t old) { a with phase := Function.update a.phase t .idle } l tl := by
  have hown : (s.pc t).owns = some old := by rw [hpc]; rfl
  have hold := h.owned t old hown
  have hsame : ∀ b, b ≠ old → (s.returnOld t old).heap b = s.heap b := fun b hb => by
    simp [State.returnOld, hb]
  refine h.change rfl (h.toShape.congr rfl rfl ?_) rfl ?_ ?_ ?_ ?_ ?_ ?_
  · rintro b (hb | rfl)
    · exact hsame b fun he => hold.1 (he ▸ hb)
    · exact hsame b hold.2.symm
  · simp [Pc.owns]
  · intro u b hu hb
    have hne : b ≠ old := fun he => hu (h.apart u t old (he ▸ hb) hown)
    exact ⟨hsame b hne, (h.owned u b hb).1, (h.owned u b hb).2, by simp [Pc.owns]⟩
  · simp [Pc.holdsHead]
  · exact fun u _ hu => h.locked u hu
  · simp
  · exact fun u c _ => h.found u c

end Refines

/-! ## The simulation -/

section Simulation
variable [Fintype Tid] {s s' : State Tid α}
  {a : AtomicState Tid (List α) (ContainerOp α) (Reply α)} {l : List Addr} {tl : Addr}

theorem refinement_init :
    Refinement (machine : Machine (State Tid α) (Label Tid α)).init (atomic fifo).init := by
  refine ⟨[], 0, ⟨⟨rfl, rfl, rfl, rfl⟩, fun _ => rfl, ?_, ?_, ?_, ?_⟩⟩ <;>
    simp [machine, Pc.owns, Pc.holdsHead]

omit [Fintype Tid] in
/-- A step without events that leaves the nodes alone. -/
theorem Refines.stay (h : Refines s a l tl) {t : Tid} {x : Pc α} {m : Option Tid}
    (hag : Agrees s.heap x (a.phase t)) (howns : x.owns = none)
    (hself : x.holdsHead = true → m = some t)
    (hother : ∀ u, u ≠ t → (s.pc u).holdsHead = true → m = some u)
    (hfound : ∀ c, x = .popHead c → l ≠ []) :
    Refines ({ s with headMutex := m }.goto t x) a l tl := by
  have := h.move (g := a.log) hag howns hself hother hfound
  rwa [AtomicState.update_phase_self rfl] at this

omit [Fintype Tid] in
/-- A notification moves the thread that sends it and the one it wakes. -/
theorem Refines.notifyOne (h : Refines s a l tl) {t u : Tid} {c : PopCall}
    (ht : s.pc t = .notify) (hu : s.pc u = .asleep c) :
    Refines ((s.goto t .idle).goto u (.lockHead c))
      { a with phase := Function.update a.phase t .idle } l tl := by
  have hne : u ≠ t := fun he => by rw [he, ht] at hu; cases hu
  have hag : Agrees s.heap (.asleep c) (a.phase u) := h.agrees_of hu
  have hsent : Refines (s.goto t .idle) { a with phase := Function.update a.phase t .idle } l tl :=
    h.moveOnly (x := .idle) rfl rfl (by simp [Pc.holdsHead]) (by simp)
  refine hsent.stay (m := s.headMutex) ?_ rfl (by simp [Pc.holdsHead])
    (fun v _ hv => hsent.locked v hv) (by simp)
  simpa [Agrees, hne] using hag.2

omit [Fintype Tid] in
/-- The comparison of `_head` with `get_tail()`: it takes effect only if it finds
no node and the call does not wait. -/
theorem Refines.evaluate (h : Refines s a l tl) {t : Tid} {c : PopCall}
    (hpc : s.pc t = .evaluate c) :
    ∃ a', (atomic fifo).run a (event s (.evaluate t)) = some a' ∧
      a'.object = a.object ∧ Refines (s.evaluate t c) a' l tl := by
  have hph : a.phase t = .pending (.pop c.waits) := h.agrees_of hpc
  have hholds : (s.pc t).holdsHead = true := by rw [hpc]; rfl
  by_cases hempty : s.head = s.tail
  · cases hw : c.waits with
    | true =>
      refine ⟨a, by simp [event, hpc, hempty, hw], rfl, ?_⟩
      rw [State.evaluate, if_pos hempty, hw]
      exact h.stay (m := s.headMutex) ⟨hw, hph⟩ rfl (fun _ => h.locked t hholds)
        (fun u _ => h.locked u) (by simp)
    | false =>
      have hnil : a.object = [] := h.head_eq_tail_iff.mp hempty
      have happ : fifo.apply a.object (.pop c.waits) = some (a.object, .popped none) := by
        rw [hnil, hw]
        rfl
      have hev : event s (.evaluate t) = [.linearize t] := by simp [event, hpc, hempty, hw]
      have hag : Agrees s.heap (.returnEmpty c) (.answered (.pop c.waits) (.popped none)) :=
        ⟨hw, rfl⟩
      refine ⟨⟨a.object, Function.update a.phase t (.answered (.pop c.waits) (.popped none)),
        a.log ++ [(t, .pop c.waits, .popped none)]⟩, ?_, rfl, ?_⟩
      · rw [hev]
        exact (Machine.run_singleton ..).trans (atomic_linearize hph happ)
      · have hgone : s.evaluate t c = { s with headMutex := none }.goto t (.returnEmpty c) := by
          simp [State.evaluate, hempty, hw]
        rw [hgone]
        exact h.move (m := none) hag rfl (by simp [Pc.holdsHead]) (h.released hholds _) (by simp)
  · refine ⟨a, by simp [event, hpc, hempty], rfl, ?_⟩
    rw [State.evaluate, if_neg hempty]
    refine h.stay (m := s.headMutex) hph rfl (fun _ => h.locked t hholds) (fun u _ => h.locked u)
      ?_
    rintro _ - rfl
    exact hempty (h.head_eq_tail_iff.mpr (List.length_eq_zero_iff.mp h.length_eq.symm))

/-- Every step of the queue is read by the atomic FIFO queue. -/
theorem refinement_step (hR : Refinement s a) {lab : Label Tid α}
    (hstep : machine.step s lab = some s') :
    ∃ a', (atomic fifo).run a (event s lab) = some a' ∧ Refinement s' a' := by
  obtain ⟨l, tl, h⟩ := hR
  cases moves_of_step hstep with
  | push t v n hpc hn =>
    have hph : a.phase t = .idle := h.agrees_of hpc
    exact ⟨_, (Machine.run_singleton ..).trans (atomic_invoke hph), l, tl, h.push hn v⟩
  | updateTail t v n hpc =>
    have hph : a.phase t = .pending (.push v) := (h.agrees_of hpc).2
    exact ⟨_, (Machine.run_singleton ..).trans (atomic_linearize hph rfl), _, _,
      h.updateTail hpc⟩
  | notifyOne t u c hpc hu =>
    obtain ⟨op, hph⟩ : ∃ op, a.phase t = .answered op .pushed := h.agrees_of hpc
    exact ⟨_, (Machine.run_singleton ..).trans (atomic_respond hph), l, tl, h.notifyOne hpc hu⟩
  | notifyNone t hpc =>
    obtain ⟨op, hph⟩ : ∃ op, a.phase t = .answered op .pushed := h.agrees_of hpc
    exact ⟨_, (Machine.run_singleton ..).trans (atomic_respond hph), l, tl,
      h.moveOnly (x := .idle) rfl rfl (by simp [Pc.holdsHead]) (by simp)⟩
  | pop t c hpc =>
    have hph : a.phase t = .idle := h.agrees_of hpc
    exact ⟨_, (Machine.run_singleton ..).trans (atomic_invoke hph), l, tl,
      h.moveOnly (x := .lockHead c) rfl rfl (by simp [Pc.holdsHead]) (by simp)⟩
  | lockHead t c hpc hfree =>
    have hph : a.phase t = .pending (.pop c.waits) := h.agrees_of hpc
    refine ⟨a, rfl, l, tl, h.stay (m := some t) hph rfl (fun _ => rfl) ?_ (by simp)⟩
    intro u _ hu
    have := h.locked u hu
    rw [hfree] at this
    cases this
  | evaluate t c hpc =>
    obtain ⟨a', hrun, -, h'⟩ := h.evaluate hpc
    exact ⟨a', hrun, l, tl, h'⟩
  | fallAsleep t c hpc =>
    have hag : Agrees s.heap (.fallAsleep c) (a.phase t) := h.agrees_of hpc
    have hholds : (s.pc t).holdsHead = true := by rw [hpc]; rfl
    exact ⟨a, rfl, l, tl, h.stay (m := none) hag rfl (by simp [Pc.holdsHead])
      (h.released hholds _) (by simp)⟩
  | popHead t c hpc =>
    have hph : a.phase t = .pending (.pop c.waits) := h.agrees_of hpc
    obtain ⟨v, q', l', hq, hR⟩ := h.popHead hpc
    have happ : fifo.apply a.object (.pop c.waits) = some (q', .popped (some v)) := by
      rw [hq]
      rfl
    exact ⟨_, (Machine.run_singleton ..).trans (atomic_linearize hph happ), l', tl, hR _⟩
  | finish t c old moved hpc =>
    obtain ⟨w, hw, hmoved, hph⟩ := h.agrees_of hpc
    have hres : s.result t = some w := by
      cases hr : c.byRef <;> simp_all [State.result, dataAt]
    refine ⟨_, ?_, l, tl, h.returnOld hpc⟩
    simp only [event, hres]
    exact (Machine.run_singleton ..).trans (atomic_respond hph)
  | returnEmpty t c hpc =>
    obtain ⟨-, hph⟩ := h.agrees_of hpc
    have hres : s.result t = none := by simp [State.result, hpc]
    refine ⟨{ a with phase := Function.update a.phase t .idle }, ?_, l, tl,
      h.moveOnly (x := .idle) rfl rfl (by simp [Pc.holdsHead]) (by simp)⟩
    simp only [event, hres]
    exact (Machine.run_singleton ..).trans (atomic_respond hph)

/-- **The two-lock queue is simulated by the atomic FIFO queue.** -/
theorem simulation :
    Machine.Simulation (machine : Machine (State Tid α) (Label Tid α)) (atomic fifo) event
      Refinement where
  init := refinement_init
  step _ _ _ _ hR hstep := refinement_step hR hstep

/-! ## What the refinement gives -/

omit [DecidableEq Tid] [Fintype Tid] in
theorem Refinement.not_fault (hR : Refinement s a) (t : Tid) : s.pc t ≠ .fault := by
  obtain ⟨l, tl, h⟩ := hR
  exact fun hpc => h.agrees_of hpc

omit [Fintype Tid] in
/-- A `try_pop` fails exactly if the abstract queue is empty when it reads the
tail. -/
theorem Refinement.tryPop_fails_iff (hR : Refinement s a) {t : Tid} {c : PopCall}
    (hw : c.waits = false) : (s.evaluate t c).pc t = .returnEmpty c ↔ a.object = [] := by
  obtain ⟨l, tl, h⟩ := hR
  rw [← h.head_eq_tail_iff]
  by_cases hempty : s.head = s.tail <;> simp [State.evaluate, hempty, hw]

omit [DecidableEq Tid] [Fintype Tid] in
/-- A pop that took a node out hands back the value its removal took from the
abstract queue. -/
theorem Refinement.result_eq (hR : Refinement s a) {t : Tid} {c : PopCall} {old : Addr}
    {moved : Option α} (hpc : s.pc t = .finish c old moved) :
    ∃ v, s.result t = some v ∧ a.phase t = .answered (.pop c.waits) (.popped (some v)) := by
  obtain ⟨l, tl, h⟩ := hR
  obtain ⟨w, hw, hmoved, hph⟩ := h.agrees_of hpc
  refine ⟨w, ?_, hph⟩
  cases hr : c.byRef <;> simp_all [State.result, dataAt]

/-- **`threadsafe_queue` is a FIFO queue under every interleaving.**  The events
of any run are a run of the atomic queue, and at its end: the chain from `_head`
reaches the dummy node, its data being the content of the abstract queue; the
values pushed, in the order of the tail updates, are the values popped, in the
order of the removals, followed by that content; each thread's pops return the
answers of their removals, so no value is delivered more often than it was
pushed; a `try_pop` finds no node exactly if the abstract queue is empty when it
reads the tail, and a pop that found one returns its value; and no null pointer
has been followed. -/
theorem refines_fifo (ls : List (Label Tid α)) (s : State Tid α)
    (h : machine.run machine.init ls = some s) :
    ∃ a, (atomic fifo).run (atomic fifo).init (machine.trace event machine.init ls) = some a ∧
      Holds s a.object ∧
      pushes a.history = pops a.history ++ a.object ∧
      (∀ t, a.answersOf t = responsesOf t (machine.trace event machine.init ls) ++
        (a.phase t).answer) ∧
      (delivered (machine.trace event machine.init ls)).Subperm (pushes a.history) ∧
      (∀ t c, s.pc t = .evaluate c → c.waits = false →
        ((s.evaluate t c).pc t = .returnEmpty c ↔ a.object = [])) ∧
      (∀ t c, s.pc t = .popHead c → a.object ≠ []) ∧
      (∀ t c old moved, s.pc t = .finish c old moved →
        ∃ v, s.result t = some v ∧ a.phase t = .answered (.pop c.waits) (.popped (some v))) ∧
      ∀ t, s.pc t ≠ .fault := by
  obtain ⟨a, hrun, hR⟩ := simulation.run h
  have hlegal : fifo.Legal [] a.history a.object := atomic_legal (Machine.reachable_of_run _ hrun)
  have horder : pushes a.history = pops a.history ++ a.object := fifo_order hlegal
  have hholds : Holds s a.object := by
    obtain ⟨l, tl, hRef⟩ := hR
    exact ⟨l, tl, hRef.toShape⟩
  refine ⟨a, hrun, hholds, horder, atomic_responses hrun, ?_,
    fun t c _ hw => hR.tryPop_fails_iff hw, ?_, fun t c old moved => hR.result_eq, hR.not_fault⟩
  · rw [horder]
    exact (delivered_subperm hrun).trans (List.sublist_append_left _ _).subperm
  · intro t c hpc hnil
    obtain ⟨l, tl, hRef⟩ := hR
    refine hRef.found t c hpc (List.length_eq_zero_iff.mp ?_)
    rw [hRef.length_eq, hnil, List.length_nil]

end Simulation

/-- Thread a pushes 7 while thread b tries to pop, first too early. -/
def pushAndTryPop : List (Label Two Nat) :=
  [.push .a 7 1, .pop .b .tryPop, .lockHead .b, .evaluate .b, .updateTail .a, .finish .b,
    .notifyOne .a none, .pop .b .tryPopRef, .lockHead .b, .evaluate .b, .popHead .b, .finish .b]

theorem pushAndTryPop_refines_fifo :
    ∃ s, machine.run machine.init pushAndTryPop = some s ∧
      ∃ a, (atomic fifo).run (atomic fifo).init
          (machine.trace event machine.init pushAndTryPop) = some a ∧
        Holds s a.object ∧ pushes a.history = pops a.history ++ a.object := by
  obtain ⟨a, hrun, hholds, horder, -⟩ := refines_fifo pushAndTryPop _ rfl
  exact ⟨_, rfl, a, hrun, hholds, horder⟩

end Sundries.ThreadsafeQueue
