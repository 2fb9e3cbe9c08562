import Sundries.LockFreeStackPlaces

/-!
# Reclamation in `lock_free_stack`

A thread that has read `_head` may follow the pointer later, when the node has
long been unlinked; until then it is counted in `_threads_in_pop`.  A node is
unlinked before the count that dooms it is read, and nobody can come upon it
after that: so if the count shows that no other thread is in `pop`, no thread
will touch the node again, and it may be deleted (`Refines.doomed`).
-/
namespace Sundries.LockFreeStack

variable {Tid α : Type} [Fintype Tid]

section Refines
variable {s s' : State Tid α} {a a' : AtomicState Tid (List α) (ContainerOp α) (Reply α)}
  {place place' : Addr → Place Tid} {l l' lp lp' : List Addr} {t : Tid} {p : Addr} {x : Pc α}
  {z : Phase (ContainerOp α) (Reply α)}

namespace Refines
variable [DecidableEq Tid]

omit [DecidableEq Tid] in
theorem agrees_of (h : Refines s a place l lp) {y : Pc α} (hpc : s.pc t = y) :
    Agrees place s.heap y (a.phase t) := hpc ▸ h.agrees t

/-! ## Pushing -/

omit [DecidableEq Tid] in
/-- An address that is not free has a node. -/
theorem exists_node (h : Refines s a place l lp) (hp : place p ≠ .free) :
    ∃ nd, s.heap p = some nd :=
  Option.ne_none_iff_exists'.mp fun hnone => hp ((h.free p).mpr hnone)

omit [DecidableEq Tid] in
theorem exists_pushed (h : Refines s a place l lp) (hpush : (s.pc t).pushes = some p) :
    place p = .pushing t ∧ ∃ nd, s.heap p = some nd := by
  have hplace := (h.pushing p t).mpr hpush
  exact ⟨hplace, h.exists_node (by simp [hplace])⟩

omit [DecidableEq Tid] in
/-- A thread that has no unlinked node in hand. -/
theorem not_unlinked (h : Refines s a place l lp)
    (howns : ∀ lt, Owns (nextAt s.heap) (s.pc t) lt → lt = []) (y : Addr) :
    place y ≠ .unlinked t := by
  obtain ⟨lt, hown, -, hlt⟩ := h.unlinked t
  intro hy
  have := (hlt y).mp hy
  rw [howns lt hown] at this
  cases this

theorem push (h : Refines s a place l lp) (hpc : s.pc t = .idle) (hfree : s.heap p = none) (v : α) :
    Refines (s.push t v p) ⟨a.object, Function.update a.phase t (.pending (.push v)), a.log⟩
      (Function.update place p (.pushing t)) l lp := by
  have hplace : place p = .free := (h.free p).mpr hfree
  have hnone : ∀ y, place y ≠ .unlinked t := h.not_unlinked (by simp [hpc, Owns])
  have hne : ∀ y ∈ l, y ≠ p := fun y hy he => by
    have := (h.stacked y).mpr hy
    rw [he, hplace] at this
    cases this
  refine h.changeOne (x := .pushLoad p) (t := t) _ rfl rfl rfl rfl rfl (by simp [hpc, Pc.inPop])
    (by simp [hplace]) (by simp +contextual [eq_comm]) (by simp) ?_ ?_ ?_
    ⟨[], rfl, List.nodup_nil, ?_⟩ (by simp [hplace, Place.fresh]) rfl (by simp [Pc.dooms]) (by simp)
    ⟨v, by simp [State.push, State.goto, dataAt], rfl⟩
  · refine h.stack.congr (fun y hy => ?_) (fun y hy => ?_)
    · simp [State.push, State.goto, nextAt, hne y hy]
    · simp [State.push, State.goto, dataAt, hne y hy]
  · intro y
    by_cases hy : y = p
    · subst y
      simpa [hplace] using h.stacked p
    · simpa [hy] using h.stacked y
  · intro y
    by_cases hy : y = p
    · subst y
      simp [Pc.pushes]
    · simpa [hy, Ne.symm hy, hpc, Pc.pushes] using h.pushing y t
  · intro y
    by_cases hy : y = p
    · subst y
      simp
    · simpa [hy] using hnone y

/-- The exchange of `push` succeeds. -/
theorem publish (h : Refines s a place l lp) (hpc : s.pc t = .pushCas p s.head) {v : α}
    (hv : dataAt s.heap p = some v) (hnext : nextAt s.heap p = s.head) {log} :
    Refines ({ s with head := some p }.goto t .idle)
      ⟨v :: a.object, Function.update a.phase t .idle, log⟩
      (Function.update place p .stacked) (p :: l) lp := by
  obtain ⟨hplace, nd, hnd⟩ := h.exists_pushed (t := t) (p := p) (by simp [hpc, Pc.pushes])
  have hnone : ∀ y, place y ≠ .unlinked t := h.not_unlinked (by simp [hpc, Owns])
  refine h.changeOne (t := t) (x := .idle) (s.heap p) rfl rfl
    (Function.update_eq_self ..).symm rfl rfl (by simp [hpc, Pc.inPop])
    (by simp +contextual [hplace, eq_comm]) (by simp) (by simp [hnd])
    (LinkedStack.push (hnext ▸ h.stack) hv) ?_ ?_ ⟨[], rfl, List.nodup_nil, ?_⟩
    (by simp [Place.fresh]) rfl (by simp [Pc.dooms]) (by simp [hplace, Place.fresh]) rfl
  · intro y
    by_cases hy : y = p
    · subst y
      simp
    · simpa [hy] using h.stacked y
  · intro y
    by_cases hy : y = p
    · subst y
      simp [Pc.pushes]
    · simpa [hy, Ne.symm hy, hpc, Pc.pushes] using h.pushing y t
  · intro y
    by_cases hy : y = p
    · subst y
      simp
    · simpa [hy] using hnone y

/-! ## Unlinking -/

/-- `_head` is read by a pop: a null pointer ends the loop. -/
theorem readHead (h : Refines s a place l lp) (hin : (s.pc t).inPop = true)
    (hpushes : (s.pc t).pushes = none)
    (howns : ∀ lt, Owns (nextAt s.heap) (s.pc t) lt → lt = []) (hobj : a'.object = a.object)
    (hph : a'.phase = Function.update a.phase t
      (if s.head = none then .answered (.pop false) (.popped none) else .pending (.pop false))) :
    Refines (s.goto t (Pc.popLoop s.head)) a' place l lp := by
  cases hhead : s.head with
  | none =>
    rw [hhead, if_pos rfl] at hph
    exact h.move (t := t) rfl hph rfl rfl rfl hobj (by rw [hin]; rfl) (by rw [hpushes]; rfl) howns
      (by simp [Pc.popLoop, Pc.holds]) (by simp [Pc.popLoop, Pc.dooms]) rfl
  | some p =>
    rw [hhead, if_neg (by simp)] at hph
    refine h.move (t := t) rfl hph rfl rfl rfl hobj (by rw [hin]; rfl) (by rw [hpushes]; rfl) howns ?_
      (by simp [Pc.popLoop, Pc.dooms]) rfl
    rintro y ⟨⟩
    -- the node read is the first of the stack
    obtain ⟨l', v, q', rfl, -⟩ := (hhead ▸ h.stack).pop
    exact Or.inr ((h.stacked p).mpr List.mem_cons_self)

/-- The events of that: a null pointer is where the pop takes effect. -/
theorem readHead_refinement (h : Refines s a place l lp) (hin : (s.pc t).inPop = true)
    (hpushes : (s.pc t).pushes = none)
    (howns : ∀ lt, Owns (nextAt s.heap) (s.pc t) lt → lt = [])
    (hph : a.phase t = .pending (.pop false)) {lab : Label Tid α}
    (hev : event s lab = if s.head = none then [.linearize t] else []) :
    ∃ a', (atomic lifo).run a (event s lab) = some a' ∧
      Refinement (s.goto t (Pc.popLoop s.head)) a' := by
  by_cases hhead : s.head = none
  · have hobj : a.object = [] := (hhead ▸ h.stack).eq_nil_of_none.2
    rw [hev, if_pos hhead]
    exact ⟨_, lifo_pop_empty hph hobj, place, l, lp,
      h.readHead hin hpushes howns hobj.symm (by rw [if_pos hhead])⟩
  · rw [hev, if_neg hhead]
    refine ⟨a, rfl, place, l, lp, h.readHead hin hpushes howns rfl ?_⟩
    rw [if_neg hhead, ← hph, Function.update_eq_self]

/-- A pop reads the `next` of a node it has read from `_head`. -/
theorem popReadNext (h : Refines s a place l lp) (hpc : s.pc t = .popReadNext p) :
    Refines (s.readNext t (some p) (.popCas p)) a place l lp := by
  have hheld := h.held t p (by simp [hpc, Pc.holds])
  obtain ⟨nd, hnd⟩ := h.exists_node (p := p) fun hfree => by simp [hfree, Place.fresh] at hheld
  have hph : a.phase t = .pending (.pop false) := h.agrees_of hpc
  rw [State.readNext, State.access_node hnd]
  exact h.move (t := t) (x := .popCas p nd.next) (z := a.phase t) rfl
    (Function.update_eq_self ..).symm rfl rfl rfl rfl (by simp [State.goto, hpc, Pc.inPop])
    (by simp [hpc, Pc.pushes]) (by simp [hpc, Owns]) (by simp [hpc, Pc.holds]) (by simp [Pc.dooms])
    ⟨fun _ => by simp [nextAt, hnd], hph⟩

/-- The exchange of `pop` succeeds: the node whose `next` has been read is first
in the stack, and was so all the time, since it has not been freed meanwhile. -/
theorem unlink (h : Refines s a place l lp) {next : Option Addr} (hpc : s.pc t = .popCas p next)
    (hhead : s.head = some p) :
    ∃ v q' l', a.object = v :: q' ∧ ∀ log,
      Refines ({ s with head := next }.goto t (.popSwap p))
        ⟨q', Function.update a.phase t (.answered (.pop false) (.popped (some v))), log⟩
        (Function.update place p (.unlinked t)) l' lp := by
  obtain ⟨l', v, q', rfl, hobj, hv, hrest⟩ := (hhead ▸ h.stack).pop
  have hplace : place p = .stacked := (h.stacked p).mpr List.mem_cons_self
  have hag := h.agrees_of hpc
  have hnext : nextAt s.heap p = next := hag.1 hplace
  have hnone : ∀ y, place y ≠ .unlinked t := h.not_unlinked (by simp [hpc, Owns])
  obtain ⟨nd, hnd⟩ := h.exists_node (p := p) (by simp [hplace])
  refine ⟨v, q', l', hobj, fun log => h.changeOne (t := t) (s.heap p) rfl rfl
    (Function.update_eq_self ..).symm rfl rfl (by simp [hpc, Pc.inPop]) (by simp [hplace])
    (by simp +contextual [eq_comm]) (by simp [hnd]) (hnext ▸ hrest) ?_ ?_
    ⟨[p], rfl, List.nodup_singleton p, ?_⟩ (by simp [Place.fresh]) rfl (by simp [Pc.dooms])
    (by simp) ⟨v, hv, rfl⟩⟩
  · intro y
    by_cases hy : y = p
    · subst y
      simpa using (List.nodup_cons.mp h.stack.nodup).1
    · have := h.stacked y
      simpa [hy] using this
  · intro y
    by_cases hy : y = p
    · subst y
      simp [Pc.pushes]
    · simpa [hy, hpc, Pc.pushes] using h.pushing y t
  · intro y
    by_cases hy : y = p
    · subst y
      simp
    · simpa [hy] using hnone y

/-- The data of the unlinked node is taken. -/
theorem swapData (h : Refines s a place l lp) (hpc : s.pc t = .popSwap p) :
    Refines (s.swapData t p) a place l lp := by
  have hplace := h.unlinked_of_swap hpc
  obtain ⟨nd, hnd⟩ := h.exists_node (p := p) (by simp [hplace])
  obtain ⟨v, hv, hph⟩ := h.agrees_of hpc
  have hdata : nd.data = some v := by simpa [dataAt, hnd] using hv
  rw [State.swapData, State.access_node hnd]
  refine h.write (t := t) (p := p) (x := .testCount ⟨some p, nd.data⟩) (z := a.phase t)
    (Or.inr hplace) rfl (Function.update_eq_self ..).symm rfl rfl rfl rfl rfl
    (by simp [hpc, Pc.inPop]) (by simp [hpc, Pc.pushes]) ?_ rfl (by simp [Pc.dooms]) ?_
  · intro lt _ hown
    rw [hpc] at hown
    exact hown
  · rw [hdata]
    exact hph

/-! ## Reclaiming -/

/-- If only one thread is in `pop` and it holds no node, nobody does. -/
theorem not_held_of_alone (h : Refines s a place l lp) (hone : s.threadsInPop = 1)
    (hin : (s.pc t).inPop = true) (hnone : (s.pc t).holds = none) (u : Tid) (y : Addr) :
    (s.pc u).holds ≠ some y := by
  intro hu
  have hinu : (s.pc u).inPop = true := by
    cases hpc : s.pc u <;> rw [hpc] at hu <;> first | rfl | cases hu
  have htally : tally s.pc Pc.inPop = 1 := h.counted.symm.trans hone
  rw [eq_of_tally_eq_one htally hinu hin, hnone] at hu
  cases hu

/-- `try_reclaim` reads the count: if the pop is alone, its node is doomed. -/
theorem testCount (h : Refines s a place l lp) {f : Frame α} (hpc : s.pc t = .testCount f) :
    Refines (s.testCount t f) a place l lp := by
  have hph := h.agrees_of hpc
  by_cases hone : s.threadsInPop = 1
  · rw [State.testCount, if_pos hone]
    refine h.move (t := t) (x := .exchange f) rfl (Function.update_eq_self ..).symm rfl rfl rfl rfl
      (by simp [State.goto, hpc, Pc.inPop]) (by simp [hpc, Pc.pushes]) (by simp [hpc, Owns])
      (by simp [Pc.holds]) ?_ hph
    intro y _ _
    exact Or.inr fun u => h.not_held_of_alone hone (t := t) (by simp [hpc, Pc.inPop])
      (by simp [hpc, Pc.holds]) u y
  · rw [State.testCount, if_neg hone]
    refine h.move (t := t) (x := .pendLoad f .leave f.oldHead f.oldHead) rfl
      (Function.update_eq_self ..).symm rfl rfl rfl rfl (by simp [State.goto, hpc, Pc.inPop])
      (by simp [hpc, Pc.pushes]) ?_ (by simp [Pc.holds]) (by simp [Pc.dooms]) hph
    intro lt hown
    rw [hpc] at hown
    have hlt : lt = f.oldHead.toList := hown
    cases hold : f.oldHead with
    | none => exact ⟨[], Or.inl ⟨rfl, rfl, rfl, rfl⟩, by simp [hlt, hold, After.keeps]⟩
    | some b => exact ⟨[b], Or.inr ⟨[], b, rfl, rfl, rfl⟩, by simp [hlt, hold, After.keeps]⟩

/-- The pending nodes pass into the hands of the thread. -/
theorem exchange (h : Refines s a place l lp) {f : Frame α} (hpc : s.pc t = .exchange f) :
    Refines ({ s with toBeDeleted := none }.goto t (.decrement f s.toBeDeleted)) a
      (fun y => if y ∈ lp then .unlinked t else place y) l [] := by
  have hph := h.agrees_of hpc
  obtain ⟨lt, hown, hnodup, hlt⟩ := h.unlinked t
  rw [hpc] at hown
  have hlt' : lt = f.oldHead.toList := hown
  subst hlt'
  refine h.change (t := t) (x := .decrement f s.toBeDeleted) rfl (Function.update_eq_self ..).symm
    (by simp [State.goto, hpc, Pc.inPop]) h.stack ?_ rfl ?_ ?_ ?_ (fun _ _ _ _ => rfl) ?_
    ⟨f.oldHead.toList ++ lp, ⟨lp, h.pending, rfl⟩, ?_, ?_⟩ ?_ (by simp [Pc.holds]) ?_ ?_ hph
  · intro y
    by_cases hy : y ∈ lp
    · simpa [hy, (h.pended y).mpr hy] using h.stacked y
    · simpa [hy] using h.stacked y
  · intro y
    by_cases hy : y ∈ lp
    · simp [hy]
    · simpa [hy] using h.pended y
  · intro y
    by_cases hy : y ∈ lp
    · simpa [State.goto, hy, (h.pended y).mpr hy] using h.free y
    · simpa [State.goto, hy] using h.free y
  · intro y u hut
    by_cases hy : y ∈ lp
    · simp [hy, (h.pended y).mpr hy, Ne.symm hut]
    · simp [hy]
  · intro y
    by_cases hy : y ∈ lp
    · simp [hy, Pc.pushes]
    · simpa [hy, hpc, Pc.pushes] using h.pushing y t
  · -- a pending node was in nobody's hands
    refine List.nodup_append.mpr ⟨hnodup, h.pending.nodup, ?_⟩
    rintro y hy z hz rfl
    have hplace := (hlt y).mpr hy
    rw [(h.pended y).mpr hz] at hplace
    cases hplace
  · intro y
    by_cases hy : y ∈ lp
    · simp [hy]
    · simpa [hy] using hlt y
  · intro y hfresh
    by_cases hy : y ∈ lp
    · simp [hy, Place.fresh] at hfresh
    · exact Or.inl (by simpa [hy] using hfresh)
  · intro y hy hdoom
    have hold : f.oldHead = some y := hdoom
    have hplace : place y = .unlinked t := (hlt y).mpr (by simp [hold])
    exact ⟨by simp [hplace], h.doomed t y hplace (by rw [hpc]; exact hold)⟩
  · intro y hst
    by_cases hy : y ∈ lp
    · simp [hy] at hst
    · exact Or.inr ⟨by simpa [hy] using hst, rfl⟩

/-- The pop leaves: if it was the last one inside, all nodes in its hands are
doomed. -/
theorem decrement (h : Refines s a place l lp) {f : Frame α} {nodes : Option Addr}
    (hpc : s.pc t = .decrement f nodes) : Refines (s.decrement t f nodes) a place l lp := by
  have hph := h.agrees_of hpc
  have hin : (s.pc t).inPop = true := by simp [hpc, Pc.inPop]
  have hpos : 0 < s.threadsInPop := h.counted ▸ tally_pos_of hin
  by_cases hone : s.threadsInPop - 1 = 0
  · rw [State.decrement, if_pos hone]
    refine h.move (t := t) (x := Pc.deleteLoop f nodes) rfl (Function.update_eq_self ..).symm rfl
      rfl rfl rfl ?_ (by rw [hpc, Pc.deleteLoop_pushes]; rfl) ?_ (by simp) ?_
      (Agrees.deleteLoop hph nodes)
    · simp only [State.goto, hin, Pc.deleteLoop_inPop, Bool.toNat_true, Bool.toNat_false]
      omega
    · intro lt hown
      rw [hpc] at hown
      obtain ⟨g, hseg, rfl⟩ := hown
      exact owns_deleteLoop f hseg
    · intro y _ _
      exact Or.inr fun u => h.not_held_of_alone (by omega) hin (by simp [hpc, Pc.holds]) u y
  · rw [State.decrement, if_neg hone]
    refine h.move (t := t) (x := Pc.rechain f nodes) rfl (Function.update_eq_self ..).symm rfl
      rfl rfl rfl ?_ (by rw [hpc, Pc.rechain_pushes]; rfl) ?_ (by simp) ?_ (Agrees.rechain hph nodes)
    · simp only [State.goto, hin, Pc.rechain_inPop, Bool.toNat_true, Bool.toNat_false]
      omega
    · intro lt hown
      rw [hpc] at hown
      obtain ⟨g, hseg, rfl⟩ := hown
      exact owns_rechain f hseg
    · intro y _ hdoom
      rw [hpc]
      exact Or.inl (Pc.dooms_rechain.mp hdoom)

/-- A doomed node is deleted. -/
theorem release (h : Refines s a place l lp) {nd : Node α} (hnd : s.heap p = some nd)
    (hplace : place p = .unlinked t) (hdoom : (s.pc t).dooms p)
    (hpushes : (s.pc t).pushes = none) (hx : x.pushes = none) (hin : x.inPop = (s.pc t).inPop)
    (howns : ∀ lt, lt.Nodup → Owns (nextAt s.heap) (s.pc t) lt →
      ∃ lt', lt.Perm (p :: lt') ∧ Owns (nextAt (Function.update s.heap p none)) x lt')
    (hholds : x.holds = none) (hdooms : ∀ y, x.dooms y → (s.pc t).dooms y)
    (hagrees : Agrees (Function.update place p .free) (Function.update s.heap p none) x
      (a.phase t)) :
    Refines (s.delete t (some p) x) a (Function.update place p .free) l lp := by
  have hne : ∀ y ∈ l, y ≠ p := fun y hy he => by
    have := (h.stacked y).mpr hy
    rw [he, hplace] at this
    cases this
  obtain ⟨lt, hown, hnodup, hlt⟩ := h.unlinked t
  obtain ⟨lt', hperm, hown'⟩ := howns lt hnodup hown
  obtain ⟨hpl, hnodup'⟩ := List.nodup_cons.mp (hperm.nodup_iff.mp hnodup)
  rw [State.delete, State.access_node hnd]
  refine h.changeOne (t := t) none rfl (Function.update_eq_self ..).symm rfl rfl rfl hin
    (by simp +contextual [hplace, eq_comm]) (by simp) (by simp) ?_ ?_ ?_ ⟨lt', hown', hnodup', ?_⟩
    (fun _ => Or.inr ⟨hplace, hdoom⟩) hholds ?_ (by simp) hagrees
  · refine h.stack.congr (fun y hy => ?_) (fun y hy => ?_)
    · simp [State.goto, nextAt, hne y hy]
    · simp [State.goto, dataAt, hne y hy]
  · intro y
    by_cases hy : y = p
    · subst y
      simpa [hplace] using h.stacked p
    · simpa [hy] using h.stacked y
  · intro y
    by_cases hy : y = p
    · subst y
      simp [hx]
    · simpa [hy, hx, hpushes] using h.pushing y t
  · intro y
    by_cases hy : y = p
    · subst y
      simpa using hpl
    · rw [Function.update_of_ne hy, hlt y, hperm.mem_iff]
      simp [hy]
  · intro y hy hd
    by_cases hyp : y = p
    · subst y
      simp at hy
    · exact ⟨by simpa [hyp] using hy, hdooms y hd⟩

theorem deleteRead (h : Refines s a place l lp) {f : Frame α} (hpc : s.pc t = .deleteRead f p) :
    Refines (s.readNext t (some p) (.deleteNode f p)) a place l lp := by
  obtain ⟨lt, hown, -, hlt⟩ := h.unlinked t
  rw [hpc] at hown
  obtain ⟨g, hseg, rfl⟩ := hown
  obtain ⟨g', rfl⟩ := hseg.exists_cons
  have hplace : place p = .unlinked t := (hlt p).mpr (by simp)
  obtain ⟨nd, hnd⟩ := h.exists_node (p := p) (by simp [hplace])
  have hag := h.agrees_of hpc
  rw [State.readNext, State.access_node hnd]
  refine h.move (t := t) (x := .deleteNode f p nd.next) rfl (Function.update_eq_self ..).symm rfl rfl
    rfl rfl (by simp [State.goto, hpc, Pc.inPop]) (by simp [hpc, Pc.pushes]) ?_ (by simp [Pc.holds])
    (by simp [hpc, Pc.dooms]) hag
  intro lt hown
  rw [hpc] at hown
  obtain ⟨g, hseg, rfl⟩ := hown
  obtain ⟨g', rfl⟩ := hseg.exists_cons
  have hnext : nextAt s.heap p = nd.next := by simp [nextAt, hnd]
  exact ⟨g', hnext ▸ hseg.2, rfl⟩

theorem deleteNode (h : Refines s a place l lp) {f : Frame α} {next : Option Addr}
    (hpc : s.pc t = .deleteNode f p next) :
    Refines (s.delete t (some p) (Pc.deleteLoop f next)) a (Function.update place p .free) l lp := by
  obtain ⟨lt, hown, hnodup, hlt⟩ := h.unlinked t
  rw [hpc] at hown
  obtain ⟨g, -, rfl⟩ := hown
  have hplace : place p = .unlinked t := (hlt p).mpr (by simp)
  obtain ⟨nd, hnd⟩ := h.exists_node (p := p) (by simp [hplace])
  have hag : a.phase t = .answered (.pop false) (.popped f.res) := h.agrees_of hpc
  refine h.release hnd hplace (by simp [hpc, Pc.dooms]) (by simp [hpc, Pc.pushes])
    (Pc.deleteLoop_pushes ..) (by rw [hpc, Pc.deleteLoop_inPop]; rfl) ?_ (Pc.deleteLoop_holds ..)
    (by simp [hpc, Pc.dooms]) (Agrees.deleteLoop hag next)
  intro lt hnodup hown
  rw [hpc] at hown
  obtain ⟨g, hseg, rfl⟩ := hown
  refine ⟨f.oldHead.toList ++ g, List.perm_middle, owns_deleteLoop f (hseg.congr fun y hy => ?_)⟩
  -- the deleted node is not further down its own list
  have hyp : y ≠ p := by
    rintro rfl
    exact (List.nodup_cons.mp (List.nodup_append.mp hnodup).2.1).1 hy
  simp [nextAt, hyp]

theorem deleteOld (h : Refines s a place l lp) {f : Frame α} (hpc : s.pc t = .deleteOld f) :
    ∃ place', Refines (s.delete t f.oldHead (.ret f)) a place' l lp := by
  have hag := h.agrees_of hpc
  cases hold : f.oldHead with
  | none =>
    refine ⟨place, h.move (t := t) (x := .ret f) rfl (Function.update_eq_self ..).symm rfl rfl rfl rfl
      (by simp [State.goto, State.delete, hpc, Pc.inPop]) (by simp [hpc, Pc.pushes]) ?_
      (by simp [Pc.holds]) (by simp [Pc.dooms]) hag⟩
    intro lt hown
    rw [hpc] at hown
    have hlt : lt = f.oldHead.toList := hown
    rw [hlt, hold]
    exact rfl
  | some p =>
    obtain ⟨lt, hown, -, hlt⟩ := h.unlinked t
    rw [hpc] at hown
    have hlt' : lt = f.oldHead.toList := hown
    have hplace : place p = .unlinked t := (hlt p).mpr (by simp [hlt', hold])
    obtain ⟨nd, hnd⟩ := h.exists_node (p := p) (by simp [hplace])
    refine ⟨_, h.release (x := .ret f) hnd hplace (by simp [hpc, Pc.dooms, hold])
      (by simp [hpc, Pc.pushes]) rfl (by simp [hpc, Pc.inPop]) ?_ rfl (by simp [Pc.dooms]) hag⟩
    intro lt _ hown
    rw [hpc] at hown
    have hlt : lt = f.oldHead.toList := hown
    exact ⟨[], by simp [hlt, hold], rfl⟩

/-! ## Chaining -/

theorem walk (h : Refines s a place l lp) {f : Frame α} {nodes : Addr}
    (hpc : s.pc t = .walk f nodes p) :
    Refines (s.readNext t (some p) (Pc.walkLoop f nodes p)) a place l lp := by
  have hag := h.agrees_of hpc
  obtain ⟨lt, hown, -, hlt⟩ := h.unlinked t
  rw [hpc] at hown
  obtain ⟨g, g', -, hseg', rfl⟩ := hown
  obtain ⟨g'', rfl⟩ := hseg'.exists_cons
  have hplace : place p = .unlinked t := (hlt p).mpr (by simp)
  obtain ⟨nd, hnd⟩ := h.exists_node (p := p) (by simp [hplace])
  have hnext : nextAt s.heap p = nd.next := by simp [nextAt, hnd]
  rw [State.readNext, State.access_node hnd]
  cases hnx : nd.next with
  | none =>
    refine h.move (t := t) (x := .pendLoad f .deleteOld (some nodes) (some p)) rfl
      (Function.update_eq_self ..).symm rfl rfl rfl rfl (by simp [State.goto, hpc, Pc.inPop])
      (by simp [hpc, Pc.pushes]) ?_ (by simp [Pc.holds]) (by simp +contextual [hpc, Pc.dooms]) hag
    intro lt hown
    rw [hpc] at hown
    obtain ⟨g, g', hseg, hseg', rfl⟩ := hown
    obtain ⟨g'', rfl⟩ := hseg'.exists_cons
    have hend : g'' = [] := (hnext.trans hnx ▸ hseg'.2 :).eq_nil
    rw [hend]
    exact ⟨g ++ [p], Or.inr ⟨g, p, rfl, rfl, hseg⟩, rfl⟩
  | some m =>
    refine h.move (t := t) (x := .walk f nodes m) rfl
      (Function.update_eq_self ..).symm rfl rfl rfl rfl (by simp [State.goto, hpc, Pc.inPop])
      (by simp [hpc, Pc.pushes]) ?_ (by simp [Pc.holds]) (by simp +contextual [hpc, Pc.dooms]) hag
    intro lt hown
    rw [hpc] at hown
    obtain ⟨g, g', hseg, hseg', rfl⟩ := hown
    obtain ⟨g'', rfl⟩ := hseg'.exists_cons
    have hm : nextAt s.heap p = some m := hnext.trans hnx
    exact ⟨g ++ [p], g'', hm ▸ hseg.concat, hm ▸ hseg'.2, by simp⟩

theorem pendLoad (h : Refines s a place l lp) {f : Frame α} {k : After}
    {first last : Option Addr} (hpc : s.pc t = .pendLoad f k first last) (q : Option Addr) :
    Refines (s.goto t (.pendSetNext f k first last q)) a place l lp := by
  have hag := h.agrees_of hpc
  exact h.move (t := t) rfl (Function.update_eq_self ..).symm rfl rfl rfl rfl
    (by simp [State.goto, hpc, Pc.inPop]) (by simp [hpc, Pc.pushes]) (by simp [hpc, Owns])
    (by simp [Pc.holds]) (by simp +contextual [hpc, Pc.dooms]) hag

omit [DecidableEq Tid] in
/-- The last node of a chain is in the thread's hands. -/
theorem unlinked_of_chain (h : Refines s a place l lp) (f : Frame α) (k : After)
    (first : Option Addr) (hown : ∀ lt, Owns (nextAt s.heap) (s.pc t) lt →
      ∃ g, Chain (nextAt s.heap) k first (some p) g ∧ lt = k.keeps f ++ g) :
    place p = .unlinked t := by
  obtain ⟨lt, howns, -, hlt⟩ := h.unlinked t
  obtain ⟨g, hchain, rfl⟩ := hown lt howns
  rcases hchain with ⟨-, -, hnone, -⟩ | ⟨g', b, hb, rfl, -⟩
  · cases hnone
  · cases hb
    exact (hlt p).mpr (by simp)

/-- A null pointer in `chain_pending_nodes` is dereferenced by a pop that is still
counted. -/
theorem nullDeref (h : Refines s a place l lp) (f : Frame α) (k : After) (first : Option Addr)
    (hin : (s.pc t).inPop = decide (k = .leave)) (hpushes : (s.pc t).pushes = none)
    (hown : ∀ lt, Owns (nextAt s.heap) (s.pc t) lt →
      ∃ g, Chain (nextAt s.heap) k first none g ∧ lt = k.keeps f ++ g) :
    Refines (s.goto t .nullDeref) a place l lp := by
  have hnull : ∀ lt, Owns (nextAt s.heap) (s.pc t) lt → k = .leave ∧ lt = [] := by
    intro lt howns
    obtain ⟨g, hchain, rfl⟩ := hown lt howns
    rcases hchain with ⟨rfl, -, -, rfl⟩ | ⟨g', b, hb, -⟩
    · exact ⟨rfl, rfl⟩
    · cases hb
  obtain ⟨lt, howns, -, -⟩ := h.unlinked t
  refine h.move (t := t) (x := .nullDeref) rfl (Function.update_eq_self ..).symm rfl rfl rfl rfl ?_
    hpushes.symm (fun lt howns => (hnull lt howns).2) (by simp [Pc.holds]) (by simp [Pc.dooms])
    trivial
  rw [hin, (hnull lt howns).1]
  rfl

theorem pendSetNext (h : Refines s a place l lp) {f : Frame α} {k : After}
    {first last q : Option Addr} (hpc : s.pc t = .pendSetNext f k first last q) :
    Refines (s.setNext t last q (.pendReadNext f k first last)) a place l lp := by
  have hag := h.agrees_of hpc
  cases last with
  | none =>
    exact h.nullDeref f k first (by simp [hpc, Pc.inPop])
      (by simp [hpc, Pc.pushes]) (by simp [hpc, Owns])
  | some p =>
    have hplace : place p = .unlinked t :=
      h.unlinked_of_chain f k first (by simp [hpc, Owns])
    obtain ⟨nd, hnd⟩ := h.exists_node (p := p) (by simp [hplace])
    rw [State.setNext, State.access_node hnd]
    refine h.write (t := t) (p := p) (x := .pendReadNext f k first (some p)) (z := a.phase t)
      (Or.inr hplace) rfl (Function.update_eq_self ..).symm rfl rfl rfl rfl rfl
      (by simp [hpc, Pc.inPop]) (by simp [hpc, Pc.pushes]) ?_ rfl (by simp [hpc, Pc.dooms]) hag
    intro lt hnodup hown
    rw [hpc] at hown
    obtain ⟨g, hchain, rfl⟩ := hown
    refine ⟨g, hchain.congr_last rfl (List.nodup_append.mp hnodup).2.1 fun y hy => ?_, rfl⟩
    simp [State.goto, nextAt, hy]

theorem pendReadNext (h : Refines s a place l lp) {f : Frame α} {k : After}
    {first last : Option Addr} (hpc : s.pc t = .pendReadNext f k first last) :
    Refines (s.readNext t last (.pendCas f k first last)) a place l lp := by
  have hag := h.agrees_of hpc
  cases last with
  | none =>
    exact h.nullDeref f k first (by simp [hpc, Pc.inPop])
      (by simp [hpc, Pc.pushes]) (by simp [hpc, Owns])
  | some p =>
    have hplace : place p = .unlinked t :=
      h.unlinked_of_chain f k first (by simp [hpc, Owns])
    obtain ⟨nd, hnd⟩ := h.exists_node (p := p) (by simp [hplace])
    rw [State.readNext, State.access_node hnd]
    refine h.move (t := t) (x := .pendCas f k first (some p) nd.next) rfl
      (Function.update_eq_self ..).symm rfl rfl rfl rfl (by simp [State.goto, hpc, Pc.inPop])
      (by simp [hpc, Pc.pushes]) ?_ (by simp [Pc.holds]) (by simp +contextual [hpc, Pc.dooms]) hag
    intro lt hown
    rw [hpc] at hown
    obtain ⟨g, hchain, rfl⟩ := hown
    exact ⟨g, hchain, rfl, by simp [nextAt, hnd]⟩

/-- The exchange of `_to_be_deleted` succeeds: the chain is put in front of the
pending nodes. -/
theorem pend (h : Refines s a place l lp) {f : Frame α} {k : After} {first last : Option Addr}
    (hpc : s.pc t = .pendCas f k first last s.toBeDeleted) :
    ∃ place' lp', Refines ({ s with toBeDeleted := first }.goto t (Pc.after f k)) a place' l lp' := by
  have hph : a.phase t = .answered (.pop false) (.popped f.res) := h.agrees_of hpc
  obtain ⟨lt, hown, hnodup, hlt⟩ := h.unlinked t
  rw [hpc] at hown
  obtain ⟨g, hchain, rfl, hexp⟩ := hown
  obtain ⟨hkeeps, -, hdisj⟩ := List.nodup_append.mp hnodup
  have hg : ∀ y ∈ g, place y = .unlinked t := fun y hy => (hlt y).mpr (List.mem_append_right _ hy)
  refine ⟨fun y => if y ∈ g then .pending else place y, g ++ lp, h.change (t := t)
    (x := Pc.after f k) rfl (Function.update_eq_self ..).symm ?_ h.stack ?_ ?_ ?_ ?_ ?_
    (fun _ _ _ _ => rfl) ?_ ⟨k.keeps f, ?_, hkeeps, ?_⟩ ?_ ?_ ?_ ?_ ?_⟩
  · cases k <;> simp [State.goto, hpc, Pc.inPop, Pc.after]
  · intro y
    by_cases hy : y ∈ g
    · simpa [hy, hg y hy] using h.stacked y
    · simpa [hy] using h.stacked y
  · -- the last node of the chain has been linked to the pending nodes
    exact (hexp ▸ hchain.segment).append h.pending
  · intro y
    by_cases hy : y ∈ g
    · simp [hy]
    · simpa [hy] using h.pended y
  · intro y
    by_cases hy : y ∈ g
    · simpa [State.goto, hy, hg y hy] using h.free y
    · simpa [State.goto, hy] using h.free y
  · intro y u hut
    by_cases hy : y ∈ g
    · simp [hy, hg y hy, Ne.symm hut]
    · simp [hy]
  · intro y
    have hpush := h.pushing y t
    by_cases hy : y ∈ g
    · cases k <;> simp [hy, Pc.pushes, Pc.after]
    · cases k <;> simpa [hy, hpc, Pc.pushes, Pc.after] using hpush
  · cases k <;> exact rfl
  · intro y
    by_cases hy : y ∈ g
    · simpa [hy] using fun hyk => hdisj y hyk y hy rfl
    · simpa [hy] using hlt y
  · intro y hfresh
    by_cases hy : y ∈ g
    · simp [hy, Place.fresh] at hfresh
    · exact Or.inl (by simpa [hy] using hfresh)
  · cases k <;> simp [Pc.holds, Pc.after]
  · intro y hy hdoom
    cases k with
    | leave => cases hdoom
    | deleteOld =>
      have hyg : y ∉ g := fun hyg => by simp [hyg] at hy
      have hplace : place y = .unlinked t := by simpa [hyg] using hy
      exact ⟨by simp [hplace], h.doomed t y hplace (by rw [hpc]; exact ⟨rfl, hdoom⟩)⟩
  · intro y hst
    by_cases hy : y ∈ g
    · simp [hy] at hst
    · exact Or.inr ⟨by simpa [hy] using hst, rfl⟩
  · cases k <;> exact hph

end Refines

/-! ## One step -/

variable [DecidableEq Tid]

theorem refinement_init :
    Refinement (machine : Machine (State Tid α) (Label Tid α)).init (atomic lifo).init := by
  refine ⟨fun _ => .free, [], [], ⟨LinkedStack.empty, by simp, rfl, by simp, by simp [machine],
    by simp [machine, Pc.pushes], ?_, by simp [machine, Pc.holds], by simp, ?_, fun _ => rfl⟩⟩
  · exact fun t => ⟨[], rfl, List.nodup_nil, by simp⟩
  · exact (tally_eq_zero.mpr fun t => rfl).symm

/-- The steps inside `push` and `pop`. -/
theorem Refines.next (h : Refines s a place l lp) {spurious : Bool}
    (hstep : s.next t spurious = some s') :
    ∃ a', (atomic lifo).run a (event s (.next t spurious)) = some a' ∧ Refinement s' a' := by
  have hself : Function.update a.phase t (a.phase t) = a.phase := Function.update_eq_self ..
  have hag := h.agrees t
  -- most steps show no event
  have hquiet : ∀ {r}, s.next t spurious = some r → event s (.next t spurious) = [] →
      Refinement r a →
      ∃ a', (atomic lifo).run a (event s (.next t spurious)) = some a' ∧ Refinement s' a' := by
    intro r hr hev hR
    rw [hstep, Option.some.injEq] at hr
    exact ⟨a, by rw [hev]; rfl, hr ▸ hR⟩
  cases hpc : s.pc t with
  | pushLoad n =>
    simp only [State.next, hpc, Option.some.injEq] at hstep
    subst hstep
    rw [hpc] at hag
    refine ⟨a, by simp [event, hpc], place, l, lp,
      h.move (t := t) (x := .pushSetNext n s.head) rfl hself.symm rfl rfl rfl rfl
        (by simp [State.goto, hpc, Pc.inPop]) (by simp [hpc, Pc.pushes]) (by simp [hpc, Owns])
        (by simp [Pc.holds]) (by simp [Pc.dooms]) hag⟩
  | pushSetNext n q =>
    simp only [State.next, hpc, Option.some.injEq] at hstep
    subst hstep
    rw [hpc] at hag
    obtain ⟨v, hv, hph⟩ := hag
    obtain ⟨hplace, nd, hnd⟩ := h.exists_pushed (t := t) (p := n) (by simp [hpc, Pc.pushes])
    refine ⟨a, by simp [event, hpc], place, l, lp, ?_⟩
    rw [State.setNext, State.access_node hnd]
    refine h.write (t := t) (p := n) (x := .pushReadNext n) (z := a.phase t) (Or.inl hplace) rfl
      hself.symm rfl rfl rfl rfl rfl (by simp [hpc, Pc.inPop]) (by simp [hpc, Pc.pushes])
      (by simp [hpc, Owns]) rfl (by simp [Pc.dooms]) ⟨v, ?_, hph⟩
    simpa [State.goto, dataAt, hnd] using hv
  | pushReadNext n =>
    simp only [State.next, hpc, Option.some.injEq] at hstep
    subst hstep
    rw [hpc] at hag
    obtain ⟨v, hv, hph⟩ := hag
    obtain ⟨hplace, nd, hnd⟩ := h.exists_pushed (t := t) (p := n) (by simp [hpc, Pc.pushes])
    refine ⟨a, by simp [event, hpc], place, l, lp, ?_⟩
    rw [State.readNext, State.access_node hnd]
    exact h.move (t := t) (x := .pushCas n nd.next) rfl hself.symm rfl rfl rfl rfl
      (by simp [State.goto, hpc, Pc.inPop]) (by simp [hpc, Pc.pushes]) (by simp [hpc, Owns])
      (by simp [Pc.holds]) (by simp [Pc.dooms]) ⟨v, hv, by simp [nextAt, hnd], hph⟩
  | pushCas n exp =>
    simp only [State.next, hpc, Option.some.injEq] at hstep
    subst hstep
    rw [hpc] at hag
    obtain ⟨v, hv, hexp, hph⟩ := hag
    by_cases hcas : s.head = exp ∧ spurious = false
    · have hev : event s (.next t spurious) = [.linearize t, .respond t .pushed] := by
        simp [event, hpc, hcas]
      rw [State.pushCas, if_pos hcas]
      exact ⟨_, hev ▸ lifo_push hph, _, _, lp, h.publish (by rw [hpc, hcas.1]) hv
        (by rw [hexp, hcas.1])⟩
    · refine ⟨a, by simp [event, hpc, hcas], place, l, lp, ?_⟩
      rw [State.pushCas, if_neg hcas]
      exact h.move (t := t) (x := .pushSetNext n s.head) rfl hself.symm rfl rfl rfl rfl
        (by simp [State.goto, hpc, Pc.inPop]) (by simp [hpc, Pc.pushes]) (by simp [hpc, Owns])
        (by simp [Pc.holds]) (by simp [Pc.dooms]) ⟨v, hv, hph⟩
  | popEnter =>
    simp only [State.next, hpc, Option.some.injEq] at hstep
    subst hstep
    rw [hpc] at hag
    exact ⟨a, by simp [event, hpc], place, l, lp,
      h.move (t := t) (x := .popLoad) rfl hself.symm rfl rfl rfl rfl
        (by simp [State.goto, hpc, Pc.inPop]) (by simp [hpc, Pc.pushes]) (by simp [hpc, Owns])
        (by simp [Pc.holds]) (by simp [Pc.dooms]) hag⟩
  | popLoad =>
    simp only [State.next, hpc, Option.some.injEq] at hstep
    subst hstep
    rw [hpc] at hag
    exact h.readHead_refinement (by simp [hpc, Pc.inPop]) (by simp [hpc, Pc.pushes])
      (by simp [hpc, Owns]) hag (by simp [event, hpc])
  | popReadNext old =>
    exact hquiet (by rw [State.next, hpc]) (by simp [event, hpc]) ⟨place, l, lp, h.popReadNext hpc⟩
  | popCas old next =>
    simp only [State.next, hpc, Option.some.injEq] at hstep
    subst hstep
    rw [hpc] at hag
    by_cases hcas : s.head = some old ∧ spurious = false
    · obtain ⟨v, q', l', hobj, hR⟩ := h.unlink hpc hcas.1
      have hev : event s (.next t spurious) = [.linearize t] := by simp [event, hpc, hcas]
      rw [State.popCas, if_pos hcas]
      exact ⟨_, hev ▸ lifo_pop hag.2 hobj, _, l', lp, hR _⟩
    · rw [State.popCas, if_neg hcas]
      exact h.readHead_refinement (by simp [hpc, Pc.inPop]) (by simp [hpc, Pc.pushes])
        (by simp [hpc, Owns]) hag.2 (by simp [event, hpc, hcas])
  | popSwap old =>
    exact hquiet (by rw [State.next, hpc]) (by simp [event, hpc]) ⟨place, l, lp, h.swapData hpc⟩
  | testCount f =>
    exact hquiet (by rw [State.next, hpc]) (by simp [event, hpc]) ⟨place, l, lp, h.testCount hpc⟩
  | exchange f =>
    exact hquiet (by rw [State.next, hpc]) (by simp [event, hpc]) ⟨_, l, [], h.exchange hpc⟩
  | decrement f nodes =>
    exact hquiet (by rw [State.next, hpc]) (by simp [event, hpc]) ⟨place, l, lp, h.decrement hpc⟩
  | deleteRead f n =>
    exact hquiet (by rw [State.next, hpc]) (by simp [event, hpc]) ⟨place, l, lp, h.deleteRead hpc⟩
  | deleteNode f n next =>
    exact hquiet (by rw [State.next, hpc]) (by simp [event, hpc]) ⟨_, l, lp, h.deleteNode hpc⟩
  | walk f nodes last =>
    exact hquiet (by rw [State.next, hpc]) (by simp [event, hpc]) ⟨place, l, lp, h.walk hpc⟩
  | pendLoad f k first last =>
    exact hquiet (by rw [State.next, hpc]) (by simp [event, hpc]) ⟨place, l, lp, h.pendLoad hpc _⟩
  | pendSetNext f k first last q =>
    exact hquiet (by rw [State.next, hpc]) (by simp [event, hpc]) ⟨place, l, lp, h.pendSetNext hpc⟩
  | pendReadNext f k first last =>
    exact hquiet (by rw [State.next, hpc]) (by simp [event, hpc]) ⟨place, l, lp, h.pendReadNext hpc⟩
  | pendCas f k first last exp =>
    simp only [State.next, hpc, Option.some.injEq] at hstep
    subst hstep
    rw [hpc] at hag
    refine ⟨a, by simp [event, hpc], ?_⟩
    by_cases hcas : s.toBeDeleted = exp ∧ spurious = false
    · rw [State.pendCas, if_pos hcas]
      obtain ⟨place', lp', hR⟩ := h.pend (hpc.trans (by rw [hcas.1]))
      exact ⟨place', l, lp', hR⟩
    · rw [State.pendCas, if_neg hcas]
      refine ⟨place, l, lp, h.move (t := t) (x := .pendSetNext f k first last s.toBeDeleted) rfl
        hself.symm rfl rfl rfl rfl (by simp [State.goto, hpc, Pc.inPop]) (by simp [hpc, Pc.pushes])
        ?_ (by simp [Pc.holds]) (by simp +contextual [hpc, Pc.dooms]) hag⟩
      intro lt hown
      rw [hpc] at hown
      obtain ⟨g, hchain, hlt, -⟩ := hown
      exact ⟨g, hchain, hlt⟩
  | leave f =>
    simp only [State.next, hpc, Option.some.injEq] at hstep
    subst hstep
    rw [hpc] at hag
    have hpos : 0 < s.threadsInPop := h.counted ▸ tally_pos_of (t := t) (by simp [hpc, Pc.inPop])
    refine ⟨a, by simp [event, hpc], place, l, lp,
      h.move (t := t) (x := .ret f) rfl hself.symm rfl rfl rfl rfl ?_ (by simp [hpc, Pc.pushes])
        (by simp [hpc, Owns]) (by simp [Pc.holds]) (by simp [Pc.dooms]) hag⟩
    simp [State.goto, hpc, Pc.inPop]
    omega
  | deleteOld f =>
    obtain ⟨place', hR⟩ := h.deleteOld hpc
    exact hquiet (by rw [State.next, hpc]) (by simp [event, hpc]) ⟨place', l, lp, hR⟩
  | ret f =>
    simp only [State.next, hpc, Option.some.injEq] at hstep
    subst hstep
    rw [hpc] at hag
    have hph : a.phase t = .answered (.pop false) (.popped f.res) := hag
    refine ⟨{ a with phase := Function.update a.phase t .idle }, ?_, place, l, lp,
      h.move (t := t) (x := .idle) rfl rfl rfl rfl rfl rfl (by simp [State.goto, hpc, Pc.inPop])
        (by simp [hpc, Pc.pushes]) (by simp [hpc, Owns]) (by simp [Pc.holds]) (by simp [Pc.dooms])
        rfl⟩
    simpa [event, hpc] using atomic_respond hph
  | idle | nullDeref | useAfterFree => simp [State.next, hpc] at hstep

/-- **One step**: the stack moves, and the atomic stack reads the events. -/
theorem refinement_step {lab : Label Tid α} (hR : Refinement s a)
    (hstep : machine.step s lab = some s') :
    ∃ a', (atomic lifo).run a (event s lab) = some a' ∧ Refinement s' a' := by
  obtain ⟨place, l, lp, h⟩ := hR
  cases lab with
  | push t v n =>
    obtain ⟨hpc, hfree, rfl⟩ := step_push hstep
    have hph : a.phase t = .idle := h.agrees_of hpc
    exact ⟨_, (Machine.run_singleton ..).trans (atomic_invoke hph), _, l, lp, h.push hpc hfree v⟩
  | pop t =>
    obtain ⟨hpc, rfl⟩ := step_pop hstep
    have hph : a.phase t = .idle := h.agrees_of hpc
    exact ⟨_, (Machine.run_singleton ..).trans (atomic_invoke hph), place, l, lp,
      h.move (t := t) (x := .popEnter) rfl rfl rfl rfl rfl rfl
        (by simp [State.goto, hpc, Pc.inPop]) (by simp [hpc, Pc.pushes]) (by simp [hpc, Owns])
        (by simp [Pc.holds]) (by simp [Pc.dooms]) rfl⟩
  | next t spurious => exact h.next hstep

/-- **The stack is simulated by the atomic stack.** -/
theorem simulation :
    Machine.Simulation (machine : Machine (State Tid α) (Label Tid α)) (atomic lifo) event
      Refinement where
  init := refinement_init
  step _ _ _ _ hR hstep := refinement_step hR hstep

/-! ## What the refinement gives -/

/-- A pointer in the thread's hands that it may still follow. -/
def Pc.uses : Pc α → Addr → Prop
  | .pushLoad n, x | .pushSetNext n _, x | .pushReadNext n, x | .pushCas n _, x => n = x
  | .popReadNext old, x | .popCas old _, x | .popSwap old, x => old = x
  | .testCount f, x | .exchange f, x | .deleteOld f, x => f.oldHead = some x
  | .decrement f nodes, x => f.oldHead = some x ∨ nodes = some x
  | .deleteRead f n, x => f.oldHead = some x ∨ n = x
  | .deleteNode f n next, x => f.oldHead = some x ∨ n = x ∨ next = some x
  | .walk f nodes last, x => f.oldHead = some x ∨ nodes = x ∨ last = x
  | .pendLoad f k first last, x | .pendSetNext f k first last _, x
  | .pendReadNext f k first last, x | .pendCas f k first last _, x =>
    x ∈ k.keeps f ∨ first = some x ∨ last = some x
  | _, _ => False

theorem Chain.mem {next : Addr → Option Addr} {k : After} {first last : Option Addr}
    {g : List Addr} (h : Chain next k first last g) {x : Addr}
    (hx : first = some x ∨ last = some x) : x ∈ g := by
  rcases h with ⟨-, rfl, rfl, -⟩ | ⟨g', b, rfl, rfl, hseg⟩
  · rcases hx with hx | hx <;> cases hx
  · rcases hx with rfl | hx
    · rcases hseg.first_mem with hmem | hb
      · exact List.mem_append_left _ hmem
      · cases hb
        simp
    · cases hx
      simp

/-- The nodes a thread has in hand are among those it pushes, holds or has
unlinked. -/
theorem Owns.mem {next : Addr → Option Addr} {pc : Pc α} {lt : List Addr} (h : Owns next pc lt)
    {x : Addr} (hx : pc.uses x) : pc.pushes = some x ∨ pc.holds = some x ∨ x ∈ lt := by
  cases pc with
  | pushLoad n | pushReadNext n => exact Or.inl (congrArg some hx)
  | pushSetNext n q | pushCas n q => exact Or.inl (congrArg some hx)
  | popReadNext old => exact Or.inr (Or.inl (congrArg some hx))
  | popCas old q => exact Or.inr (Or.inl (congrArg some hx))
  | popSwap old =>
    have hlt : lt = [old] := h
    exact Or.inr (Or.inr (by simpa [hlt] using hx.symm))
  | testCount f | exchange f | deleteOld f =>
    have hlt : lt = f.oldHead.toList := h
    have hold : f.oldHead = some x := hx
    exact Or.inr (Or.inr (by simp [hlt, hold]))
  | decrement f nodes =>
    obtain ⟨g, hseg, rfl⟩ := h
    rcases hx with hx | rfl
    · exact Or.inr (Or.inr (by simp [hx]))
    · obtain ⟨g', rfl⟩ := hseg.exists_cons
      exact Or.inr (Or.inr (by simp))
  | deleteRead f n =>
    obtain ⟨g, hseg, rfl⟩ := h
    obtain ⟨g', rfl⟩ := hseg.exists_cons
    rcases hx with hx | rfl
    · exact Or.inr (Or.inr (by simp [hx]))
    · exact Or.inr (Or.inr (by simp))
  | deleteNode f n p =>
    obtain ⟨g, hseg, rfl⟩ := h
    rcases hx with hx | rfl | rfl
    · exact Or.inr (Or.inr (by simp [hx]))
    · exact Or.inr (Or.inr (by simp))
    · obtain ⟨g', rfl⟩ := hseg.exists_cons
      exact Or.inr (Or.inr (by simp))
  | walk f nodes last =>
    obtain ⟨g, g', hseg, hseg', rfl⟩ := h
    obtain ⟨g'', rfl⟩ := hseg'.exists_cons
    rcases hx with hx | rfl | rfl
    · exact Or.inr (Or.inr (by simp [hx]))
    · rcases hseg.first_mem with hmem | hlast
      · exact Or.inr (Or.inr (by simp [hmem]))
      · cases hlast
        exact Or.inr (Or.inr (by simp))
    · exact Or.inr (Or.inr (by simp))
  | pendLoad f k first last =>
    obtain ⟨g, hchain, rfl⟩ := h
    exact Or.inr (Or.inr (List.mem_append.mpr (hx.imp_right hchain.mem)))
  | pendSetNext f k first last q =>
    obtain ⟨g, hchain, rfl⟩ := h
    exact Or.inr (Or.inr (List.mem_append.mpr (hx.imp_right hchain.mem)))
  | pendReadNext f k first last =>
    obtain ⟨g, hchain, rfl⟩ := h
    exact Or.inr (Or.inr (List.mem_append.mpr (hx.imp_right hchain.mem)))
  | pendCas f k first last exp =>
    obtain ⟨g, hchain, rfl, -⟩ := h
    exact Or.inr (Or.inr (List.mem_append.mpr (hx.imp_right hchain.mem)))
  | _ => exact hx.elim

omit [DecidableEq Tid] in
/-- Every node a thread may still access is allocated. -/
theorem Refines.exists_used (h : Refines s a place l lp) {y : Addr} (hy : (s.pc t).uses y) :
    ∃ nd, s.heap y = some nd := by
  obtain ⟨lt, hown, -, hlt⟩ := h.unlinked t
  rcases hown.mem hy with hpush | hheld | hmem
  · exact (h.exists_pushed hpush).2
  · exact h.exists_node fun hfree => by simpa [hfree, Place.fresh] using h.held t y hheld
  · exact h.exists_node (by simp [(hlt y).mpr hmem])

omit [DecidableEq Tid] in
theorem Refines.not_useAfterFree (h : Refines s a place l lp) (t : Tid) :
    s.pc t ≠ .useAfterFree := fun hpc => h.agrees_of hpc

/-- **Thread-counting reclamation is safe under every interleaving.**  In every
state of every run no thread has accessed or deleted a deleted node; every node a
thread may still access is allocated, and a node that the next step deletes is
one nobody may access any more; the pushes and pops are a run of the atomic
stack, in the order of the exchanges of `_head`, whose content is the data from
`_head` on; and the count is the number of threads in `pop`. -/
theorem reclamation_safe (ls : List (Label Tid α)) (s : State Tid α)
    (h : machine.run machine.init ls = some s) :
    (∀ t, s.pc t ≠ .useAfterFree) ∧
      (∀ t x, (s.pc t).uses x → ∃ nd, s.heap x = some nd) ∧
      (∀ lab s', machine.step s lab = some s' → ∀ x, s.heap x ≠ none → s'.heap x = none →
        ∀ t, ¬ (s'.pc t).uses x) ∧
      s.threadsInPop = tally s.pc Pc.inPop ∧
      ∃ a l, LifoRun (machine.trace event machine.init ls) a ∧
        LinkedStack (nextAt s.heap) (dataAt s.heap) s.head l a.object := by
  obtain ⟨a, hrun, hR⟩ := simulation.run h
  have hdeleted : ∀ lab s', machine.step s lab = some s' → ∀ x, s.heap x ≠ none →
      s'.heap x = none → ∀ t, ¬ (s'.pc t).uses x := by
    intro lab s' hstep x _ hgone t ht
    obtain ⟨a', -, place, l, lp, h'⟩ := refinement_step hR hstep
    obtain ⟨nd, hnd⟩ := h'.exists_used ht
    rw [hgone] at hnd
    cases hnd
  obtain ⟨place, l, lp, h⟩ := hR
  exact ⟨h.not_useAfterFree, fun t x => h.exists_used, hdeleted, h.counted, a, l,
    LifoRun.of_run hrun, h.stack⟩

end Refines

/-- Thread a holds the node 2 while thread b unlinks it and has to leave it
pending; thread a unlinks node 1, and deletes both. -/
def pendingPop : List (Label Two Nat) :=
  .push .a 7 1 :: List.replicate 4 (.next .a false) ++
    (.push .a 8 2 :: List.replicate 4 (.next .a false)) ++
    (.pop .a :: List.replicate 3 (.next .a false)) ++
    (.pop .b :: List.replicate 12 (.next .b false)) ++ List.replicate 11 (.next .a false)

theorem pendingPop_safe :
    ∃ s, machine.run machine.init pendingPop = some s ∧ (∀ t, s.pc t ≠ .useAfterFree) ∧
      s.heap 1 = none ∧ s.heap 2 = none ∧
      ∃ a, LifoRun (machine.trace event machine.init pendingPop) a := by
  obtain ⟨hfree, -, -, -, a, l, hlifo, -⟩ := reclamation_safe pendingPop _ rfl
  exact ⟨_, rfl, hfree, rfl, rfl, a, hlifo⟩

end Sundries.LockFreeStack
