import Sundries.LockFreeStackReclaim

/-!
# What becomes of the nodes of `lock_free_stack`

Once a node is deleted its address may be used again, so a node is its address
together with its number among the nodes made there.  Beside the state a
`History` records how many nodes have been made at each address, which pop has
unlinked a node, and which nodes have been deleted; no step depends on it.

What a step does to the nodes is its `Effect`, and all that the invariants of
the history need of a step is said once (`Moved`).  The history agrees with the
state in every reachable state (`Recorded`).
-/
namespace Sundries.LockFreeStack

variable {Tid α : Type}

/-- What a step does to the nodes, and that it calls `pop`. -/
inductive Effect where
  | made (n : Addr)
  | called
  | unlinked (n : Addr)
  | deleted (n : Addr)
  | quiet

/-- The effect of a step from `s`: `_head` leaves a node behind when the exchange
of `pop` succeeds. -/
def effect (s : State Tid α) : Label Tid α → Effect
  | .push _ _ n => .made n
  | .pop _ => .called
  | .next t spurious =>
    match s.pc t with
    | .popCas old _ => if s.head = some old ∧ spurious = false then .unlinked old else .quiet
    | .deleteNode _ n _ => .deleted n
    | .deleteOld f => f.oldHead.elim .quiet .deleted
    | _ => .quiet

/-- The thread that moves. -/
def Label.tid : Label Tid α → Tid
  | .push t _ _ | .pop t | .next t _ => t

/-- How many nodes have been made at each address, how many pops each thread has
called, by which of them each node has been unlinked, and the deleted nodes. -/
structure History (Tid : Type) where
  made : Addr → ℕ
  pops : Tid → ℕ
  unlinkedBy : Addr × ℕ → Option (Tid × ℕ)
  deleted : Addr × ℕ → Bool

namespace History

/-- Nothing has happened. -/
def start : History Tid := ⟨fun _ => 0, fun _ => 0, fun _ => none, fun _ => false⟩

/-- The last node made at the address. -/
def node (h : History Tid) (n : Addr) : Addr × ℕ := (n, h.made n)

variable [DecidableEq Tid]

/-- Thread `t` has had the effect. -/
def after (h : History Tid) (t : Tid) : Effect → History Tid
  | .made n => { h with made := Function.update h.made n (h.made n + 1) }
  | .called => { h with pops := Function.update h.pops t (h.pops t + 1) }
  | .unlinked n =>
    { h with unlinkedBy := Function.update h.unlinkedBy (h.node n) (some (t, h.pops t)) }
  | .deleted n => { h with deleted := Function.update h.deleted (h.node n) true }
  | .quiet => h

variable {h : History Tid} {t u : Tid} {e : Effect} {n : Addr} {i : Addr × ℕ}

theorem node_after (he : e ≠ .made n) : (h.after t e).node n = h.node n := by
  cases e with
  | made m =>
    have hmn : n ≠ m := by
      rintro rfl
      exact he rfl
    simp [node, after, hmn]
  | _ => rfl

theorem node_after_made : (h.after t (.made n)).node n = (n, h.made n + 1) := by
  simp [node, after]

theorem unlinkedBy_after (he : ∀ m, e = .unlinked m → h.node m ≠ i) :
    (h.after t e).unlinkedBy i = h.unlinkedBy i := by
  cases e with
  | unlinked m => exact Function.update_of_ne (Ne.symm (he m rfl)) _ _
  | _ => rfl

theorem deleted_after (he : ∀ m, e = .deleted m → h.node m ≠ i) :
    (h.after t e).deleted i = h.deleted i := by
  cases e with
  | deleted m => exact Function.update_of_ne (Ne.symm (he m rfl)) _ _
  | _ => rfl

theorem deleted_mono (hi : h.deleted i = true) : (h.after t e).deleted i = true := by
  cases e with
  | deleted m =>
    by_cases hmi : i = h.node m
    · subst hmi
      exact Function.update_self ..
    · exact (Function.update_of_ne hmi ..).trans hi
  | _ => exact hi

theorem deleted_node : (h.after t (.deleted n)).deleted (h.node n) = true :=
  Function.update_self ..

theorem unlinkedBy_node :
    (h.after t (.unlinked n)).unlinkedBy (h.node n) = some (t, h.pops t) :=
  Function.update_self ..

theorem pops_after (he : e = .called → u ≠ t) : (h.after t e).pops u = h.pops u := by
  cases e with
  | called => exact Function.update_of_ne (he rfl) _ _
  | _ => rfl

omit [DecidableEq Tid] in
/-- Nodes at different addresses are different. -/
theorem node_ne {m : Addr} {k : ℕ} (hmn : m ≠ n) : h.node m ≠ (n, k) :=
  fun he => hmn (congrArg Prod.fst he)

/-- The history after a step from `s`. -/
def record (s : State Tid α) (h : History Tid) (lab : Label Tid α) : History Tid :=
  h.after lab.tid (effect s lab)

end History

/-- The stack, with its history. -/
def recording [DecidableEq Tid] : Machine (State Tid α × History Tid) (Label Tid α) :=
  machine.instrument History.start History.record

/-! ## One step -/

/-- The node a pop has unlinked, and has neither chained to `_to_be_deleted` nor
deleted yet. -/
def Pc.oldHead : Pc α → Option Addr
  | .popSwap old => some old
  | .testCount f | .exchange f | .decrement f _ | .deleteRead f _ | .deleteNode f _ _ | .walk f _ _
  | .pendLoad f _ _ _ | .pendSetNext f _ _ _ _ | .pendReadNext f _ _ _ | .pendCas f _ _ _ _
  | .deleteOld f => f.oldHead
  | _ => none

/-- The nodes the next step of the thread changes or deletes. -/
def Pc.writes : Pc α → Addr → Prop
  | .pushSetNext n _, y | .popSwap n, y | .deleteNode _ n _, y => n = y
  | .pendSetNext _ _ _ last _, y => last = some y
  | .deleteOld f, y => f.oldHead = some y
  | _, _ => False

/-- `chain_pending_nodes(old_head, old_head)` is called with the pop's own node. -/
def Pc.ChainsOld : Pc α → Prop
  | .pendLoad f .leave first last | .pendSetNext f .leave first last _
  | .pendReadNext f .leave first last | .pendCas f .leave first last _ =>
    first = f.oldHead ∧ last = f.oldHead
  | _ => True

/-- What a step of thread `t` to the program point `x` does, with the effect `e`. -/
structure Moved (s : State Tid α) [DecidableEq Tid] (t : Tid) (e : Effect) (s' : State Tid α)
    (x : Pc α) : Prop where
  pc : s'.pc = Function.update s.pc t x
  heap : ∀ y, e ≠ .made y → ¬ (s.pc t).writes y → s'.heap y = s.heap y
  made : ∀ y, e = .made y → s.heap y = none
  gone : ∀ y, s'.heap y = none ↔ e = .deleted y ∨ s.heap y = none ∧ e ≠ .made y
  head : (s'.head = s.head ∧ ∀ y, e ≠ .unlinked y) ∨
    (∃ p, s.pc t = .pushCas p s.head ∧ s'.head = some p ∧ e = .quiet) ∨
    ∃ p next, s.pc t = .popCas p next ∧ s.head = some p ∧ s'.head = next ∧ e = .unlinked p
  pushes : ∀ y, x.pushes = some y → e = .made y ∨ (s.pc t).pushes = some y
  oldHead : ∀ y, x.oldHead = some y → e = .unlinked y ∨ (s.pc t).oldHead = some y
  idle : e = .called → x.oldHead = none
  chainsOld : (s.pc t).ChainsOld → x.ChainsOld

/-- At `x` the thread pushes no other node and has unlinked no other node than at
`pc`. -/
structure Pc.Follows (pc x : Pc α) : Prop where
  pushes : ∀ y, x.pushes = some y → pc.pushes = some y
  oldHead : ∀ y, x.oldHead = some y → pc.oldHead = some y
  chainsOld : pc.ChainsOld → x.ChainsOld

section Step
variable [DecidableEq Tid] {s s' : State Tid α} {t : Tid} {e : Effect} {x : Pc α}

/-- A step that leaves the nodes and `_head` alone. -/
theorem moved_quiet (hpc : s'.pc = Function.update s.pc t x) (hheap : s'.heap = s.heap)
    (hhead : s'.head = s.head) (hx : (s.pc t).Follows x) : Moved s t .quiet s' x where
  pc := hpc
  heap y _ _ := by rw [hheap]
  made y he := by cases he
  gone y := by simp [hheap]
  head := Or.inl ⟨hhead, by simp⟩
  pushes y hy := Or.inr (hx.pushes y hy)
  oldHead y hy := Or.inr (hx.oldHead y hy)
  idle he := by cases he
  chainsOld := hx.chainsOld

/-- A step that changes or deletes the node at `a`. -/
theorem moved_write {a : Addr} {node : Option (Node α)} (hpc : s'.pc = Function.update s.pc t x)
    (hheap : s'.heap = Function.update s.heap a node) (hhead : s'.head = s.head)
    (ha : s.heap a ≠ none) (hwrites : (s.pc t).writes a) (hx : (s.pc t).Follows x)
    (he : node ≠ none ∧ e = .quiet ∨ node = none ∧ e = .deleted a) : Moved s t e s' x := by
  have hother : (∀ y, e ≠ .made y) ∧ (∀ y, e ≠ .unlinked y) ∧ e ≠ .called := by
    rcases he with ⟨-, rfl⟩ | ⟨-, rfl⟩ <;> simp
  obtain ⟨hmade, hunlinked, hcalled⟩ := hother
  refine ⟨hpc, fun y _ hy => ?_, fun y hm => absurd hm (hmade y), fun y => ?_,
    Or.inl ⟨hhead, hunlinked⟩, fun y hy => Or.inr (hx.pushes y hy),
    fun y hy => Or.inr (hx.oldHead y hy), fun hc => absurd hc hcalled, hx.chainsOld⟩
  · have hya : y ≠ a := by
      rintro rfl
      exact hy hwrites
    rw [hheap, Function.update_of_ne hya]
  · by_cases hya : y = a
    · subst y
      rcases he with ⟨hnode, rfl⟩ | ⟨rfl, rfl⟩
      · simp [hheap, hnode, ha]
      · simp [hheap]
    · rcases he with ⟨-, rfl⟩ | ⟨-, rfl⟩ <;> simp [hheap, hya, Ne.symm hya]

theorem Pc.follows_end (pc : Pc α) (hpushes : x.pushes = none) (hold : x.oldHead = none)
    (hchains : x.ChainsOld) : pc.Follows x where
  pushes y hy := by simp [hpushes] at hy
  oldHead y hy := by simp [hold] at hy
  chainsOld _ := hchains

theorem Pc.follows_of_eq {pc : Pc α} (hpushes : x.pushes = pc.pushes)
    (hold : x.oldHead = pc.oldHead) (hchains : pc.ChainsOld → x.ChainsOld) : pc.Follows x where
  pushes _ hy := hpushes.symm.trans hy
  oldHead _ hy := hold.symm.trans hy
  chainsOld := hchains

theorem Pc.follows_popLoop (pc : Pc α) (p : Option Addr) : pc.Follows (Pc.popLoop p) := by
  cases p <;> exact Pc.follows_end pc rfl rfl trivial

theorem Pc.follows_deleteLoop {pc : Pc α} {f : Frame α} (p : Option Addr)
    (hpushes : pc.pushes = none) (hold : f.oldHead = pc.oldHead) :
    pc.Follows (Pc.deleteLoop f p) := by
  cases p <;> exact Pc.follows_of_eq hpushes.symm hold fun _ => trivial

theorem Pc.follows_rechain {pc : Pc α} {f : Frame α} (p : Option Addr)
    (hpushes : pc.pushes = none) (hold : f.oldHead = pc.oldHead) :
    pc.Follows (Pc.rechain f p) := by
  cases p <;> exact Pc.follows_of_eq hpushes.symm hold fun _ => trivial

theorem moved_nullDeref : Moved s t .quiet (s.goto t .nullDeref) .nullDeref :=
  moved_quiet rfl rfl rfl (Pc.follows_end _ rfl rfl trivial)

theorem moved_useAfterFree : Moved s t .quiet (s.goto t .useAfterFree) .useAfterFree :=
  moved_quiet rfl rfl rfl (Pc.follows_end _ rfl rfl trivial)

theorem exists_moved_readNext (p : Option Addr) {pc : Option Addr → Pc α}
    (hpc : ∀ q, (s.pc t).Follows (pc q)) : ∃ x, Moved s t .quiet (s.readNext t p pc) x := by
  cases p with
  | none => exact ⟨_, moved_nullDeref⟩
  | some a =>
    refine State.access_some (P := fun s' => ∃ x, Moved s t .quiet s' x)
      ⟨_, moved_useAfterFree⟩ fun nd _ => ?_
    exact ⟨_, moved_quiet rfl rfl rfl (hpc nd.next)⟩

/-- The node at `a` is changed, and stays there. -/
theorem exists_moved_access {a : Addr} {node : Node α → Node α} {pc : Node α → Pc α}
    (hwrites : (s.pc t).writes a) (hpc : ∀ nd, (s.pc t).Follows (pc nd)) :
    ∃ x, Moved s t .quiet (s.access t (some a) fun a nd =>
      { s with heap := Function.update s.heap a (some (node nd)) }.goto t (pc nd)) x := by
  refine State.access_some (P := fun s' => ∃ x, Moved s t .quiet s' x)
    ⟨_, moved_useAfterFree⟩ fun nd hnd => ?_
  exact ⟨_, moved_write rfl rfl rfl (by simp [hnd]) hwrites (hpc nd)
    (Or.inl ⟨Option.some_ne_none _, rfl⟩)⟩

theorem exists_moved_setNext {p q : Option Addr} {pc : Pc α}
    (hwrites : ∀ a, p = some a → (s.pc t).writes a) (hpc : (s.pc t).Follows pc) :
    ∃ x, Moved s t .quiet (s.setNext t p q pc) x := by
  cases p with
  | none => exact ⟨_, moved_nullDeref⟩
  | some a => exact exists_moved_access (hwrites a rfl) fun _ => hpc

theorem exists_moved_delete {p : Option Addr} {pc : Pc α}
    (hwrites : ∀ a, p = some a → (s.pc t).writes a) (hpc : (s.pc t).Follows pc) :
    ∃ x, Moved s t (p.elim .quiet .deleted) (s.delete t p pc) x := by
  cases p with
  | none => exact ⟨_, moved_quiet rfl rfl rfl hpc⟩
  | some a =>
    cases hnd : s.heap a with
    | none =>
      -- nothing is deleted, and no node is there
      rw [State.delete, State.access_gone hnd, Option.elim_some]
      have hquiet : Moved s t .quiet (s.goto t .useAfterFree) .useAfterFree := moved_useAfterFree
      refine ⟨.useAfterFree, { hquiet with
        heap := fun y _ => hquiet.heap y (by simp)
        made := by simp
        gone := fun y => ?_
        head := Or.inl ⟨rfl, by simp⟩
        pushes := by simp [Pc.pushes]
        oldHead := by simp [Pc.oldHead]
        idle := by simp }⟩
      have hy : Effect.deleted a = .deleted y → s.heap y = none := by
        rintro ⟨⟩
        exact hnd
      simpa [State.goto] using hy
    | some nd =>
      rw [State.delete, State.access_node hnd, Option.elim_some]
      exact ⟨_, moved_write rfl rfl rfl (by simp [hnd]) (hwrites a rfl) hpc (Or.inr ⟨rfl, rfl⟩)⟩

/-- The steps inside `push` and `pop`. -/
theorem moved_next {spurious : Bool} (hstep : s.next t spurious = some s') :
    ∃ x, Moved s t (effect s (.next t spurious)) s' x := by
  have hself : (s.pc t).Follows (s.pc t) := ⟨fun _ => id, fun _ => id, id⟩
  cases hpc : s.pc t <;> simp only [State.next, hpc] at hstep <;> cases hstep <;>
    simp only [effect, hpc]
  case pushLoad n => exact ⟨_, moved_quiet rfl rfl rfl (hpc ▸ Pc.follows_of_eq rfl rfl id)⟩
  case pushSetNext n q =>
    refine exists_moved_setNext (fun a ha => ?_) (hpc ▸ Pc.follows_of_eq rfl rfl id)
    rw [hpc]
    exact Option.some.inj ha
  case pushReadNext n => exact exists_moved_readNext _ fun q => hpc ▸ Pc.follows_of_eq rfl rfl id
  case pushCas n exp =>
    unfold State.pushCas
    split
    · rename_i hcas
      have hquiet : Moved s t .quiet (s.goto t .idle) .idle :=
        moved_quiet rfl rfl rfl (Pc.follows_end _ rfl rfl trivial)
      refine ⟨.idle, { hquiet with head := Or.inr (Or.inl ⟨n, ?_, rfl, rfl⟩) }⟩
      rw [hpc, hcas.1]
    · exact ⟨_, moved_quiet rfl rfl rfl (hpc ▸ Pc.follows_of_eq rfl rfl id)⟩
  case popEnter => exact ⟨_, moved_quiet rfl rfl rfl (Pc.follows_end _ rfl rfl trivial)⟩
  case popLoad => exact ⟨_, moved_quiet rfl rfl rfl (Pc.follows_popLoop _ _)⟩
  case popReadNext old =>
    exact exists_moved_readNext _ fun q => Pc.follows_end _ rfl rfl trivial
  case popCas old next =>
    unfold State.popCas
    split
    · rename_i hcas
      refine ⟨.popSwap old, rfl, fun y _ _ => rfl, by simp, by simp [State.goto],
        Or.inr (Or.inr ⟨old, next, hpc, hcas.1, rfl, rfl⟩), by simp [Pc.pushes], ?_, by simp,
        fun _ => trivial⟩
      rintro y ⟨⟩
      exact Or.inl rfl
    · exact ⟨_, moved_quiet rfl rfl rfl (Pc.follows_popLoop _ _)⟩
  case popSwap old =>
    exact exists_moved_access (by rw [hpc]; exact rfl)
      fun nd => hpc ▸ Pc.follows_of_eq rfl rfl id
  case testCount f =>
    unfold State.testCount
    split
    · exact ⟨_, moved_quiet rfl rfl rfl (hpc ▸ Pc.follows_of_eq rfl rfl id)⟩
    · exact ⟨_, moved_quiet rfl rfl rfl (hpc ▸ Pc.follows_of_eq rfl rfl fun _ => ⟨rfl, rfl⟩)⟩
  case exchange f => exact ⟨_, moved_quiet rfl rfl rfl (hpc ▸ Pc.follows_of_eq rfl rfl id)⟩
  case decrement f nodes =>
    refine ⟨_, moved_quiet rfl rfl rfl ?_⟩
    rw [hpc]
    split
    · exact Pc.follows_deleteLoop nodes rfl rfl
    · exact Pc.follows_rechain nodes rfl rfl
  case deleteRead f n =>
    exact exists_moved_readNext _ fun q => hpc ▸ Pc.follows_of_eq rfl rfl id
  case deleteNode f n next =>
    refine exists_moved_delete (p := some n) (fun a ha => ?_) ?_
    · rw [hpc]
      exact Option.some.inj ha
    · rw [hpc]
      exact Pc.follows_deleteLoop next rfl rfl
  case walk f nodes last =>
    refine exists_moved_readNext _ fun q => ?_
    rw [hpc]
    cases q <;> exact Pc.follows_of_eq rfl rfl fun _ => trivial
  case pendLoad f k first last =>
    refine ⟨_, moved_quiet rfl rfl rfl ?_⟩
    rw [hpc]
    cases k <;> exact Pc.follows_of_eq rfl rfl id
  case pendSetNext f k first last q =>
    refine exists_moved_setNext (fun a ha => by rw [hpc]; exact ha) ?_
    rw [hpc]
    cases k <;> exact Pc.follows_of_eq rfl rfl id
  case pendReadNext f k first last =>
    refine exists_moved_readNext _ fun q => ?_
    rw [hpc]
    cases k <;> exact Pc.follows_of_eq rfl rfl id
  case pendCas f k first last exp =>
    unfold State.pendCas
    split
    · refine ⟨_, moved_quiet rfl rfl rfl ?_⟩
      rw [hpc]
      cases k with
      | leave => exact Pc.follows_end _ rfl rfl trivial
      | deleteOld => exact Pc.follows_of_eq rfl rfl fun _ => trivial
    · refine ⟨_, moved_quiet rfl rfl rfl ?_⟩
      rw [hpc]
      cases k <;> exact Pc.follows_of_eq rfl rfl id
  case leave f => exact ⟨_, moved_quiet rfl rfl rfl (Pc.follows_end _ rfl rfl trivial)⟩
  case deleteOld f =>
    exact exists_moved_delete (fun a ha => by rw [hpc]; exact ha)
      (Pc.follows_end _ rfl rfl trivial)
  case ret f => exact ⟨_, moved_quiet rfl rfl rfl (Pc.follows_end _ rfl rfl trivial)⟩

/-- **One step.** -/
theorem exists_moved {lab : Label Tid α} (hstep : machine.step s lab = some s') :
    ∃ x, Moved s lab.tid (effect s lab) s' x := by
  cases lab with
  | push t v n =>
    obtain ⟨-, hfree, rfl⟩ := step_push hstep
    refine ⟨.pushLoad n, rfl, fun y hy _ => ?_, ?_, fun y => ?_, Or.inl ⟨rfl, by simp [effect]⟩, ?_,
      by simp [Pc.oldHead], by simp [effect], fun _ => trivial⟩
    · have hyn : y ≠ n := fun he => hy (he ▸ rfl)
      simp [State.push, State.goto, hyn]
    · rintro y ⟨⟩
      exact hfree
    · by_cases hyn : y = n
      · subst y
        simp [State.push, State.goto, effect]
      · simp [State.push, State.goto, effect, hyn, Ne.symm hyn]
    · rintro y ⟨⟩
      exact Or.inl rfl
  | pop t =>
    obtain ⟨-, rfl⟩ := step_pop hstep
    exact ⟨.popEnter, rfl, fun y _ _ => rfl, by simp [effect], by simp [State.goto, effect],
      Or.inl ⟨rfl, by simp [effect]⟩, by simp [Pc.pushes], by simp [Pc.oldHead], fun _ => rfl,
      fun _ => trivial⟩
  | next t spurious => exact moved_next hstep

end Step

end Sundries.LockFreeStack
