import Sundries.LockFreeStackWithHpHazards

/-!
# Reclamation in `lock_free_stack_with_hp`

The invariant of the nodes, the records and the hazard pointers holds in every
state of every run.  What it says in terms of the program: no thread follows a
pointer to a deleted node or record, the thread that is about to delete a node is
the only one that still uses it, and a node handed to `reclaim_later` is about to
be deleted by way of exactly one record, which is in exactly one place.
-/
namespace Sundries.LockFreeStackWithHp

variable {slots : Nat} {Sid Tid α : Type}

/-! ## Uses and deletions -/

/-- The node the thread may still follow a pointer to, or exchange for another one,
or delete, before it looks at a list of nodes or records again. -/
def Pc.uses : Pc Sid α → Option Addr
  | .pushCas _ n => some n
  | .popReadNext _ old | .popCas _ old _ => some old
  | .popClear old => old
  | .swapData old => some old
  | .scanOld f _ | .deleteOld f | .newRecord f => some f.oldHead
  | .scanRecord _ _ _ p _ | .deleteRecord _ _ _ p => some p
  | _ => none

/-- The node the thread deletes next. -/
def Pc.deletes : Pc Sid α → Option Addr
  | .deleteOld f => some f.oldHead
  | .deleteRecord _ _ _ p => some p
  | _ => none

/-- The record at `r` is in the place named. -/
def State.InPlace (s : State slots Sid Tid α) (r : Addr) : RecordPlace Tid → Prop
  | .free => s.records r = none
  | .listed => ∃ l, Segment (recordNext s.records) s.nodesToReclaim l none ∧ r ∈ l
  | .walked t => ∃ l, Segment (recordNext s.records) (s.pc t).chain l none ∧ r ∈ l
  | .adding t => (s.pc t).adds = some r

section Uses
variable {s : State slots Sid Tid α} {place : Addr → Place Sid Tid} {stk : Sid → List Addr}
  {rplace : Addr → RecordPlace Tid} {listed : List Addr} {walked : Tid → List Addr} {t u : Tid}
  {x : Addr}

/-- A thread uses the node it pushes, the node it has unlinked, a node it holds, or
the node of the record it has read. -/
theorem Pc.uses_cases {pc : Pc Sid α} (h : pc.uses = some x) :
    pc.pushes = some x ∨ pc.unlinks = some x ∨ pc.holds = some x ∨
      ∃ r next, pc.current = some (r, ⟨x, next⟩) := by
  cases pc <;> simp_all [Pc.uses, Pc.pushes, Pc.unlinks, Pc.holds, Pc.current]

theorem Pc.deletes_cases (slots : Nat) {pc : Pc Sid α} (h : pc.deletes = some x) :
    pc.scans slots = some (x, slots) ∧
      (pc.unlinks = some x ∨ ∃ r next, pc.current = some (r, ⟨x, next⟩)) := by
  cases pc <;> simp_all [Pc.deletes, Pc.unlinks, Pc.scans, Pc.current]

namespace Inv

/-- The record a thread has read keeps its node retired. -/
theorem retired_of_current (h : Inv s place stk rplace listed walked) {r : Addr}
    {next : Option Addr} (hcur : (s.pc t).current = some (r, ⟨x, next⟩)) : place x = .retired r :=
  (h.nodes.retired x r).mpr (by simp [recordData, h.records.current t r _ hcur])

theorem exists_used (h : Inv s place stk rplace listed walked) (hx : (s.pc t).uses = some x) :
    ∃ nd, s.heap x = some nd := by
  refine h.nodes.exists_node fun hfree => ?_
  rcases Pc.uses_cases hx with hp | hu | hh | ⟨r, next, hc⟩
  · rw [(h.nodes.pushing x t).mpr hp] at hfree
    cases hfree
  · rw [(h.nodes.unlinked x t).mpr hu] at hfree
    cases hfree
  · have := h.hazards.held t x hh
    rw [hfree] at this
    cases this
  · rw [h.retired_of_current hc] at hfree
    cases hfree

/-- The thread that is about to delete a node is the only one that uses it. -/
theorem eq_of_deletes (h : Inv s place stk rplace listed walked)
    (hx : (s.pc t).deletes = some x) (hu : (s.pc u).uses = some x) : u = t := by
  obtain ⟨hscan, hown⟩ := Pc.deletes_cases slots hx
  have hplace : place x = .unlinked t ∨ ∃ r, place x = .retired r ∧ rplace r = .walked t := by
    rcases hown with hun | ⟨r, next, hc⟩
    · exact Or.inl ((h.nodes.unlinked x t).mpr hun)
    · exact Or.inr ⟨r, h.retired_of_current hc, h.records.walked_of_current hc⟩
  rcases Pc.uses_cases hu with hp | hun | hh | ⟨r', next', hc⟩
  · have := (h.nodes.pushing x u).mpr hp
    rcases hplace with hpl | ⟨r, hpl, -⟩ <;> simp [hpl] at this
  · have := (h.nodes.unlinked x u).mpr hun
    rcases hplace with hpl | ⟨r, hpl, -⟩
    · rw [hpl] at this
      cases this
      rfl
    · simp [hpl] at this
  · exact absurd hh (h.hazards.not_held hscan u)
  · have := h.retired_of_current hc
    rcases hplace with hpl | ⟨r, hpl, hr⟩
    · simp [hpl] at this
    · rw [hpl] at this
      cases this
      have := h.records.walked_of_current hc
      rw [hr] at this
      cases this
      rfl

theorem inPlace_iff (h : Inv s place stk rplace listed walked) (r : Addr) (pl : RecordPlace Tid) :
    s.InPlace r pl ↔ rplace r = pl := by
  cases pl with
  | free => exact (h.records.free r).symm
  | listed =>
    rw [h.records.listed_iff r]
    refine ⟨?_, fun hr => ⟨listed, h.records.list, hr⟩⟩
    rintro ⟨l, hl, hr⟩
    exact h.records.list.unique hl ▸ hr
  | walked t =>
    rw [h.records.walked_iff r t]
    refine ⟨?_, fun hr => ⟨walked t, h.records.chain t, hr⟩⟩
    rintro ⟨l, hl, hr⟩
    exact (h.records.chain t).unique hl ▸ hr
  | adding t => exact (h.records.adding r t).symm

end Inv
end Uses

/-! ## The invariant in every run -/

variable [DecidableEq Sid] [DecidableEq Tid]

theorem safe_init : Safe (machine.init : State slots Sid Tid α) := by
  refine ⟨fun _ => .free, fun _ => [], fun _ => .free, [], fun _ => [], ?_⟩
  refine ⟨⟨fun k => rfl, ?_, ?_, ?_, ?_, ?_⟩, ⟨?_, rfl, ?_, fun t => rfl, ?_, ?_, ?_⟩,
    ⟨?_, ?_, ?_, ?_, ?_, ?_⟩, ?_, ?_⟩
  all_goals simp [machine, Pc.pushes, Pc.unlinks, Pc.adds, Pc.current, Pc.needsSlot, Pc.publishes,
    Pc.holds, Pc.scans, recordData]

section Steps
variable {s s' : State slots Sid Tid α} {place : Addr → Place Sid Tid} {stk : Sid → List Addr}
  {rplace : Addr → RecordPlace Tid} {listed : List Addr} {walked : Tid → List Addr} {t : Tid}

theorem Inv.pushCas (h : Inv s place stk rplace listed walked) {k : Sid} {n : Addr}
    (spurious : Bool) (hpc : s.pc t = .pushCas k n) : Safe (s.pushCas t k n spurious) := by
  have hplace : place n = .pushing t := (h.nodes.pushing n t).mpr (by simp [hpc, Pc.pushes])
  obtain ⟨nd, hnd⟩ := h.nodes.exists_node (p := n) (by simp [hplace])
  rw [State.pushCas, State.access, hnd]
  dsimp only
  split
  · rename_i hcas
    exact ⟨_, _, _, _, _, h.publish hpc (by simp [nextAt, hnd, hcas.1])⟩
  · exact ⟨_, _, _, _, _, h.pushAgain hpc⟩

/-- **The steps inside `pop`, `reclaim_later`, `delete_nodes_with_no_hazards` and
`~hp_owner`.** -/
theorem Inv.next (h : Inv s place stk rplace listed walked) (hstep : s.next t = some s') :
    Safe s' := by
  have hslot := h.hazards.hasSlot t
  have hto : ∀ {r}, s.next t = some r → Safe r → Safe s' := fun hr hsafe => by
    rw [hstep, Option.some.injEq] at hr
    exact hr ▸ hsafe
  have hinv : ∀ {r}, s.next t = some r → Inv r place stk rplace listed walked → Safe s' :=
    fun hr h' => hto hr ⟨_, _, _, _, _, h'⟩
  cases hpc : s.pc t with
  | popStart k =>
    simp only [State.next, hpc, Option.ite_none_right_eq_some, Option.some.injEq] at hstep
    obtain ⟨hhp, rfl⟩ := hstep
    exact ⟨_, _, _, _, _, h.move (by simp) (by rw [hpc]; rfl) (by rw [hpc]; rfl) (by rw [hpc]; rfl)
      (by rw [hpc]; rfl) (by simp [Pc.current]) (fun _ => Option.isSome_iff_ne_none.mp hhp)
      (by simp [Pc.publishes]) (by simp [Pc.holds]) (by simp) (by simp [Pc.scans])⟩
  | popLoad k =>
    exact hinv (by rw [State.next, hpc]) (h.move (by simp) (by rw [hpc]; rfl) (by rw [hpc]; rfl)
      (by rw [hpc]; rfl) (by rw [hpc]; rfl) (by simp [Pc.current])
      (fun _ => hslot (by rw [hpc]; rfl)) (by simp [Pc.publishes]) (by simp [Pc.holds]) (by simp)
      (by simp [Pc.scans]))
  | popStore k old =>
    exact hinv (by rw [State.next, hpc]) (h.storeHazard (hslot (by rw [hpc]; rfl)) (by simp)
      (by rw [hpc]; rfl) (by rw [hpc]; rfl) (by rw [hpc]; rfl) (by rw [hpc]; rfl) rfl rfl rfl
      (by simp [Pc.publishes]))
  | popCheck k temp => exact hinv (by rw [State.next, hpc]) (h.popCheck hpc)
  | popReadNext k old => exact hinv (by rw [State.next, hpc]) (h.popReadNext hpc)
  | popCas k old next => exact hto (by rw [State.next, hpc]) (h.popCas hpc)
  | popClear old =>
    refine hinv (by rw [State.next, hpc]) (h.storeHazard (hslot (by rw [hpc]; rfl)) ?_ ?_ ?_ ?_ ?_ ?_
      ?_ ?_ ?_)
    -- an empty stack sends the pop home, a node to `swapData`
    all_goals rcases old with - | old <;> simp [hpc, Pc.cleared, Pc.pushes, Pc.unlinks, Pc.chain,
      Pc.adds, Pc.current, Pc.holds, Pc.scans, Pc.publishes]
  | swapData old => exact hinv (by rw [State.next, hpc]) (h.swapData hpc)
  | scanOld f i => exact hto (by rw [State.next, hpc]) (h.scanOld hpc)
  | deleteOld f => exact hto (by rw [State.next, hpc]) ⟨_, _, _, _, _, h.deleteOld hpc⟩
  | addLoad f r k =>
    obtain ⟨rec, hrec⟩ := h.exists_added (t := t) (r := r) (by simp [hpc, Pc.adds])
    exact hinv (by rw [State.next, hpc]) (h.addLoad (Or.inl hpc) hrec)
  | addCas f r k => exact hto (by rw [State.next, hpc]) (h.addCas hpc)
  | exchange f => exact hto (by rw [State.next, hpc]) (h.exchange hpc)
  | walk f current => exact hinv (by rw [State.next, hpc]) (h.walk hpc)
  | scanRecord f r next p i => exact hto (by rw [State.next, hpc]) (h.scanRecord hpc)
  | deleteRecord f r next p => exact hto (by rw [State.next, hpc]) (h.deleteRecord hpc)
  | ret res =>
    exact hinv (by rw [State.next, hpc]) (h.move (by simp) (by rw [hpc]; rfl) (by rw [hpc]; rfl)
      (by rw [hpc]; rfl) (by rw [hpc]; rfl) (by simp [Pc.current]) (by simp [Pc.needsSlot])
      (by simp [Pc.publishes]) (by simp [Pc.holds]) (by simp) (by simp [Pc.scans]))
  | release => exact hinv (by rw [State.next, hpc]) (h.release hpc)
  | idle | pushCas _ _ | newRecord _ | fault => simp [State.next, hpc] at hstep

theorem safe_step {lab : Label slots Sid Tid α} (h : Safe s) (hstep : machine.step s lab = some s') :
    Safe s' := by
  obtain ⟨place, stk, rplace, listed, walked, h⟩ := h
  cases lab with
  | push t k v n =>
    simp only [machine] at hstep
    split at hstep
    · rename_i hpc hfree
      cases hstep
      exact ⟨_, _, _, _, _, h.push hpc hfree⟩
    · cases hstep
  | pushCas t spurious =>
    simp only [machine] at hstep
    split at hstep
    · rename_i hpc
      cases hstep
      exact h.pushCas spurious hpc
    · cases hstep
  | pop t k =>
    simp only [machine] at hstep
    split at hstep
    · rename_i hpc
      cases hstep
      exact ⟨_, _, _, _, _, h.move (by simp) (by rw [hpc]; rfl) (by rw [hpc]; rfl)
        (by rw [hpc]; rfl) (by rw [hpc]; rfl) (by simp [Pc.current]) (by simp [Pc.needsSlot])
        (by simp [Pc.publishes]) (by simp [Pc.holds]) (by simp) (by simp [Pc.scans])⟩
    · cases hstep
  | acquire t i =>
    simp only [machine] at hstep
    split at hstep
    · rename_i hpc _ hfree
      cases hstep
      exact ⟨_, _, _, _, _, h.acquire hpc hfree⟩
    · cases hstep
  | newRecord t r =>
    simp only [machine] at hstep
    split at hstep
    · rename_i hpc hfree
      cases hstep
      exact h.newRecord hpc hfree
    · cases hstep
  | exit t =>
    simp only [machine] at hstep
    split at hstep
    · rename_i hpc hhp
      cases hstep
      exact ⟨_, _, _, _, _, h.storeHazard (by simp [hhp]) (by simp) (by rw [hpc]; rfl)
        (by rw [hpc]; rfl) (by rw [hpc]; rfl) (by rw [hpc]; rfl) rfl rfl rfl
        (by simp [Pc.publishes])⟩
    · cases hstep
  | next t => exact h.next hstep

theorem safe_of_reachable (h : machine.Reachable s) : Safe s :=
  h.invariant safe_init fun _ _ _ => safe_step

end Steps

/-- **Hazard-pointer reclamation is safe under every interleaving.**  In every state
of every run no thread has followed a pointer to a deleted node or record, or
deleted one again; every node a thread may still use is allocated, and the thread
that is about to delete a node is the only one that uses it; a node that the next
step deletes is used by nobody any more; and each node handed to `reclaim_later`
and not deleted since has exactly one record, which is in exactly one place: in
the list from `nodes_to_reclaim`, in the chain one thread is walking, or in the
hands of one thread that is putting it into the list. -/
theorem hazardPointers_safe (ls : List (Label slots Sid Tid α)) (s : State slots Sid Tid α)
    (h : machine.run machine.init ls = some s) :
    (∀ t, s.pc t ≠ .fault) ∧
      (∀ t x, (s.pc t).uses = some x → ∃ nd, s.heap x = some nd) ∧
      (∀ t u x, (s.pc t).deletes = some x → (s.pc u).uses = some x → u = t) ∧
      (∀ lab s', machine.step s lab = some s' → ∀ x, s.heap x ≠ none → s'.heap x = none →
        ∀ t, (s'.pc t).uses ≠ some x) ∧
      ∀ x, s.handed x = true →
        ∃! e : Addr × RecordPlace Tid, recordData s.records e.1 = some x ∧ s.InPlace e.1 e.2 := by
  have hsafe : Safe s := safe_of_reachable (Machine.reachable_of_run ls h)
  have hdeleted : ∀ lab s', machine.step s lab = some s' → ∀ x, s.heap x ≠ none →
      s'.heap x = none → ∀ t, (s'.pc t).uses ≠ some x := by
    intro lab s' hstep x _ hgone t ht
    obtain ⟨_, _, _, _, _, h'⟩ := safe_step hsafe hstep
    obtain ⟨nd, hnd⟩ := h'.exists_used ht
    rw [hgone] at hnd
    cases hnd
  obtain ⟨place, stk, rplace, listed, walked, h⟩ := hsafe
  refine ⟨h.running, fun t x => h.exists_used, fun t u x => h.eq_of_deletes, hdeleted,
    fun x hx => ?_⟩
  obtain ⟨r, hr⟩ := (h.handed x).mp hx
  refine ⟨(r, rplace r), ⟨(h.nodes.retired x r).mp hr, (h.inPlace_iff r _).mpr rfl⟩, ?_⟩
  rintro ⟨r', pl⟩ ⟨hdata, hpl⟩
  have hr' := (h.nodes.retired x r').mpr hdata
  rw [hr] at hr'
  cases hr'
  rw [← (h.inPlace_iff r pl).mp hpl]

/-- Thread 0 pushes node 1, which thread 1 publishes and is about to follow; thread 0
unlinks it, hands it to `reclaim_later` and puts its record back into the list. -/
def putBack : List (Label 2 Unit Nat Nat) :=
  [.push 0 () 7 1, .pushCas 0 false, .pop 1 (), .acquire 1 (Fin.rev (Fin.last 1))] ++
    List.replicate 3 (.next 1) ++
    [.pop 0 (), .acquire 0 (Fin.last 1)] ++ List.replicate 8 (.next 0) ++
    .newRecord 0 5 :: List.replicate 9 (.next 0)

/-- After thread 1 has found the stack empty, thread 0 pushes and pops node 2, and
deletes both nodes. -/
def putBackAndDelete : List (Label 2 Unit Nat Nat) :=
  putBack ++ List.replicate 6 (.next 1) ++ [.push 0 () 8 2, .pushCas 0 false, .pop 0 ()] ++
    List.replicate 20 (.next 0)

theorem putBack_safe :
    (∃ s, machine.run machine.init putBack = some s ∧ s.handed 1 = true ∧
      ∃! e : Addr × RecordPlace Nat, recordData s.records e.1 = some 1 ∧ s.InPlace e.1 e.2) ∧
    ∃ s, machine.run machine.init putBackAndDelete = some s ∧ (∀ t, s.pc t ≠ .fault) ∧
      s.heap 1 = none ∧ s.heap 2 = none ∧ s.records 5 = none := by
  obtain ⟨-, -, -, -, hplace⟩ := hazardPointers_safe putBack _ rfl
  obtain ⟨hrunning, -⟩ := hazardPointers_safe putBackAndDelete _ rfl
  exact ⟨⟨_, rfl, rfl, hplace 1 rfl⟩, ⟨_, rfl, hrunning, rfl, rfl, rfl⟩⟩

end Sundries.LockFreeStackWithHp
