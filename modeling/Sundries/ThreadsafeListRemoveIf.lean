import Sundries.ThreadsafeList

/-!
# `remove_if` is a filter

The callbacks are pure here: a callback is a predicate, which leaves the value as it is and
answers what it answers to this value every time.  Other threads push nodes and run their
traversals while one thread is in `remove_if`; what they do to the list is kept in a trace of
the links they set.

The nodes that the call has yet to come to are those behind `current`.  Nobody can overtake
it: the mutex of `current` is held all the time, so that nodes are pushed in front of it only,
and `current` stays in the list.
-/
namespace Sundries.ThreadsafeList

variable {Tid V : Type}

/-- What a pure callback may do. -/
def pureCallback [DecidableEq V] (q : V → Bool) (old v : V) (b : Option Bool) : Bool :=
  decide (v = old) && decide (b = some (q old))

/-- A node becomes part of the list, or leaves it. -/
inductive Event (Tid V : Type) where
  | pushed (t : Tid) (n : Addr)
  | unlinked (t : Tid) (p : V → Bool) (n : Addr)

/-- The thread that has set the link. -/
def Event.tid : Event Tid V → Tid
  | .pushed t _ | .unlinked t _ _ => t

/-- The list changes where `head.next` is set to a new node and where `old_next` takes over
the link of `current`. -/
def events (s : State Tid V (V → Bool)) : Label Tid V (V → Bool) → List (Event Tid V)
  | .next t =>
    match s.pc t with
    | .pushHead n => [.pushed t n]
    | .unlink p _ next => [.unlinked t p next]
    | _ => []
  | _ => []

/-- The thread that takes the step. -/
def Label.tid {C : Type} : Label Tid V C → Tid
  | .pushFront t _ | .call t _ | .next t | .callback t _ _ => t

/-- The step is the call of a member function by `t`. -/
def Label.Begins {C : Type} : Label Tid V C → Tid → Prop
  | .pushFront u _, t | .call u _, t => u = t
  | .next _, _ | .callback .., _ => False

/-- The values of the list are `q`: they are met along the links from the head to null. -/
def State.Holds {C : Type} (s : State Tid V C) (q : List V) : Prop :=
  LinkedStack (nextAt s.heap) (dataAt s.heap) (nextAt s.heap head) s.nodes q

/-- The node at `a` is met along the links from the head. -/
def State.Met {C : Type} (s : State Tid V C) (a : Addr) : Prop :=
  ∃ l, Segment (nextAt s.heap) (some head) l none ∧ a ∈ l

/-- Only nodes of the list are met. -/
theorem Inv.mem_of_met {C : Type} {s : State Tid V C} {a : Addr} (h : Inv s) (ha : s.Met a) :
    a ∈ s.list := by
  obtain ⟨l, hl, hmem⟩ := ha
  obtain ⟨l', hpre, hl'⟩ := h.exists_chain
  exact hpre.subset (hl.unique hl' ▸ hmem)

/-! ## Where a step leads -/

section Moves
variable {C : Type}

/-- The steps through the member functions when nothing goes wrong: what becomes of the nodes
in the list, and where the thread goes on. -/
inductive Pc.Moves (nodes : List Addr) : Pc C → List Addr → Pc C → Prop where
  | pushLock (n : Addr) : Moves nodes (.pushLock n) nodes (.pushNext n)
  | pushNext (n : Addr) : Moves nodes (.pushNext n) nodes (.pushHead n)
  | pushHead (n : Addr) : Moves nodes (.pushHead n) (n :: nodes) (.release head)
  | lockHead (c : Call C) : Moves nodes (.lockHead c) nodes (.scan c head)
  | scan (c : Call C) {a b : Addr} (h : follower (head :: nodes) a = some b) :
    Moves nodes (.scan c a) nodes (.lockNext c a b)
  | last (c : Call C) {a : Addr} (h : follower (head :: nodes) a = none) :
    Moves nodes (.scan c a) nodes (.release a)
  | lockNext (p : C) (a b : Addr) :
    Moves nodes (.lockNext (.removeIf p) a b) nodes (.callback (.removeIf p) a b)
  | lockNextOther {c : Call C} (a b : Addr) (h : ∀ p, c ≠ .removeIf p) :
    Moves nodes (.lockNext c a b) nodes (.unlock c a b)
  | unlock (p : C) (a b : Addr) :
    Moves nodes (.unlock (.removeIf p) a b) nodes (.scan (.removeIf p) b)
  | unlockOther {c : Call C} (a b : Addr) (h : ∀ p, c ≠ .removeIf p) :
    Moves nodes (.unlock c a b) nodes (.callback c a b)
  | unlink (p : C) (a b : Addr) (q : Option Addr) :
    Moves nodes (.unlink p a b) (nodes.erase b) (.relink p a b q)
  | relink (p : C) (a b : Addr) (q : Option Addr) :
    Moves nodes (.relink p a b q) nodes (.unlockNext p a b q)
  | unlockNext (p : C) (a b : Addr) (q : Option Addr) :
    Moves nodes (.unlockNext p a b q) nodes (.destroy p a q)
  | destroy (p : C) (a : Addr) (q : Option Addr) :
    Moves nodes (.destroy p a q) nodes (.scan (.removeIf p) a)
  | unwind (a b : Addr) : Moves nodes (.unwind a b) nodes (.release a)
  | release (a : Addr) : Moves nodes (.release a) nodes .idle

variable [DecidableEq Tid] {s s' : State Tid V C} {t : Tid} {a : Addr} {pc' : Pc C}

theorem lock_moves (hstep : s.lock t a pc' = some s') :
    s'.pc = Function.update s.pc t .fault ∨
      s'.pc = Function.update s.pc t pc' ∧ s'.nodes = s.nodes ∧ s'.allocated = s.allocated := by
  unfold State.lock at hstep
  split at hstep
  · cases hstep
    exact Or.inl rfl
  · split at hstep
    · cases hstep
      exact Or.inr ⟨rfl, rfl, rfl⟩
    · cases hstep

theorem unlock_moves (s : State Tid V C) (t : Tid) (a : Addr) (pc' : Pc C) :
    (s.unlock t a pc').pc = Function.update s.pc t .fault ∨
      (s.unlock t a pc').pc = Function.update s.pc t pc' ∧ (s.unlock t a pc').nodes = s.nodes ∧
        (s.unlock t a pc').allocated = s.allocated := by
  unfold State.unlock
  split
  · exact Or.inl rfl
  · exact Or.inr ⟨rfl, rfl, rfl⟩

/-- Either something goes wrong, or the step is one of `Pc.Moves`. -/
theorem next_moves_or (h : Inv s) (hstep : s.next t = some s') :
    s'.pc = Function.update s.pc t .fault ∨
      ∃ pc', s'.pc = Function.update s.pc t pc' ∧ (s.pc t).Moves s.nodes s'.nodes pc' ∧
        s'.allocated = s.allocated := by
  have hmoves : ∀ pc', (s'.pc = Function.update s.pc t .fault ∨
      s'.pc = Function.update s.pc t pc' ∧ s'.nodes = s.nodes ∧ s'.allocated = s.allocated) →
      (s.pc t).Moves s.nodes s.nodes pc' → s'.pc = Function.update s.pc t .fault ∨
        ∃ pc', s'.pc = Function.update s.pc t pc' ∧ (s.pc t).Moves s.nodes s'.nodes pc' ∧
          s'.allocated = s.allocated := by
    rintro pc' (hfault | ⟨hpc, hnodes, hallocated⟩) hmove
    · exact Or.inl hfault
    · exact Or.inr ⟨pc', hpc, hnodes ▸ hmove, hallocated⟩
  have hknows := h.knows t
  unfold State.next at hstep
  cases hpc : s.pc t with
  | idle | callback c current nx | fault => simp [hpc] at hstep
  | pushLock n =>
    simp only [hpc] at hstep
    exact hpc ▸ hmoves _ (lock_moves hstep) (hpc ▸ .pushLock n)
  | lockHead c =>
    simp only [hpc] at hstep
    exact hpc ▸ hmoves _ (lock_moves hstep) (hpc ▸ .lockHead c)
  | pushNext n =>
    simp only [hpc] at hstep
    split at hstep <;> cases hstep
    · exact Or.inr ⟨_, rfl, .pushNext n, rfl⟩
    · exact Or.inl rfl
  | pushHead n =>
    simp only [hpc] at hstep
    split at hstep <;> cases hstep
    · exact Or.inr ⟨_, rfl, .pushHead n, rfl⟩
    · exact Or.inl rfl
  | scan c current =>
    rw [hpc] at hknows
    -- the link that is read is that of the account
    have hlink : nextAt s.heap current = follower s.list current :=
      h.next_of_held (by rw [hpc]; exact List.mem_cons_self) hknows (by rw [hpc]; exact id)
    simp only [hpc] at hstep
    split at hstep
    · next nd hnd =>
      rw [nextAt, hnd] at hlink
      split at hstep
      · next nx hnx =>
        cases hstep
        exact Or.inr ⟨_, rfl, .scan c (hlink.symm.trans hnx), rfl⟩
      · next hnx =>
        cases hstep
        exact Or.inr ⟨_, rfl, .last c (hlink.symm.trans hnx), rfl⟩
    · cases hstep
      exact Or.inl rfl
  | lockNext c current nx =>
    cases c with
    | removeIf p =>
      simp only [hpc] at hstep
      exact hpc ▸ hmoves _ (lock_moves hstep) (hpc ▸ .lockNext p current nx)
    | forEach f | findFirstIf p =>
      simp only [hpc] at hstep
      exact hpc ▸ hmoves _ (lock_moves hstep)
        (hpc ▸ .lockNextOther current nx fun q hq => by cases hq)
  | unlock c current nx =>
    cases c with
    | removeIf p =>
      simp only [hpc, Option.some.injEq] at hstep
      subst hstep
      exact hpc ▸ hmoves _ (unlock_moves ..) (hpc ▸ .unlock p current nx)
    | forEach f | findFirstIf p =>
      simp only [hpc, Option.some.injEq] at hstep
      subst hstep
      exact hpc ▸ hmoves _ (unlock_moves ..) (hpc ▸ .unlockOther current nx fun q hq => by cases hq)
  | unlink p current nx =>
    simp only [hpc] at hstep
    split at hstep <;> cases hstep
    · exact Or.inr ⟨_, rfl, .unlink p current nx _, rfl⟩
    · exact Or.inl rfl
  | relink p current nx oldNext =>
    simp only [hpc] at hstep
    split at hstep <;> cases hstep
    · exact Or.inr ⟨_, rfl, .relink p current nx oldNext, rfl⟩
    · exact Or.inl rfl
  | unlockNext p current nx oldNext =>
    simp only [hpc, Option.some.injEq] at hstep
    subst hstep
    exact hpc ▸ hmoves _ (unlock_moves ..) (hpc ▸ .unlockNext p current nx oldNext)
  | destroy p current oldNext =>
    simp only [hpc] at hstep
    split at hstep
    · cases hstep
      exact Or.inr ⟨_, rfl, .destroy p current _, rfl⟩
    · split at hstep
      · split at hstep <;> cases hstep
        · exact Or.inl rfl
        · exact Or.inr ⟨_, rfl, .destroy p current _, rfl⟩
      · cases hstep
        exact Or.inl rfl
  | unwind current nx =>
    simp only [hpc, Option.some.injEq] at hstep
    subst hstep
    exact hpc ▸ hmoves _ (unlock_moves ..) (hpc ▸ .unwind current nx)
  | release a =>
    simp only [hpc, Option.some.injEq] at hstep
    subst hstep
    exact hpc ▸ hmoves _ (unlock_moves ..) (hpc ▸ .release a)

/-- Nothing goes wrong. -/
theorem next_moves (h : Inv s) (hstep : s.next t = some s') :
    ∃ pc', s'.pc = Function.update s.pc t pc' ∧ (s.pc t).Moves s.nodes s'.nodes pc' ∧
      s'.allocated = s.allocated := by
  rcases next_moves_or h hstep with hfault | hmoves
  · have hknows := (h.next hstep).knows t
    rw [hfault, Function.update_self] at hknows
    exact hknows.elim
  · exact hmoves

end Moves

/-! ## The values stay, and nodes are touched by name -/

section Data
variable {C : Type} {heap heap' : Addr → Option (Node V)} {a b : Addr} {v : V}

theorem assign_data {q : Option Addr} (h : assign heap a q = some heap') :
    dataAt heap' b = dataAt heap b := by
  unfold assign at h
  split at h
  · next nd hnd =>
    split at h
    · cases h
    · cases h
      by_cases hb : b = a
      · subst b
        simp [dataAt, hnd]
      · simp [dataAt, hb]
  · cases h

theorem moveNext_data {r : Option Addr × (Addr → Option (Node V))}
    (h : moveNext heap a = some r) : dataAt r.2 b = dataAt heap b := by
  unfold moveNext at h
  split at h
  · next nd hnd =>
    cases h
    by_cases hb : b = a
    · subst b
      simp [dataAt, hnd]
    · simp [dataAt, hb]
  · cases h

theorem assign_of_ne {q : Option Addr} (h : assign heap a q = some heap') (hb : b ≠ a) :
    heap' b = heap b := by
  unfold assign at h
  split at h
  · split at h
    · cases h
    · cases h
      exact Function.update_of_ne hb ..
  · cases h

theorem moveNext_of_ne {r : Option Addr × (Addr → Option (Node V))}
    (h : moveNext heap a = some r) (hb : b ≠ a) : r.2 b = heap b := by
  unfold moveNext at h
  split at h
  · cases h
    exact Function.update_of_ne hb ..
  · cases h

variable [DecidableEq Tid] {s s' : State Tid V C} {t : Tid}

/-- The values in the nodes that are left are the old ones. -/
theorem next_data (hstep : s.next t = some s') (hv : dataAt s'.heap a = some v) :
    dataAt s.heap a = some v := by
  refine next_heap (P := fun heap => dataAt heap a = some v → dataAt s.heap a = some v) hstep id
    (fun _ _ _ _ _ h hassign => ?_) (fun _ _ _ _ h hmove => ?_) (fun _ _ x _ hx => ?_) hv
  · rwa [assign_data hassign]
  · rwa [moveNext_data hmove]
  · by_cases ha : a = x
    · subst a
      simp [dataAt] at hx
    · simpa [dataAt, ha] using hx

/-- The mutexes that a thread comes to hold are of nodes that it touches. -/
theorem Pc.Moves.touches {nodes nodes' : List Addr} {pc pc' : Pc C}
    (h : pc.Moves nodes nodes' pc') (ha : a ∈ pc'.holds) : pc.Touches a := by
  cases h with
  | pushLock n | lockHead c => exact Or.inr (Or.inr (List.mem_singleton.mp ha))
  | pushNext n | pushHead n | scan c h | last c h | unlink p x y q | relink p x y q
  | destroy p x q => exact Or.inl ha
  | lockNext p x y =>
    rcases List.mem_cons.mp ha with rfl | ha
    · exact Or.inl List.mem_cons_self
    · exact Or.inr (Or.inr (List.mem_singleton.mp ha))
  | @lockNextOther c x y hc =>
    rcases List.mem_cons.mp ha with rfl | ha
    · exact Or.inl List.mem_cons_self
    · exact Or.inr (Or.inr (List.mem_singleton.mp ha))
  | unlock p x y => exact Or.inl (List.mem_cons_of_mem x ha)
  | @unlockOther c x y hc =>
    cases c with
    | removeIf p => exact absurd rfl (hc p)
    | forEach f | findFirstIf p => exact Or.inl (List.mem_cons_of_mem x ha)
  | unlockNext p x y q | unwind x y =>
    rw [List.mem_singleton.mp ha]
    exact Or.inl List.mem_cons_self
  | release x => cases ha

/-- **The frame rule of a step**: other nodes than the thread touches stay as they are, with
their mutexes. -/
theorem next_frame (h : Inv s) (hstep : s.next t = some s') (ha : ¬ (s.pc t).Touches a) :
    s'.heap a = s.heap a ∧ s'.mutex a = s.mutex a := by
  constructor
  · have hne : ∀ x, (s.pc t).Touches x → a ≠ x := fun x hx he => ha (he ▸ hx)
    refine next_heap (P := fun heap => heap a = s.heap a) hstep rfl
      (fun _ _ x _ hx h hassign => (assign_of_ne hassign (hne x hx)).trans h)
      (fun _ x _ hx h hmove => (moveNext_of_ne hmove (hne x hx)).trans h) fun p current x hx => ?_
    have howns : (s.pc t).Touches x := by
      rw [hx]
      exact Or.inr (Or.inl rfl)
    exact Function.update_of_ne (hne x howns) ..
  · obtain ⟨pc', hpc, hmoves, -⟩ := next_moves h hstep
    refine Option.ext fun u => ?_
    rw [(h.next hstep).mutex a u, h.mutex a u, hpc]
    by_cases hu : u = t
    · subst u
      rw [Function.update_self]
      exact iff_of_false (fun hin => ha (hmoves.touches hin)) fun hin => ha (Or.inl hin)
    · rw [Function.update_of_ne hu]

end Data

section Pure
variable [DecidableEq Tid] [DecidableEq V] {s s' : State Tid V (V → Bool)} {t : Tid} {a : Addr}
  {l : Label Tid V (V → Bool)}

/-- A pure callback changes nothing but the program point. -/
theorem callback_pure {v : V} {b : Option Bool}
    (h : Inv s) (hstep : s.callback pureCallback t v b = some s') :
    ∃ c current nx old, s.pc t = .callback c current nx ∧ dataAt s.heap nx = some old ∧
      s' = s.goto t (c.after current nx (some (c.callback old))) := by
  have hfault : ∀ r : State Tid V (V → Bool), r = s.goto t .fault → ¬ Inv r := by
    rintro r rfl hr
    have hknows := hr.knows t
    simp only [State.goto, Function.update_self] at hknows
    exact hknows
  have hinv := h.callback hstep
  unfold State.callback at hstep
  split at hstep
  · next c current nx hpc =>
    split at hstep
    · next nd hnd =>
      split at hstep
      · next old hold =>
        split at hstep
        · next hmay =>
          obtain ⟨rfl, rfl⟩ : v = old ∧ b = some (c.callback old) := by
            simpa [pureCallback] using hmay
          cases hstep
          have hsame : some { nd with data := some v } = s.heap nx := by
            rw [hnd, ← hold]
          refine ⟨c, current, nx, v, hpc, by rw [dataAt, hnd]; exact hold, ?_⟩
          rw [hsame, Function.update_eq_self]
        · cases hstep
      · cases hstep
        exact absurd hinv (hfault _ rfl)
    · cases hstep
      exact absurd hinv (hfault _ rfl)
  · cases hstep

/-- A pure callback can be called, and is answered for the value in the node. -/
theorem callback_old {c : Call (V → Bool)} {current nx : Addr} {old : V}
    (hpc : s.pc t = .callback c current nx) (hold : dataAt s.heap nx = some old) :
    s.callback pureCallback t old (some (c.callback old)) =
      some (s.goto t (c.after current nx (some (c.callback old)))) := by
  obtain ⟨nd, hnd, hdata⟩ := Option.bind_eq_some_iff.mp hold
  have hsame : some { nd with data := some old } = s.heap nx := by
    rw [hnd, ← hdata]
  simp only [State.callback, hpc, hnd, hdata, pureCallback, decide_true, Bool.and_self, if_true]
  rw [hsame, Function.update_eq_self]

/-- The steps of the machine when nothing goes wrong: from where to where a thread comes, and
what becomes of the nodes in the list and of the number of nodes made. -/
inductive Pc.Steps (s : State Tid V (V → Bool)) :
    Pc (V → Bool) → List Addr → ℕ → Pc (V → Bool) → Prop where
  | makes : Steps s .idle s.nodes (s.allocated + 1) (.pushLock s.allocated)
  | begins (c : Call (V → Bool)) : Steps s .idle s.nodes s.allocated (.lockHead c)
  | moves {pc pc' : Pc (V → Bool)} {nodes' : List Addr} (h : pc.Moves s.nodes nodes' pc') :
    Steps s pc nodes' s.allocated pc'
  | answers (c : Call (V → Bool)) (a : Addr) {b : Addr} {old : V} (h : dataAt s.heap b = some old) :
    Steps s (.callback c a b) s.nodes s.allocated (c.after a b (some (c.callback old)))

/-- A step moves one thread. -/
theorem step_steps (h : Inv s) (hstep : (machine pureCallback).step s l = some s') :
    ∃ pc', s'.pc = Function.update s.pc l.tid pc' ∧
      Pc.Steps s (s.pc l.tid) s'.nodes s'.allocated pc' := by
  cases l with
  | pushFront u v =>
    simp only [machine] at hstep
    split at hstep
    · next hpc =>
      cases hstep
      exact ⟨_, rfl, by rw [Label.tid, hpc]; exact .makes⟩
    · cases hstep
  | call u c =>
    simp only [machine] at hstep
    split at hstep
    · next hpc =>
      cases hstep
      exact ⟨_, rfl, by rw [Label.tid, hpc]; exact .begins c⟩
    · cases hstep
  | next u =>
    obtain ⟨pc', hpc, hmoves, hallocated⟩ := next_moves h hstep
    exact ⟨pc', hpc, hallocated ▸ .moves hmoves⟩
  | callback u v b =>
    obtain ⟨c, current, nx, old, hpc, hold, rfl⟩ := callback_pure h hstep
    exact ⟨_, rfl, by rw [Label.tid, hpc]; exact .answers c current hold⟩

theorem step_pc_of_ne (h : Inv s) (hstep : (machine pureCallback).step s l = some s')
    (ht : t ≠ l.tid) : s'.pc t = s.pc t := by
  obtain ⟨pc', hpc, -⟩ := step_steps h hstep
  rw [hpc, Function.update_of_ne ht]

/-- **What a step does to the list**: nothing, or it sets one of the two links. -/
theorem step_nodes (h : Inv s) (hstep : (machine pureCallback).step s l = some s') :
    (s'.nodes = s.nodes ∧ events s l = []) ∨
      (∃ n, s.pc l.tid = .pushHead n ∧ s'.pc l.tid = .release head ∧ s'.nodes = n :: s.nodes ∧
        events s l = [.pushed l.tid n]) ∨
      ∃ q a b, s.pc l.tid = .unlink q a b ∧ (s'.pc l.tid).owns = some b ∧
        s'.nodes = s.nodes.erase b ∧ events s l = [.unlinked l.tid q b] := by
  cases l with
  | pushFront u v | call u c =>
    simp only [machine] at hstep
    split at hstep
    · cases hstep
      exact Or.inl ⟨rfl, rfl⟩
    · cases hstep
  | callback u v b =>
    obtain ⟨c, current, nx, old, -, -, rfl⟩ := callback_pure h hstep
    exact Or.inl ⟨rfl, rfl⟩
  | next u =>
    obtain ⟨pc', hpc, hmoves, -⟩ := next_moves h hstep
    have hself : s'.pc u = pc' := by rw [hpc, Function.update_self]
    generalize hnodes : s'.nodes = nodes' at hmoves
    cases hu : s.pc u with
    | pushHead n =>
      rw [hu] at hmoves
      cases hmoves with
      | pushHead n => exact Or.inr (Or.inl ⟨n, hu, hself, rfl, by simp [events, hu, Label.tid]⟩)
    | unlink q a b =>
      rw [hu] at hmoves
      cases hmoves with
      | unlink q a b old =>
        exact Or.inr (Or.inr ⟨q, a, b, hu, by rw [Label.tid, hself]; rfl, rfl,
          by simp [events, hu, Label.tid]⟩)
    | _ =>
      rw [hu] at hmoves
      refine Or.inl ⟨?_, by simp [events, hu]⟩
      cases hmoves <;> rfl

theorem step_allocated (h : Inv s) (hstep : (machine pureCallback).step s l = some s') :
    s.allocated ≤ s'.allocated := by
  obtain ⟨pc', -, hsteps⟩ := step_steps h hstep
  generalize s.pc l.tid = pc at hsteps
  generalize s'.nodes = nodes' at hsteps
  generalize s'.allocated = allocated' at hsteps ⊢
  cases hsteps with
  | makes => exact Nat.le_succ _
  | begins c | moves hmoves | answers c a hold => exact Nat.le_refl _

/-- The values in the nodes that stay in the list stay. -/
theorem step_data (h : Inv s) (hstep : (machine pureCallback).step s l = some s')
    (ha : a ∈ s.nodes) (ha' : a ∈ s'.nodes) : dataAt s'.heap a = dataAt s.heap a := by
  cases l with
  | pushFront u v =>
    simp only [machine] at hstep
    split at hstep
    · cases hstep
      have hne : a ≠ s.allocated := by
        rintro rfl
        have hlive := h.live _ (List.mem_cons_of_mem head ha)
        rw [h.fresh _ (Nat.le_refl _)] at hlive
        cases hlive
      simp [dataAt, State.goto, hne]
    · cases hstep
  | call u c =>
    simp only [machine] at hstep
    split at hstep
    · cases hstep
      rfl
    · cases hstep
  | next u =>
    obtain ⟨v, hv⟩ := Option.isSome_iff_exists.mp ((h.next hstep).data a ha')
    rw [hv, next_data hstep hv]
  | callback u v b =>
    obtain ⟨c, current, nx, old, -, -, rfl⟩ := callback_pure h hstep
    rfl

end Pure

/-! ## What the predicates have said -/

/-- The value in the node at `a` satisfies the predicate. -/
def State.Satisfies {C : Type} (s : State Tid V C) (p : V → Bool) (a : Addr) : Bool :=
  (dataAt s.heap a).any p

/-- A thread that unlinks a node has asked its predicate, and so has one that keeps it. -/
def Pc.Judged (sat : (V → Bool) → Addr → Bool) : Pc (V → Bool) → Prop
  | .unlink q _ next => sat q next = true
  | .unlock c _ next =>
    match c with
    | .removeIf q => sat q next = false
    | .forEach _ | .findFirstIf _ => True
  | _ => True

/-- The answer is still right as long as the node is in the list. -/
theorem Pc.Judged.frame {pc : Pc (V → Bool)} {sat sat' : (V → Bool) → Addr → Bool}
    {l l' : List Addr} {next next' : Addr → Option Addr} (h : pc.Judged sat)
    (hknows : pc.Knows l next) (hknows' : pc.Knows l' next')
    (hsame : ∀ q a b, follower l a = some b → follower l' a = some b → sat' q b = sat q b) :
    pc.Judged sat' := by
  cases pc with
  | unlink q a b => exact (hsame q a b hknows hknows').trans h
  | unlock c a b =>
    cases c with
    | removeIf q => exact (hsame q a b hknows hknows').trans h
    | forEach f | findFirstIf p => trivial
  | _ => trivial

section Judged
variable [DecidableEq Tid] [DecidableEq V] {s s' : State Tid V (V → Bool)} {t : Tid} {a : Addr}
  {l : Label Tid V (V → Bool)}

theorem step_satisfies (h : Inv s) (hstep : (machine pureCallback).step s l = some s')
    (ha : a ∈ s.nodes) (ha' : a ∈ s'.nodes) (q : V → Bool) :
    s'.Satisfies q a = s.Satisfies q a := by
  rw [State.Satisfies, step_data h hstep ha ha', State.Satisfies]

theorem judged_step (h : Inv s) (hjudged : ∀ u, (s.pc u).Judged s.Satisfies)
    (hstep : (machine pureCallback).step s l = some s') (u : Tid) :
    (s'.pc u).Judged s'.Satisfies := by
  have h' := h.step hstep
  by_cases hu : u = l.tid
  · obtain ⟨pc', hpc, hsteps⟩ := step_steps h hstep
    have hknows := h.knows l.tid
    rw [hu, hpc, Function.update_self]
    generalize s.pc l.tid = pc at hsteps hknows
    generalize hnodes : s'.nodes = nodes' at hsteps
    generalize s'.allocated = allocated' at hsteps
    cases hsteps with
    | makes | begins c => trivial
    | moves hmoves =>
      cases hmoves with
      | @lockNextOther c a b hc =>
        cases c with
        | removeIf q => exact absurd rfl (hc q)
        | forEach f | findFirstIf q => trivial
      | _ => trivial
    | @answers c a b old hold =>
      cases c with
      | forEach f => trivial
      | findFirstIf q => cases hq : q old <;> simp [Call.callback, Call.after, hq, Pc.Judged]
      | removeIf q =>
        have hb := (h.mem_nodes_of_follower hknows).1
        have hsat : s'.Satisfies q b = q old := by
          rw [step_satisfies h hstep hb (hnodes ▸ hb), State.Satisfies, hold, Option.any_some]
        cases hq : q old <;> simp [Call.callback, Call.after, hq, Pc.Judged, hsat]
  · have hknows := h.knows u
    have hknows' := h'.knows u
    rw [step_pc_of_ne h hstep hu] at hknows' ⊢
    exact (hjudged u).frame hknows hknows' fun q a b hf hf' =>
      step_satisfies h hstep (h.mem_nodes_of_follower hf).1 (h'.mem_nodes_of_follower hf').1 q

theorem reachable_judged (h : (machine pureCallback).Reachable s) (u : Tid) :
    (s.pc u).Judged s.Satisfies := by
  have hboth := h.invariant (P := fun s => Inv s ∧ ∀ u, (s.pc u).Judged s.Satisfies)
    ⟨Inv.init, fun _ => trivial⟩
    fun _ _ _ hs hstep => ⟨hs.1.step hstep, judged_step hs.1 hs.2 hstep⟩
  exact hboth.2 u

end Judged

/-! ## One call of `remove_if` -/

namespace Pc

/-- The thread is in the loop of `remove_if(p)`, or behind it. -/
def InCall {C : Type} (p : C) : Pc C → Prop
  | .scan c _ | .lockNext c _ _ | .unlock c _ _ | .callback c _ _ => c = .removeIf p
  | .unlink q _ _ | .relink q _ _ _ | .unlockNext q _ _ _ | .destroy q _ _ => q = p
  | .release _ | .idle => True
  | _ => False

/-- The variable `current` of the loop. -/
def current {C : Type} : Pc C → Option Addr
  | .scan _ a | .lockNext _ a _ | .unlock _ a _ | .callback _ a _ | .unlink _ a _
  | .relink _ a _ _ | .unlockNext _ a _ _ | .destroy _ a _ => some a
  | _ => none

/-- The nodes of the list that the loop has yet to come to. -/
def ahead {C : Type} (l : List Addr) (pc : Pc C) : List Addr :=
  match pc.current with
  | some a => behind l a
  | none => []

theorem ahead_eq {C : Type} {l : List Addr} {pc : Pc C} {a : Addr} (h : pc.current = some a) :
    pc.ahead l = behind l a := by
  rw [ahead, h]

/-- What brings a call of `remove_if(p)` from `pc` to `pc'` while the list is `l`: it goes on
among the nodes ahead, and passes none that satisfies the predicate. -/
structure Advances {C : Type} (p : C) (sat : Addr → Bool) (l : List Addr) (pc pc' : Pc C) :
    Prop where
  call : pc'.InCall p
  touches : ∀ a, pc'.Touches a → pc.Touches a ∨ a ∈ pc.ahead l
  ahead : pc'.ahead l ⊆ pc.ahead l
  keeps : ∀ a ∈ pc.ahead l, sat a → a ∈ pc'.ahead l

variable {C : Type} {p : C} {sat : Addr → Bool} {l : List Addr} {pc pc' : Pc C}

theorem Advances.refl (h : pc.InCall p) : Advances p sat l pc pc :=
  ⟨h, fun _ => Or.inl, List.Subset.refl _, fun _ ha _ => ha⟩

/-- The thread stays at the same `current`. -/
theorem Advances.stay (h : pc'.InCall p) (hcurrent : pc'.current = pc.current)
    (htouches : ∀ a, pc'.Touches a → pc.Touches a ∨ a ∈ pc.ahead l) : Advances p sat l pc pc' := by
  have hahead : pc'.ahead l = pc.ahead l := by rw [Pc.ahead, hcurrent, Pc.ahead]
  refine ⟨h, htouches, ?_, fun a ha _ => ?_⟩
  · rw [hahead]
    exact List.Subset.refl _
  · rwa [hahead]

/-- The mutex of `current` is held all the time, and `current` is in the list. -/
theorem InCall.current {next : Addr → Option Addr} {a : Addr} (h : pc.InCall p)
    (hknows : pc.Knows l next) (ha : pc.current = some a) : a ∈ pc.holds ∧ a ∈ l := by
  cases pc with
  | idle | pushLock n | pushNext n | pushHead n | lockHead c | unwind a b | release a | fault =>
    cases ha
  | scan c b =>
    cases ha
    exact ⟨List.mem_cons_self, hknows⟩
  | lockNext c b d | unlock c b d | unlink q b d =>
    cases ha
    exact ⟨List.mem_cons_self, (mem_of_follower hknows).1⟩
  | callback c b d =>
    cases ha
    obtain rfl : c = .removeIf p := h
    exact ⟨List.mem_cons_self, (mem_of_follower hknows).1⟩
  | relink q b d old | unlockNext q b d old | destroy q b old =>
    cases ha
    exact ⟨List.mem_cons_self, hknows.1⟩

end Pc

/-- A step of the thread itself. -/
theorem next_advances {C : Type} [DecidableEq Tid] {s s' : State Tid V C} {t : Tid} {p : C}
    {sat : Addr → Bool} (h : Inv s) (hcall : (s.pc t).InCall p)
    (hjudged : ∀ a b, s.pc t = .unlock (.removeIf p) a b → sat b = false)
    (hstep : s.next t = some s') : (s.pc t).Advances p sat s.list (s'.pc t) := by
  obtain ⟨pc', hpc, hmoves, -⟩ := next_moves h hstep
  have hknows := h.knows t
  rw [hpc, Function.update_self]
  generalize s'.nodes = nodes' at hmoves
  generalize s.pc t = pc at hcall hjudged hmoves hknows
  cases hmoves with
  | pushLock n | pushNext n | pushHead n | lockHead c | unwind a b => cases hcall
  | @scan c a b hf =>
    refine .stay hcall rfl fun x hx => ?_
    have hmem : b ∈ behind s.list a := by
      rw [behind_of_follower h.nodup hf]
      exact List.mem_cons_self
    rcases hx with hx | hx | hx
    · exact Or.inl (Or.inl hx)
    · cases hx
    · exact Or.inr ((show x = b from hx) ▸ hmem)
  | @last c a hf =>
    -- nothing stands behind the last node
    have hempty : (Pc.scan c a).ahead s.list = [] := by
      rw [Pc.ahead_eq rfl, ← List.head?_eq_none_iff, head?_behind]
      exact hf
    refine ⟨trivial, fun x hx => Or.inl ?_, List.nil_subset _, fun x hx => ?_⟩
    · simpa [Pc.Touches, Pc.holds, Pc.owns, Pc.Waits] using hx
    · rw [hempty] at hx
      cases hx
  | lockNext q a b =>
    refine .stay hcall rfl fun x hx => Or.inl ?_
    simpa [Pc.Touches, Pc.holds, Pc.owns, Pc.Waits] using hx
  | @lockNextOther c a b hc | @unlockOther c a b hc => exact absurd hcall (hc p)
  | unlock q a b =>
    obtain ⟨⟩ := hcall
    -- the node that is kept is the first of those ahead, and does not satisfy the predicate
    have hbehind : (Pc.unlock (.removeIf p) a b).ahead s.list = b :: behind s.list b := by
      rw [Pc.ahead_eq rfl, behind_of_follower h.nodup hknows]
    refine ⟨rfl, fun x hx => Or.inl ?_, ?_, fun x hx hsat => ?_⟩
    · have hxb : x = b := by simpa [Pc.Touches, Pc.holds, Pc.owns, Pc.Waits] using hx
      exact Or.inl (by simp [Pc.holds, hxb])
    · rw [hbehind]
      exact List.subset_cons_self b _
    · rw [hbehind] at hx
      refine (List.mem_cons.mp hx).resolve_left ?_
      rintro rfl
      rw [hjudged a x rfl] at hsat
      cases hsat
  | unlink q a b old =>
    refine .stay hcall rfl fun x hx => Or.inl (Or.inl ?_)
    simpa [Pc.Touches, Pc.holds, Pc.owns, Pc.Waits, eq_comm] using hx
  | relink q a b old => exact .stay hcall rfl fun x hx => Or.inl hx
  | destroy q a old =>
    refine .stay (congrArg Call.removeIf hcall) rfl fun x hx => Or.inl (Or.inl ?_)
    simpa [Pc.Touches, Pc.holds, Pc.owns, Pc.Waits] using hx
  | unlockNext q a b old =>
    refine .stay hcall rfl fun x hx => Or.inl ?_
    simpa [Pc.Touches, Pc.holds, Pc.owns, Pc.Waits, hknows.2.1, eq_comm] using hx
  | release a =>
    refine .stay trivial rfl fun x hx => ?_
    rcases hx with hx | hx | hx <;> cases hx

/-- A call of the predicate. -/
theorem after_advances {C : Type} {p : C} {sat : Addr → Bool} {l : List Addr} {c : Call C}
    {a b : Addr} {r : Bool} (hcall : (Pc.callback c a b).InCall p) :
    (Pc.callback c a b).Advances p sat l (c.after a b (some r)) := by
  obtain rfl : c = .removeIf p := hcall
  cases r with
  | false | true =>
    refine .stay rfl rfl fun x hx => Or.inl (Or.inl ?_)
    simpa [Call.after, Pc.Touches, Pc.holds, Pc.owns, Pc.Waits] using hx

/-! ## What the others do to the nodes ahead -/

section Others
variable [DecidableEq Tid] [DecidableEq V] {s s' : State Tid V (V → Bool)} {t : Tid} {a : Addr}
  {p : V → Bool} {l : Label Tid V (V → Bool)}

/-- Nodes enter the list in front of `current` only; those ahead are there until they are
unlinked. -/
theorem mem_ahead_iff (h : Inv s) (hcall : (s'.pc t).InCall p)
    (hstep : (machine pureCallback).step s l = some s') :
    a ∈ (s'.pc t).ahead s'.list ↔ a ∈ (s'.pc t).ahead s.list ∧ a ∈ s'.nodes := by
  have h' := h.step hstep
  cases hcurrent : (s'.pc t).current with
  | none => simp [Pc.ahead, hcurrent]
  | some c =>
    obtain ⟨hheld, hmem⟩ := hcall.current (h'.knows t) hcurrent
    rw [Pc.ahead_eq hcurrent, Pc.ahead_eq hcurrent]
    rcases step_nodes h hstep with
      ⟨hnodes, -⟩ | ⟨n, hn, hpc, hnodes, -⟩ | ⟨q, x, b, -, howns, hnodes, -⟩
    · have hlist : s'.list = s.list := by rw [State.list, hnodes, State.list]
      rw [hlist, hnodes]
      exact (and_iff_left_of_imp mem_tail_of_behind).symm
    · -- the pusher holds the mutex of the head
      have hhead : head ∈ (s'.pc l.tid).holds := by
        rw [hpc]
        exact List.mem_cons_self
      have ht : t ≠ l.tid := by
        rintro rfl
        rw [hpc] at hcurrent
        cases hcurrent
      have hch : c ≠ head := fun he => ht (h'.held_unique hheld (he ▸ hhead))
      rw [step_pc_of_ne h hstep ht] at hcall hcurrent
      have hcn : c ≠ n := fun he => (h.owned l.tid n (by rw [hn]; rfl)).2.2
        (he ▸ (hcall.current (h.knows t) hcurrent).2)
      have hsame : behind s'.list c = behind s.list c := by
        rw [State.list, hnodes, behind_cons_of_ne hch, behind_cons_of_ne hcn, State.list,
          behind_cons_of_ne hch]
      rw [hsame, hnodes]
      refine (and_iff_left_of_imp fun ha => ?_).symm
      exact List.mem_cons_of_mem n (mem_tail_of_behind ha)
    · -- a node that leaves the list is not `current`
      have hb : b ∉ s'.list := (h'.owned l.tid b howns).2.2
      have hcb : c ≠ b := ne_of_mem_of_not_mem hmem hb
      have hhead : head ≠ b := ne_of_mem_of_not_mem List.mem_cons_self hb
      have hlist : s'.list = s.list.erase b := by
        rw [State.list, hnodes, State.list, List.erase_cons_tail (by simpa using hhead)]
      have hnodup : (behind s.list c).Nodup := h.nodup.sublist behind_suffix.sublist
      rw [hlist, behind_erase h.nodup hcb, hnodup.mem_erase_iff, hnodes,
        (List.nodup_cons.mp h.nodup).2.mem_erase_iff]
      constructor
      · rintro ⟨hab, ha⟩
        exact ⟨ha, hab, mem_tail_of_behind ha⟩
      · rintro ⟨ha, hab, -⟩
        exact ⟨hab, ha⟩

end Others

/-! ## The invariant of the call -/

/-- The new node of a `push_front` that has not linked it yet. -/
def Pc.brings {C : Type} : Pc C → Option Addr
  | .pushLock n | .pushNext n | .pushHead n => some n
  | _ => none

theorem Pc.owns_of_brings {C : Type} {pc : Pc C} {n : Addr} (h : pc.brings = some n) :
    pc.owns = some n := by
  cases pc with
  | pushLock m | pushNext m | pushHead m => exact h
  | _ => cases h

/-- A thread brings what it brought, or a node that it has just made. -/
theorem step_brings [DecidableEq Tid] [DecidableEq V] {s s' : State Tid V (V → Bool)}
    {l : Label Tid V (V → Bool)} {u : Tid} {n : Addr} (h : Inv s)
    (hstep : (machine pureCallback).step s l = some s') (hn : (s'.pc u).brings = some n) :
    (s.pc u).brings = some n ∨ n = s.allocated := by
  by_cases hu : u = l.tid
  · obtain ⟨pc', hpc, hsteps⟩ := step_steps h hstep
    rw [hu, hpc, Function.update_self] at hn
    rw [hu]
    generalize s.pc l.tid = pc at hsteps ⊢
    generalize s'.nodes = nodes' at hsteps
    generalize s'.allocated = allocated' at hsteps
    cases hsteps with
    | makes => exact Or.inr (Option.some.inj hn).symm
    | begins c => cases hn
    | moves hmoves =>
      cases hmoves with
      | pushLock m | pushNext m => exact Or.inl hn
      | _ => cases hn
    | @answers c a b old hold =>
      cases c with
      | forEach f => cases hn
      | findFirstIf q | removeIf q =>
        cases hq : q old <;> simp [Call.callback, Call.after, hq, Pc.brings] at hn
  · rw [step_pc_of_ne h hstep hu] at hn
    exact Or.inl hn

/-- How matters stand at `s`, when `t` has got `head.m` for `remove_if(p)` at `s₁` and `trace`
has happened to the list since. -/
structure Filtering [DecidableEq V] (t : Tid) (p : V → Bool) (s₁ : State Tid V (V → Bool))
    (trace : List (Event Tid V)) (s : State Tid V (V → Bool)) : Prop where
  inv : Inv s
  judged : ∀ u, (s.pc u).Judged s.Satisfies
  call : (s.pc t).InCall p
  data : ∀ a ∈ s₁.nodes, a ∈ s.nodes → dataAt s.heap a = dataAt s₁.heap a
  touches : ∀ a, (s.pc t).Touches a → a ∈ s₁.list
  ahead : ∀ a ∈ (s.pc t).ahead s.list, a ∈ s₁.nodes
  /-- None that satisfies the predicate is left behind. -/
  passed : ∀ a ∈ s₁.nodes, a ∈ s.nodes → s₁.Satisfies p a → a ∈ (s.pc t).ahead s.list
  missing : ∀ a ∈ s₁.nodes, a ∉ s.nodes → s₁.Satisfies p a = true ∨
    ∃ u q, u ≠ t ∧ .unlinked u q a ∈ trace ∧ s₁.Satisfies q a = true
  order : (s.nodes.filter (· ∈ s₁.nodes)).Sublist s₁.nodes
  newer : ∀ a ∈ s.nodes, a ∈ s₁.nodes ∨ ∃ u, u ≠ t ∧ .pushed u a ∈ trace
  newcomers : ∀ u n, (s.pc u).brings = some n → n ∉ s₁.list
  pushed : ∀ u n, .pushed u n ∈ trace → n ∉ s₁.list
  older : ∀ a ∈ s₁.list, a < s.allocated

namespace Filtering
variable [DecidableEq Tid] [DecidableEq V] {s₁ s s' : State Tid V (V → Bool)} {t : Tid}
  {p : V → Bool} {trace : List (Event Tid V)} {l : Label Tid V (V → Bool)} {a : Addr}

omit [DecidableEq Tid] in
/-- The call has got `head.m`. -/
theorem start (hinv : Inv s₁) (hjudged : ∀ u, (s₁.pc u).Judged s₁.Satisfies)
    (hpc : s₁.pc t = .scan (.removeIf p) head) : Filtering t p s₁ [] s₁ where
  inv := hinv
  judged := hjudged
  call := by rw [hpc]; rfl
  data _ _ _ := rfl
  touches a ha := by
    rw [hpc] at ha
    have hhead : a = head := by simpa [Pc.Touches, Pc.holds, Pc.owns, Pc.Waits] using ha
    exact hhead ▸ List.mem_cons_self
  ahead a ha := by
    rw [hpc, Pc.ahead_eq rfl] at ha
    exact mem_tail_of_behind ha
  passed a ha _ _ := by
    rw [hpc, Pc.ahead_eq rfl, State.list, behind_cons_self]
    exact ha
  missing a ha hnot := absurd ha hnot
  order := List.filter_sublist
  newer a ha := Or.inl ha
  newcomers u n hn := (hinv.owned u n (Pc.owns_of_brings hn)).2.2
  pushed u n hn := by cases hn
  older a ha := by
    by_contra hnot
    have hlive := hinv.live a ha
    rw [hinv.fresh a (Nat.le_of_not_lt hnot)] at hlive
    cases hlive

/-- Where the thread is after a step of its own or of another. -/
theorem advances (h : Filtering t p s₁ trace s) (hbegins : ¬ l.Begins t)
    (hstep : (machine pureCallback).step s l = some s') :
    (s.pc t).Advances p (s.Satisfies p) s.list (s'.pc t) := by
  by_cases ht : t = l.tid
  · cases l with
    | pushFront u v | call u c => exact absurd ht.symm hbegins
    | next u =>
      have ht : t = u := ht
      subst u
      refine next_advances h.inv h.call (fun a b hpc => ?_) hstep
      have hjudged := h.judged t
      rwa [hpc] at hjudged
    | callback u v b =>
      have ht : t = u := ht
      subst u
      obtain ⟨c, current, nx, old, hpc, -, rfl⟩ := callback_pure h.inv hstep
      have hcall := h.call
      rw [hpc] at hcall ⊢
      simp only [State.goto, Function.update_self]
      exact after_advances hcall
  · rw [step_pc_of_ne h.inv hstep ht]
    exact .refl h.call

/-- A node of the list of then that is in the list was so before. -/
theorem mem_of_step (h : Filtering t p s₁ trace s)
    (hstep : (machine pureCallback).step s l = some s') (ha : a ∈ s'.nodes) (h₁ : a ∈ s₁.nodes) :
    a ∈ s.nodes := by
  rcases step_nodes h.inv hstep with
    ⟨hnodes, -⟩ | ⟨n, hn, -, hnodes, -⟩ | ⟨q, x, b, -, -, hnodes, -⟩
  · rwa [hnodes] at ha
  · rw [hnodes] at ha
    have hnew : n ∉ s₁.list := h.newcomers l.tid n (by rw [hn]; rfl)
    exact (List.mem_cons.mp ha).resolve_left
      fun he => hnew (he ▸ List.mem_cons_of_mem head h₁)
  · rw [hnodes] at ha
    exact List.mem_of_mem_erase ha

/-- A node that was in the list is gone: the step has unlinked it, and it satisfies the
predicate. -/
theorem unlinked_of_step (h : Filtering t p s₁ trace s)
    (hstep : (machine pureCallback).step s l = some s') (ha : a ∈ s.nodes) (hgone : a ∉ s'.nodes) :
    ∃ q x, s.pc l.tid = .unlink q x a ∧ .unlinked l.tid q a ∈ events s l := by
  rcases step_nodes h.inv hstep with
    ⟨hnodes, -⟩ | ⟨n, -, -, hnodes, -⟩ | ⟨q, x, b, hpc, -, hnodes, hevents⟩
  · exact absurd (hnodes ▸ ha) hgone
  · exact absurd (hnodes ▸ List.mem_cons_of_mem n ha) hgone
  · have hab : a = b := by
      by_contra hne
      exact hgone (hnodes ▸ (List.mem_erase_of_ne hne).mpr ha)
    subst b
    exact ⟨q, x, hpc, by rw [hevents]; exact List.mem_singleton_self _⟩

/-- One step. -/
theorem step (h : Filtering t p s₁ trace s) (hbegins : ¬ l.Begins t)
    (hstep : (machine pureCallback).step s l = some s') :
    Filtering t p s₁ (trace ++ events s l) s' := by
  have hadvances := h.advances hbegins hstep
  have hahead : ∀ a, a ∈ (s'.pc t).ahead s'.list ↔ a ∈ (s'.pc t).ahead s.list ∧ a ∈ s'.nodes :=
    fun a => mem_ahead_iff h.inv hadvances.call hstep
  have hsat : ∀ q, ∀ a ∈ s₁.nodes, a ∈ s.nodes → s.Satisfies q a = s₁.Satisfies q a :=
    fun q a h₁ ha => by rw [State.Satisfies, h.data a h₁ ha, State.Satisfies]
  refine ⟨h.inv.step hstep, judged_step h.inv h.judged hstep, hadvances.call, fun a h₁ ha => ?_,
    fun a ha => ?_, fun a ha => ?_, fun a h₁ ha hp => ?_, fun a h₁ ha => ?_, ?_, fun a ha => ?_,
    fun u n hn => ?_, fun u n hn => ?_,
    fun a ha => Nat.lt_of_lt_of_le (h.older a ha) (step_allocated h.inv hstep)⟩
  · have hbefore := h.mem_of_step hstep ha h₁
    rw [step_data h.inv hstep hbefore ha, h.data a h₁ hbefore]
  · rcases hadvances.touches a ha with hold | hnext
    · exact h.touches a hold
    · exact List.mem_cons_of_mem head (h.ahead a hnext)
  · exact h.ahead a (hadvances.ahead ((hahead a).mp ha).1)
  · have hbefore := h.mem_of_step hstep ha h₁
    refine (hahead a).mpr ⟨hadvances.keeps a (h.passed a h₁ hbefore hp) ?_, ha⟩
    rw [hsat p a h₁ hbefore, hp]
  · -- gone now, by this call or by another thread, or gone before
    by_cases hbefore : a ∈ s.nodes
    · obtain ⟨q, x, hpc, hevent⟩ := h.unlinked_of_step hstep hbefore ha
      have hjudged := h.judged l.tid
      rw [hpc] at hjudged
      have hq : s₁.Satisfies q a = true := (hsat q a h₁ hbefore).symm.trans hjudged
      by_cases ht : l.tid = t
      · have hcall := h.call
        rw [← ht, hpc] at hcall
        obtain rfl : q = p := hcall
        exact Or.inl hq
      · exact Or.inr ⟨l.tid, q, ht, List.mem_append_right _ hevent, hq⟩
    · rcases h.missing a h₁ hbefore with hp | ⟨u, q, hu, hevent, hq⟩
      · exact Or.inl hp
      · exact Or.inr ⟨u, q, hu, List.mem_append_left _ hevent, hq⟩
  · rcases step_nodes h.inv hstep with
      ⟨hnodes, -⟩ | ⟨n, hn, -, hnodes, -⟩ | ⟨q, x, b, -, -, hnodes, -⟩
    · rw [hnodes]
      exact h.order
    · have hnew : n ∉ s₁.list := h.newcomers l.tid n (by rw [hn]; rfl)
      have hnot : n ∉ s₁.nodes := fun hin => hnew (List.mem_cons_of_mem head hin)
      rw [hnodes, List.filter_cons_of_neg (by simpa using hnot)]
      exact h.order
    · rw [hnodes]
      exact (List.erase_sublist.filter _).trans h.order
  · have hold : a ∈ s.nodes →
        a ∈ s₁.nodes ∨ ∃ u, u ≠ t ∧ Event.pushed u a ∈ trace ++ events s l := fun ha =>
      (h.newer a ha).imp_right fun ⟨u, hu, hevent⟩ => ⟨u, hu, List.mem_append_left _ hevent⟩
    rcases step_nodes h.inv hstep with
      ⟨hnodes, -⟩ | ⟨n, hn, -, hnodes, hevents⟩ | ⟨q, x, b, -, -, hnodes, -⟩
    · exact hold (hnodes ▸ ha)
    · rw [hnodes] at ha
      rcases List.mem_cons.mp ha with rfl | ha
      · -- a thread in `remove_if` does not push
        have ht : l.tid ≠ t := by
          intro ht
          have hcall := h.call
          rw [← ht, hn] at hcall
          exact hcall
        refine Or.inr ⟨l.tid, ht, List.mem_append_right _ ?_⟩
        rw [hevents]
        exact List.mem_singleton_self _
      · exact hold ha
    · exact hold (List.mem_of_mem_erase (hnodes ▸ ha))
  · rcases step_brings h.inv hstep hn with hold | rfl
    · exact h.newcomers u n hold
    · exact fun hmem => Nat.lt_irrefl _ (h.older _ hmem)
  · rcases List.mem_append.mp hn with hold | hnow
    · exact h.pushed u n hold
    · rcases step_nodes h.inv hstep with
        ⟨-, hevents⟩ | ⟨m, hm, -, -, hevents⟩ | ⟨q, x, b, -, -, -, hevents⟩
      · rw [hevents] at hnow
        cases hnow
      · rw [hevents] at hnow
        cases List.mem_singleton.mp hnow
        exact h.newcomers l.tid n (by rw [hm]; rfl)
      · rw [hevents] at hnow
        cases List.mem_singleton.mp hnow

/-- **A run without another call of the thread.** -/
theorem run {ls : List (Label Tid V (V → Bool))} (h : Filtering t p s₁ [] s₁)
    (hbegins : ∀ l ∈ ls, ¬ l.Begins t) (hrun : (machine pureCallback).run s₁ ls = some s) :
    Filtering t p s₁ ((machine pureCallback).trace events s₁ ls) s := by
  refine (machine pureCallback).run_induction_from
    (P := fun ls s => (∀ l ∈ ls, ¬ l.Begins t) →
      Filtering t p s₁ ((machine pureCallback).trace events s₁ ls) s)
    (fun _ => h) (fun ls s l s' hs ih hstep hbegins => ?_) hrun hbegins
  rw [Machine.trace_concat hs hstep]
  refine (ih fun l hl => hbegins l (List.mem_append_left _ hl)).step ?_ hstep
  exact hbegins l (List.mem_append_right _ (List.mem_singleton_self l))

end Filtering

/-! ## The call alone -/

section Alone

/-- A sublist without repetitions is told by its elements. -/
theorem eq_filter_of_sublist {l l' : List Addr} {q : Addr → Bool} (h : l.Sublist l')
    (hnodup : l'.Nodup) (hmem : ∀ a ∈ l', a ∈ l ↔ q a = true) : l = l'.filter q := by
  have hself : l.filter q = l := List.filter_eq_self.mpr fun a ha => (hmem a (h.subset ha)).mp ha
  have hsub : l.Sublist (l'.filter q) := hself ▸ h.filter q
  have hperm : l.Perm (l'.filter q) := by
    refine (List.perm_ext_iff_of_nodup (hnodup.sublist h) (hnodup.filter q)).mpr fun a => ?_
    rw [List.mem_filter]
    constructor
    · intro ha
      exact ⟨h.subset ha, (hmem a (h.subset ha)).mp ha⟩
    · rintro ⟨ha, hq⟩
      exact (hmem a ha).mpr hq
  exact hsub.eq_of_length hperm.length_eq

/-- Where no link is being set, the links lead through the list to null. -/
theorem Inv.chain {C : Type} {s : State Tid V C} (h : Inv s)
    (hset : ∀ u a, ¬ (s.pc u).Detaches a) :
    Segment (nextAt s.heap) (nextAt s.heap head) s.nodes none := by
  have hseg : Segment (nextAt s.heap) (some head) s.list none :=
    segment_of_follower h.nodup fun a ha =>
      (h.links a ha).resolve_right fun ⟨u, hu⟩ => hset u a hu
  exact hseg.2

/-- The nodes of the list have values. -/
theorem Inv.exists_holds {C : Type} {s : State Tid V C} (h : Inv s)
    (hset : ∀ u a, ¬ (s.pc u).Detaches a) : ∃ q, s.Holds q := by
  have hvalues : ∀ l : List Addr, (∀ a ∈ l, (dataAt s.heap a).isSome) →
      ∃ q : List V, l.map (dataAt s.heap) = q.map some := by
    intro l hl
    induction l with
    | nil => exact ⟨[], rfl⟩
    | cons a l ih =>
      obtain ⟨v, hv⟩ := Option.isSome_iff_exists.mp (hl a List.mem_cons_self)
      obtain ⟨q, hq⟩ := ih fun b hb => hl b (List.mem_cons_of_mem a hb)
      exact ⟨v :: q, by simp [hv, hq]⟩
  obtain ⟨q, hq⟩ := hvalues s.nodes h.data
  exact ⟨q, h.chain hset, hq⟩

variable [DecidableEq Tid] [DecidableEq V] {s₁ s s' : State Tid V (V → Bool)} {t : Tid}
  {p : V → Bool} {ls : List (Label Tid V (V → Bool))} {l : Label Tid V (V → Bool)}

omit [DecidableEq Tid] [DecidableEq V] in
theorem events_tid {e : Event Tid V} (h : e ∈ events s l) : e.tid = l.tid := by
  cases l with
  | next u =>
    simp only [events] at h
    split at h
    · rw [List.mem_singleton.mp h]
      rfl
    · rw [List.mem_singleton.mp h]
      rfl
    · cases h
  | pushFront u v | call u c | callback u v b => cases h

theorem trace_tid {e : Event Tid V} (h : e ∈ (machine pureCallback).trace events s ls)
    (hls : ∀ l ∈ ls, l.tid = t) : e.tid = t := by
  obtain ⟨r, l, hl, hmem⟩ := Machine.exists_of_mem_trace h
  rw [events_tid hmem, hls l hl]

/-- When only this thread has moved, what is left are the nodes that do not satisfy the
predicate. -/
theorem Filtering.nodes_eq (h : Filtering t p s₁ ((machine pureCallback).trace events s₁ ls) s)
    (h₁ : Inv s₁) (halone : ∀ l ∈ ls, l.tid = t) (hidle : s.pc t = .idle) :
    s.nodes = s₁.nodes.filter fun a => !s₁.Satisfies p a := by
  have hold : ∀ a ∈ s.nodes, a ∈ s₁.nodes := by
    intro a ha
    refine (h.newer a ha).resolve_right ?_
    rintro ⟨u, hu, hevent⟩
    exact hu (trace_tid hevent halone)
  have hsub : s.nodes.Sublist s₁.nodes := by
    have horder := h.order
    rwa [List.filter_eq_self.mpr fun a ha => by simpa using hold a ha] at horder
  refine eq_filter_of_sublist hsub (List.nodup_cons.mp h₁.nodup).2 fun a ha => ?_
  rw [Bool.not_eq_true']
  constructor
  · intro hmem
    cases hp : s₁.Satisfies p a with
    | false => rfl
    | true =>
      have hahead := h.passed a ha hmem hp
      rw [hidle] at hahead
      cases hahead
  · intro hp
    by_contra hgone
    rcases h.missing a ha hgone with hsat | ⟨u, q, hu, hevent, -⟩
    · rw [hp] at hsat
      cases hsat
    · exact hu (trace_tid hevent halone)

/-- The values that are left are those that do not satisfy the predicate. -/
theorem Filtering.holds (h : Filtering t p s₁ ((machine pureCallback).trace events s₁ ls) s)
    (h₁ : Inv s₁) (halone : ∀ l ∈ ls, l.tid = t) (hidle : ∀ u, s.pc u = .idle) {q : List V}
    (hq : s₁.Holds q) : s.Holds (q.filter fun v => !p v) := by
  have hnodes := h.nodes_eq h₁ halone (hidle t)
  refine ⟨h.inv.chain fun u a => by rw [hidle u]; exact id, ?_⟩
  have hdata : s.nodes.map (dataAt s.heap) = s.nodes.map (dataAt s₁.heap) := by
    refine List.map_congr_left fun a ha => h.data a ?_ ha
    rw [hnodes] at ha
    exact (List.mem_filter.mp ha).1
  have hvalues : (s₁.nodes.map (dataAt s₁.heap)).filter (fun o => !o.any p) =
      (q.map some).filter fun o => !o.any p := by rw [hq.data_eq]
  rw [List.filter_map, List.filter_map] at hvalues
  rw [hdata, hnodes]
  exact hvalues

/-- How far the thread is in an iteration of the loop: the steps it has yet to take there. -/
def Pc.stage {C : Type} : Pc C → ℕ
  | .relink .. => 9
  | .unlockNext .. => 8
  | .destroy .. => 7
  | .scan .. => 5
  | .lockNext .. => 4
  | .callback .. => 3
  | .unlock .. | .unlink .. => 2
  | .release _ => 1
  | _ => 0

/-- A bound on the steps the call has yet to take. -/
def Pc.rank {C : Type} (l : List Addr) (pc : Pc C) : ℕ := 10 * (pc.ahead l).length + pc.stage

theorem Pc.rank_lt_of_stage {C : Type} {l : List Addr} {pc pc' : Pc C}
    (hcurrent : pc'.current = pc.current) (hstage : pc'.stage < pc.stage) :
    pc'.rank l < pc.rank l := by
  rw [rank, rank, ahead, hcurrent, ahead]
  exact Nat.add_lt_add_left hstage _

/-- The thread is in its call, or has returned, and no other is in one. -/
structure Alone (t : Tid) (p : V → Bool) (s : State Tid V (V → Bool)) : Prop where
  inv : Inv s
  call : (s.pc t).InCall p
  others : ∀ u, u ≠ t → s.pc u = .idle

namespace Alone

theorem step (h : Alone t p s) (hadvances : (s'.pc t).InCall p) (hl : l.tid = t)
    (hstep : (machine pureCallback).step s l = some s') : Alone t p s' := by
  refine ⟨h.inv.step hstep, hadvances, fun u hu => ?_⟩
  rw [step_pc_of_ne h.inv hstep (hl ▸ hu)]
  exact h.others u hu

omit [DecidableEq V] in
/-- The next step of the thread makes the bound smaller. -/
theorem next_rank_lt (h : Alone t p s) (hstep : s.next t = some s') :
    (s'.pc t).rank s'.list < (s.pc t).rank s.list := by
  obtain ⟨pc', hpc, hmoves, -⟩ := next_moves h.inv hstep
  have hcall := h.call
  have hknows := h.inv.knows t
  have hnodup := h.inv.nodup
  rw [hpc, Function.update_self, State.list, State.list]
  rw [State.list] at hknows hnodup
  generalize s'.nodes = nodes' at hmoves ⊢
  generalize s.pc t = pc at hcall hmoves hknows ⊢
  cases hmoves with
  | pushLock n | pushNext n | pushHead n | lockHead c | unwind a b => cases hcall
  | @lockNextOther c a b hc | @unlockOther c a b hc => exact absurd hcall (hc p)
  | scan c hf => exact Pc.rank_lt_of_stage rfl (by simp [Pc.stage])
  | last c hf =>
    simp only [Pc.rank, Pc.ahead, Pc.current, Pc.stage, List.length_nil]
    omega
  | lockNext q a b | relink q a b old | unlockNext q a b old | destroy q a old | release a =>
    exact Pc.rank_lt_of_stage rfl (by simp [Pc.stage])
  | unlock q a b =>
    have hbehind : behind (head :: s.nodes) a = b :: behind (head :: s.nodes) b :=
      behind_of_follower hnodup hknows
    simp only [Pc.rank, Pc.ahead, Pc.current, Pc.stage, hbehind, List.length_cons]
    omega
  | unlink q a b old =>
    have hbehind : behind (head :: s.nodes) a = b :: behind (head :: s.nodes) b :=
      behind_of_follower hnodup hknows
    obtain ⟨hb, hab⟩ := h.inv.mem_nodes_of_follower hknows
    have hhead : head ≠ b := fun he => h.inv.head_not_mem (he ▸ hb)
    -- one node less is ahead
    have herase : behind (head :: s.nodes.erase b) a = behind (head :: s.nodes) b := by
      have hlist : (head :: s.nodes).erase b = head :: s.nodes.erase b :=
        List.erase_cons_tail (by simpa using hhead)
      rw [← hlist, behind_erase hnodup hab, hbehind, List.erase_cons_head]
    simp only [Pc.rank, Pc.ahead, Pc.current, Pc.stage, hbehind, herase, List.length_cons]
    omega

omit [DecidableEq V] in
/-- What the thread waits for is free. -/
theorem exists_next (h : Alone t p s) (hidle : s.pc t ≠ .idle)
    (hcallback : ∀ c a b, s.pc t ≠ .callback c a b) : ∃ s', s.next t = some s' := by
  have hcall := h.call
  have hknows := h.inv.knows t
  unfold State.next
  cases hpc : s.pc t with
  | idle => exact absurd hpc hidle
  | callback c a b => exact absurd hpc (hcallback c a b)
  | pushLock n | pushNext n | pushHead n | lockHead c | unwind a b | fault =>
    rw [hpc] at hcall
    cases hcall
  | scan c a =>
    dsimp only
    split
    · split <;> exact ⟨_, rfl⟩
    · exact ⟨_, rfl⟩
  | lockNext c a b =>
    rw [hpc] at hcall hknows
    obtain rfl : c = .removeIf p := hcall
    obtain ⟨-, hab⟩ := h.inv.mem_nodes_of_follower hknows
    -- the others hold nothing, and the thread itself holds `current` only
    have hfree : s.mutex b = none := by
      cases hb : s.mutex b with
      | none => rfl
      | some u =>
        have hheld := (h.inv.mutex b u).mp hb
        by_cases hu : u = t
        · rw [hu, hpc] at hheld
          exact absurd (List.mem_singleton.mp hheld).symm hab
        · rw [h.others u hu] at hheld
          cases hheld
    simp only [State.lock, hfree]
    split <;> exact ⟨_, rfl⟩
  | unlock c a b => cases c <;> exact ⟨_, rfl⟩
  | unlink q a b | relink q a b old =>
    dsimp only
    split <;> exact ⟨_, rfl⟩
  | destroy q a old =>
    dsimp only
    split
    · exact ⟨_, rfl⟩
    · split
      · split <;> exact ⟨_, rfl⟩
      · exact ⟨_, rfl⟩
  | unlockNext q a b old | release a => exact ⟨_, rfl⟩

/-- As long as the call lasts, the thread can go on. -/
theorem exists_step (h : Alone t p s) (hidle : s.pc t ≠ .idle) :
    ∃ l s', (l.tid = t ∧ ¬ l.Begins t) ∧ (machine pureCallback).step s l = some s' ∧
      Alone t p s' ∧ (s'.pc t).rank s'.list < (s.pc t).rank s.list := by
  by_cases hcallback : ∃ c a b, s.pc t = .callback c a b
  · obtain ⟨c, a, b, hpc⟩ := hcallback
    have hcall := h.call
    have hknows := h.inv.knows t
    rw [hpc] at hcall hknows
    obtain rfl : c = .removeIf p := hcall
    have hb := (h.inv.mem_nodes_of_follower hknows).1
    obtain ⟨old, hold⟩ := Option.isSome_iff_exists.mp (h.inv.data b hb)
    have hstep : (machine pureCallback).step s (.callback t old (some (p old))) =
        some (s.goto t ((Call.removeIf p).after a b (some (p old)))) := callback_old hpc hold
    have hself : ∀ pc', (s.goto t pc').pc t = pc' := fun pc' => Function.update_self ..
    refine ⟨_, _, ⟨rfl, id⟩, hstep, h.step ?_ rfl hstep, ?_⟩
    · rw [hself]
      cases p old <;> rfl
    · rw [hself, hpc]
      cases p old <;> exact Pc.rank_lt_of_stage rfl (by simp [Call.after, Pc.stage])
  · have hnot : ∀ c a b, s.pc t ≠ .callback c a b :=
      fun c a b hpc => hcallback ⟨c, a, b, hpc⟩
    obtain ⟨s', hstep⟩ := h.exists_next hidle hnot
    have hmachine : (machine pureCallback).step s (.next t) = some s' := hstep
    have hadvances : (s.pc t).Advances p (fun _ => false) s.list (s'.pc t) :=
      next_advances h.inv h.call (fun _ _ _ => rfl) hstep
    exact ⟨_, s', ⟨rfl, id⟩, hmachine, h.step hadvances.call rfl hmachine, h.next_rank_lt hstep⟩

/-- **Alone, the call returns.** -/
theorem exists_return (h : Alone t p s) :
    ∃ ls r, (∀ l ∈ ls, l.tid = t ∧ ¬ l.Begins t) ∧
      (machine pureCallback).run s ls = some r ∧ Alone t p r ∧ r.pc t = .idle :=
  Machine.exists_run_of_decreasing (fun s => (s.pc t).rank s.list)
    (fun _ hs hgo => hs.exists_step hgo) h

end Alone

theorem run_alone (h : Inv s₁) (hls : ∀ l ∈ ls, l.tid = t)
    (hrun : (machine pureCallback).run s₁ ls = some s) (u : Tid) (hu : u ≠ t) :
    s.pc u = s₁.pc u := by
  have hboth := (machine pureCallback).run_induction_from
    (P := fun ls s => (∀ l ∈ ls, l.tid = t) → Inv s ∧ s.pc u = s₁.pc u) (fun _ => ⟨h, rfl⟩)
    (fun ls s l s' _ ih hstep hls => by
      obtain ⟨hinv, hpc⟩ := ih fun l hl => hls l (List.mem_append_left _ hl)
      have hl : l.tid = t := hls l (List.mem_append_right _ (List.mem_singleton_self l))
      exact ⟨hinv.step hstep, (step_pc_of_ne hinv hstep (hl ▸ hu)).trans hpc⟩) hrun hls
  exact hboth.2

end Alone

/-- **`remove_if` is a filter, also under concurrency.**  From the state in which the call of
`t` has got `head.m`, and until `t` begins another call: when the call has returned, no node of
then that satisfies the predicate is in the list; a node of then that does not satisfy it is
missing only if another thread has unlinked it, with a predicate that it satisfies; nodes that
are pushed are never touched by `t`; and the nodes of then that are left are in the old order.
With no other thread the call returns, and leaves the values that do not satisfy the
predicate. -/
theorem removeIf_filters [DecidableEq Tid] [DecidableEq V] {s₀ s₁ : State Tid V (V → Bool)}
    {t : Tid} {p : V → Bool} (h : (machine pureCallback).Reachable s₀)
    (hcall : s₀.pc t = .lockHead (.removeIf p))
    (hlock : (machine pureCallback).step s₀ (.next t) = some s₁) :
    (∀ ls s, (machine pureCallback).run s₁ ls = some s → (∀ l ∈ ls, ¬ l.Begins t) →
      (s.pc t = .idle → ∀ a ∈ s₁.nodes, s₁.Satisfies p a = true → a ∉ s.nodes ∧ ¬ s.Met a) ∧
      (∀ a ∈ s₁.nodes, a ∉ s.nodes → s₁.Satisfies p a = false → ∃ u q, u ≠ t ∧
        .unlinked u q a ∈ (machine pureCallback).trace events s₁ ls ∧
          s₁.Satisfies q a = true) ∧
      (∀ u n, .pushed u n ∈ (machine pureCallback).trace events s₁ ls →
        n ∉ s₁.nodes ∧ ∀ before r, before <+: ls →
          (machine pureCallback).run s₁ before = some r → ¬ (r.pc t).Touches n ∧
            ∀ r', r.next t = some r' → r'.heap n = r.heap n ∧ r'.mutex n = r.mutex n) ∧
      (s.nodes.filter (· ∈ s₁.nodes)).Sublist s₁.nodes) ∧
    ((∀ u, u ≠ t → s₁.pc u = .idle) → ∃ q, s₁.Holds q ∧
      (∀ ls s, (machine pureCallback).run s₁ ls = some s →
        (∀ l ∈ ls, l.tid = t ∧ ¬ l.Begins t) → s.pc t = .idle →
          s.Holds (q.filter fun v => !p v)) ∧
      ∃ ls s, (machine pureCallback).run s₁ ls = some s ∧
        (∀ l ∈ ls, l.tid = t ∧ ¬ l.Begins t) ∧ s.pc t = .idle) := by
  have hinv := (reachable_inv h).step hlock
  have hpc : s₁.pc t = .scan (.removeIf p) head := by
    obtain ⟨pc', hpc, hmoves, -⟩ := next_moves (reachable_inv h) hlock
    rw [hpc, Function.update_self]
    rw [hcall] at hmoves
    generalize s₁.nodes = nodes' at hmoves
    cases hmoves
    rfl
  have hstart : Filtering t p s₁ [] s₁ := .start hinv (reachable_judged (h.step hlock)) hpc
  refine ⟨fun ls s hrun hbegins => ?_, fun hothers => ?_⟩
  · have hnow := hstart.run hbegins hrun
    refine ⟨fun hidle a ha hp => ?_, fun a ha hgone hp => ?_, fun u n hpushed => ?_, hnow.order⟩
    · have hout : a ∉ s.nodes := fun hin => by
        have hahead := hnow.passed a ha hin hp
        rw [hidle] at hahead
        cases hahead
      refine ⟨hout, fun hmet => ?_⟩
      rcases List.mem_cons.mp (hnow.inv.mem_of_met hmet) with rfl | hin
      · exact hinv.head_not_mem ha
      · exact hout hin
    · refine (hnow.missing a ha hgone).resolve_left fun hsat => ?_
      rw [hp] at hsat
      cases hsat
    · have hnew := hnow.pushed u n hpushed
      refine ⟨fun hin => hnew (List.mem_cons_of_mem head hin), fun before r hpre hr => ?_⟩
      have hthen := hstart.run (fun l hl => hbegins l (hpre.subset hl)) hr
      have huntouched : ¬ (r.pc t).Touches n := fun htouch => hnew (hthen.touches n htouch)
      exact ⟨huntouched, fun r' hstep => next_frame hthen.inv hstep huntouched⟩
  · have hset : ∀ u a, ¬ (s₁.pc u).Detaches a := by
      intro u a
      by_cases hu : u = t
      · rw [hu, hpc]
        exact id
      · rw [hothers u hu]
        exact id
    obtain ⟨q, hq⟩ := hinv.exists_holds hset
    have halone : Alone t p s₁ := ⟨hinv, by rw [hpc]; rfl, hothers⟩
    refine ⟨q, hq, fun ls s hrun hls hidle => ?_, ?_⟩
    · have hnow := hstart.run (fun l hl => (hls l hl).2) hrun
      refine hnow.holds hinv (fun l hl => (hls l hl).1) (fun u => ?_) hq
      by_cases hu : u = t
      · rw [hu, hidle]
      · rw [run_alone hinv (fun l hl => (hls l hl).1) hrun u hu, hothers u hu]
    · obtain ⟨ls, s, hls, hrun, -, hidle⟩ := halone.exists_return
      exact ⟨ls, s, hrun, hls, hidle⟩

/-- The odd values are removed from a list of two, to which a third node is pushed meanwhile. -/
theorem oddValues_filter :
    ∃ s₀ s₁ s : State ℕ ℕ (ℕ → Bool), (machine pureCallback).Reachable s₀ ∧
      (machine pureCallback).step s₀ (.next 1) = some s₁ ∧ s₁.nodes = [2, 1] ∧
      (∃ ls, (machine pureCallback).run s₁ ls = some s) ∧ s.nodes = [3, 2] ∧ ¬ s.Met 1 := by
  let odd : ℕ → Bool := fun v => v % 2 == 1
  let push : ℕ → List (Label ℕ ℕ (ℕ → Bool)) := fun v =>
    [.pushFront 0 v, .next 0, .next 0, .next 0, .next 0]
  let ls : List (Label ℕ ℕ (ℕ → Bool)) :=
    [.next 1, .next 1, .callback 1 4 (some false), .next 1] ++ push 9 ++
      [.next 1, .next 1, .callback 1 7 (some true), .next 1, .next 1, .next 1, .next 1, .next 1,
        .next 1]
  have hrun : ∃ s₀ s₁ s : State ℕ ℕ (ℕ → Bool),
      (machine pureCallback).run (machine pureCallback).init
        (push 7 ++ push 4 ++ [.call 1 (.removeIf odd)]) = some s₀ ∧
      s₀.pc 1 = .lockHead (.removeIf odd) ∧
      (machine pureCallback).step s₀ (.next 1) = some s₁ ∧ s₁.nodes = [2, 1] ∧
      s₁.Satisfies odd 1 = true ∧ (machine pureCallback).run s₁ ls = some s ∧ s.pc 1 = .idle ∧
      s.nodes = [3, 2] :=
    ⟨_, _, _, rfl, rfl, rfl, rfl, rfl, rfl, rfl, rfl⟩
  obtain ⟨s₀, s₁, s, hs₀, hcall, hlock, hnodes₁, hodd, hls, hidle, hnodes⟩ := hrun
  have hreach := Machine.reachable_of_run _ hs₀
  have hbegins : ∀ l ∈ ls, ¬ l.Begins 1 := by simp [ls, push, Label.Begins]
  have hout := ((removeIf_filters hreach hcall hlock).1 ls s hls hbegins).1 hidle 1
    (by simp [hnodes₁]) hodd
  exact ⟨s₀, s₁, s, hreach, hlock, hnodes₁, ⟨ls, hls⟩, hnodes, hout.2⟩

end Sundries.ThreadsafeList
