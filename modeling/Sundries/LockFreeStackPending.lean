import Sundries.LockFreeStackHistory

/-!
# The unlinked nodes of `lock_free_stack`

A node that a pop has unlinked from `_head` is held by that pop, is in the chain
from `_to_be_deleted`, is in the private chain that a thread has taken from
there, or has been deleted.  It is in one of these places only (`IsAt`), in
every reachable state, although its `next` is used for the stack first and for
the chains then.  That nothing is lost is read off the history (`Recorded`),
that no two chains share a node off the nodes in the threads' hands (`Owns`).

The chains are null-terminated, so the loops that walk them come to an end: a
private chain is changed by its own thread only.
-/
namespace Sundries.LockFreeStack

variable {Tid α : Type}

/-! ## Private chains -/

/-- From `first` the links lead through the nodes `g`, the last one being `last`,
whose own link is being rewritten. -/
def ChainTo (next : Addr → Option Addr) (first last : Option Addr) (g : List Addr) : Prop :=
  ∃ g' b, last = some b ∧ b ∉ g' ∧ g = g' ++ [b] ∧ Segment next first g' (some b)

/-- The nodes of the thread's chain `nodes_to_delete`. -/
def Private (next : Addr → Option Addr) : Pc α → List Addr → Prop
  | .decrement _ nodes, g => Segment next nodes g none
  | .deleteRead _ n, g => Segment next (some n) g none
  | .deleteNode _ n p, g => ∃ g', g = n :: g' ∧ Segment next p g' none
  | .walk _ nodes _, g => Segment next (some nodes) g none
  | .pendLoad _ .deleteOld first last, g | .pendSetNext _ .deleteOld first last _, g
  | .pendReadNext _ .deleteOld first last, g | .pendCas _ .deleteOld first last _, g =>
    ChainTo next first last g
  | _, g => g = []

theorem ChainTo.unique {next : Addr → Option Addr} {first last : Option Addr} {g g' : List Addr}
    (h : ChainTo next first last g) (h' : ChainTo next first last g') : g = g' := by
  obtain ⟨l, b, rfl, hb, rfl, hseg⟩ := h
  obtain ⟨l', b', hlast, hb', rfl, hseg'⟩ := h'
  cases hlast
  rw [hseg.unique_until hseg' hb hb']

/-- A thread has one private chain at most. -/
theorem Private.unique {next : Addr → Option Addr} {pc : Pc α} {g g' : List Addr}
    (h : Private next pc g) (h' : Private next pc g') : g = g' := by
  cases pc with
  | decrement f nodes => exact Segment.unique h h'
  | deleteRead f n => exact Segment.unique h h'
  | deleteNode f n p =>
    obtain ⟨l, rfl, hseg⟩ := h
    obtain ⟨l', rfl, hseg'⟩ := h'
    rw [hseg.unique hseg']
  | walk f nodes last => exact Segment.unique h h'
  | pendLoad f k first last | pendSetNext f k first last _ | pendReadNext f k first last
  | pendCas f k first last _ =>
    cases k with
    | leave => exact Eq.trans h (Eq.symm h')
    | deleteOld => exact ChainTo.unique h h'
  | _ => exact Eq.trans h (Eq.symm h')

/-- A chain that `chain_pending_nodes(old_head, old_head)` is called with is that
node; the others are private chains. -/
theorem Chain.split {next : Addr → Option Addr} {f : Frame α} {k : After} {first last : Option Addr}
    {g : List Addr} (h : Chain next k first last g) (hnodup : (k.keeps f ++ g).Nodup)
    (hold : k = .leave → first = f.oldHead ∧ last = f.oldHead) :
    ∃ g', (k = .leave ∧ g' = [] ∨ k = .deleteOld ∧ ChainTo next first last g') ∧
      k.keeps f ++ g = f.oldHead.toList ++ g' := by
  have hlast : ∀ g' b, g = g' ++ [b] → b ∉ g' := by
    rintro g' b rfl hmem
    have hchain := (List.nodup_append.mp hnodup).2.1
    exact (List.nodup_append.mp hchain).2.2 b hmem b List.mem_cons_self rfl
  cases k with
  | leave =>
    obtain ⟨hfirst, hend⟩ := hold rfl
    refine ⟨[], Or.inl ⟨rfl, rfl⟩, ?_⟩
    rcases h with ⟨-, hnull, -, rfl⟩ | ⟨g', b, hb, rfl, hseg⟩
    · rw [← hfirst, hnull]
      rfl
    · -- from the node itself, no other node comes before it
      have hold : f.oldHead = some b := hend.symm.trans hb
      rw [hfirst, hold] at hseg
      have hnil : g' = [] :=
        hseg.unique_until (Segment.nil_iff.mpr rfl) (hlast g' b rfl) List.not_mem_nil
      simp [hnil, hold, After.keeps]
  | deleteOld =>
    rcases h with ⟨hk, -⟩ | ⟨g', b, hb, rfl, hseg⟩
    · cases hk
    · exact ⟨g' ++ [b], Or.inr ⟨rfl, g', b, hb, hlast g' b rfl, rfl, hseg⟩, rfl⟩

/-- What a thread has in hand is the node it has unlinked and its private chain. -/
theorem Owns.split {next : Addr → Option Addr} {pc : Pc α} {lt : List Addr} (h : Owns next pc lt)
    (hnodup : lt.Nodup) (hold : pc.ChainsOld) :
    ∃ g, Private next pc g ∧ lt = pc.oldHead.toList ++ g := by
  cases pc with
  | popSwap old => exact ⟨[], rfl, h⟩
  | testCount f | exchange f | deleteOld f =>
    have hlt : lt = f.oldHead.toList := h
    exact ⟨[], rfl, by rw [hlt, List.append_nil]; rfl⟩
  | decrement f nodes => exact h
  | deleteRead f n => exact h
  | deleteNode f n p =>
    obtain ⟨g, hseg, rfl⟩ := h
    exact ⟨n :: g, ⟨g, rfl, hseg⟩, rfl⟩
  | walk f nodes last =>
    obtain ⟨g, g', hseg, hseg', rfl⟩ := h
    exact ⟨g ++ g', hseg.append hseg', rfl⟩
  | pendLoad f k first last | pendSetNext f k first last q | pendReadNext f k first last =>
    obtain ⟨g, hchain, rfl⟩ := h
    obtain ⟨g', hg', heq⟩ := hchain.split hnodup (by rintro rfl; exact hold)
    refine ⟨g', ?_, heq⟩
    rcases hg' with ⟨rfl, hnil⟩ | ⟨rfl, hto⟩
    · exact hnil
    · exact hto
  | pendCas f k first last exp =>
    obtain ⟨g, hchain, rfl, -⟩ := h
    obtain ⟨g', hg', heq⟩ := hchain.split hnodup (by rintro rfl; exact hold)
    refine ⟨g', ?_, heq⟩
    rcases hg' with ⟨rfl, hnil⟩ | ⟨rfl, hto⟩
    · exact hnil
    · exact hto
  | _ => exact ⟨[], rfl, h⟩

/-! ## The history agrees with the state -/

/-- The history agrees with the state: a node that stands at its address is not
deleted, an unlinked node stands there or is deleted, neither a node being pushed
nor one in the stack has been unlinked, and a pop has unlinked its `old_head`. -/
structure Recorded (s : State Tid α) (h : History Tid) : Prop where
  later : ∀ n k, h.made n < k → h.unlinkedBy (n, k) = none ∧ h.deleted (n, k) = false
  alive : ∀ n, s.heap n ≠ none → h.deleted (h.node n) = false
  known : ∀ i, h.unlinkedBy i ≠ none → h.deleted i = true ∨ ∃ n, h.node n = i ∧ s.heap n ≠ none
  pushed : ∀ t n, (s.pc t).pushes = some n → h.unlinkedBy (h.node n) = none
  stacked : ∀ l, Segment (nextAt s.heap) s.head l none → ∀ n ∈ l, h.unlinkedBy (h.node n) = none
  oldHead : ∀ t n, (s.pc t).oldHead = some n → h.unlinkedBy (h.node n) = some (t, h.pops t)
  chainsOld : ∀ t, (s.pc t).ChainsOld

variable [Fintype Tid]

section Step
variable [DecidableEq Tid] {s s' : State Tid α}
  {a : AtomicState Tid (List α) (ContainerOp α) (Reply α)} {place : Addr → Place Tid}
  {l lp : List Addr} {t : Tid} {e : Effect} {x : Pc α} {h : History Tid}

omit [DecidableEq Tid] in
/-- A thread changes only the node it pushes and those in its hands. -/
theorem Refines.place_of_writes (hR : Refines s a place l lp) {y : Addr}
    (hy : (s.pc t).writes y) : place y = .pushing t ∨ place y = .unlinked t := by
  obtain ⟨lt, hown, -, hlt⟩ := hR.unlinked t
  have hmem : (s.pc t).pushes = some y ∨ (s.pc t).holds = some y ∨ y ∈ lt := by
    apply hown.mem
    cases hpc : s.pc t <;> rw [hpc] at hy <;> first | exact hy.elim | skip
    case deleteNode f n p => exact Or.inr (Or.inl hy)
    case pendSetNext f k first last q => exact Or.inr (Or.inr hy)
    all_goals exact hy
  rcases hmem with hpush | hhold | hlt'
  · exact Or.inl ((hR.pushing y t).mpr hpush)
  · exfalso
    cases hpc : s.pc t <;> rw [hpc] at hy hhold <;> first | exact hy | cases hhold
  · exact Or.inr ((hlt y).mpr hlt')

omit [DecidableEq Tid] in
theorem Refines.place_of_oldHead (hR : Refines s a place l lp) (hold : (s.pc t).ChainsOld)
    {y : Addr} (hy : (s.pc t).oldHead = some y) : place y = .unlinked t := by
  obtain ⟨lt, hown, hnodup, hlt⟩ := hR.unlinked t
  obtain ⟨g, -, rfl⟩ := hown.split hnodup hold
  exact (hlt y).mpr (by simp [hy])

/-- The nodes a thread has not in hand stay as they are when it moves. -/
theorem Refines.heap_eq (hR : Refines s a place l lp) (hm : Moved s t e s' x) {y : Addr}
    (hfree : place y ≠ .free) (hpush : place y ≠ .pushing t) (hunlinked : place y ≠ .unlinked t) :
    s'.heap y = s.heap y := by
  refine hm.heap y (fun he => hfree ((hR.free y).mpr (hm.made y he))) fun hw => ?_
  rcases hR.place_of_writes hw with hw | hw
  · exact hpush hw
  · exact hunlinked hw

/-- The node that a pop unlinks is in the stack. -/
theorem Refines.stacked_of_unlinked (hR : Refines s a place l lp) (hm : Moved s t e s' x) {y : Addr}
    (he : e = .unlinked y) : place y = .stacked := by
  rcases hm.head with ⟨-, hnot⟩ | ⟨p, -, -, hq⟩ | ⟨p, next, -, hhead, -, hp⟩
  · exact absurd he (hnot y)
  · rw [he] at hq
    cases hq
  · rw [he] at hp
    cases hp
    obtain ⟨l', v, q', rfl, -⟩ := (hhead ▸ hR.stack).pop
    exact (hR.stacked y).mpr List.mem_cons_self

/-- A node of the stack was in the stack before, or is the one pushed. -/
theorem Refines.stack_moved (hR : Refines s a place l lp) (hm : Moved s t e s' x) {l' : List Addr}
    (hseg : Segment (nextAt s'.heap) s'.head l' none) {y : Addr} (hy : y ∈ l') :
    e ≠ .unlinked y ∧ (place y = .stacked ∨ (s.pc t).pushes = some y) := by
  have hframe : ∀ z ∈ l, nextAt s'.heap z = nextAt s.heap z := fun z hz => by
    have hst := (hR.stacked z).mpr hz
    rw [nextAt, nextAt, hR.heap_eq hm (by simp [hst]) (by simp [hst]) (by simp [hst])]
  have hchain := hR.stack.chain
  have hag := hR.agrees t
  rcases hm.head with ⟨hhead, hnot⟩ | ⟨p, hpc, hhead, hq⟩ | ⟨p, next, hpc, hfirst, hhead, he⟩
  · rw [hhead] at hseg
    rw [hseg.unique (hchain.congr hframe)] at hy
    exact ⟨hnot y, Or.inl ((hR.stacked y).mpr hy)⟩
  · -- the node pushed is linked to the first one of the stack
    rw [hpc] at hag
    obtain ⟨v, -, hnext, -⟩ := hag
    have hp : nextAt s'.heap p = s.head := by
      rw [nextAt, hm.heap p (by simp [hq]) (by simp [hpc, Pc.writes])]
      exact hnext
    have hseg' : Segment (nextAt s'.heap) (some p) (p :: l) none :=
      ⟨rfl, hp ▸ hchain.congr hframe⟩
    rw [hhead] at hseg
    rw [hseg.unique hseg'] at hy
    refine ⟨by simp [hq], ?_⟩
    rcases List.mem_cons.mp hy with rfl | hy
    · exact Or.inr (by rw [hpc]; rfl)
    · exact Or.inl ((hR.stacked y).mpr hy)
  · rw [hpc] at hag
    rw [hfirst] at hchain
    obtain ⟨l'', rfl⟩ := hchain.exists_cons
    have hnext : nextAt s.heap p = next := hag.1 ((hR.stacked p).mpr List.mem_cons_self)
    have hrest : Segment (nextAt s'.heap) next l'' none :=
      hnext ▸ hchain.2.congr fun z hz => hframe z (List.mem_cons_of_mem _ hz)
    rw [hhead] at hseg
    rw [hseg.unique hrest] at hy
    have hyp : p ≠ y := fun hpy => (List.nodup_cons.mp hchain.nodup).1 (hpy ▸ hy)
    exact ⟨by simp [he, hyp], Or.inl ((hR.stacked y).mpr (List.mem_cons_of_mem _ hy))⟩

omit [Fintype Tid] in
/-- A node that has not been unlinked is not so after a step that does not unlink
it, and neither is one that the step makes. -/
theorem Recorded.not_unlinked (hrec : Recorded s h) {y : Addr} (he : e ≠ .unlinked y)
    (hy : e = .made y ∨ h.unlinkedBy (h.node y) = none) :
    (h.after t e).unlinkedBy ((h.after t e).node y) = none := by
  by_cases hmade : e = .made y
  · subst hmade
    rw [History.node_after_made]
    exact (hrec.later y _ (Nat.lt_succ_self _)).1
  · rw [History.node_after hmade, History.unlinkedBy_after]
    · exact hy.resolve_left hmade
    · rintro m rfl
      exact History.node_ne fun hmy => he (hmy ▸ rfl)

omit [Fintype Tid] in
theorem Moved.pc_self (hm : Moved s t e s' x) : s'.pc t = x := by
  rw [hm.pc, Function.update_self]

omit [Fintype Tid] in
theorem Moved.pc_of_ne (hm : Moved s t e s' x) {u : Tid} (hu : u ≠ t) : s'.pc u = s.pc u := by
  rw [hm.pc, Function.update_of_ne hu]

omit [DecidableEq Tid] in
theorem Refines.not_free (hR : Refines s a place l lp) {y : Addr} (hy : place y ≠ .free) :
    s.heap y ≠ none := fun hnone => hy ((hR.free y).mpr hnone)

omit [Fintype Tid] in
/-- Of a node not made yet nothing is recorded. -/
theorem Recorded.later_after (hrec : Recorded s h) (n : Addr) (k : ℕ)
    (hk : (h.after t e).made n < k) :
    (h.after t e).unlinkedBy (n, k) = none ∧ (h.after t e).deleted (n, k) = false := by
  have hlt : h.made n < k := by
    cases e with
    | made m =>
      by_cases hnm : n = m
      · subst hnm
        have hk' : h.made n + 1 < k := by simpa [History.after] using hk
        omega
      · simpa [History.after, hnm] using hk
    | _ => exact hk
  have hne : ∀ m, h.node m ≠ (n, k) := by
    rintro m he
    cases he
    exact lt_irrefl _ hlt
  rw [History.unlinkedBy_after fun m _ => hne m, History.deleted_after fun m _ => hne m]
  exact hrec.later n k hlt

omit [Fintype Tid] in
/-- A node that stands at its address was there before, or has just been made. -/
theorem Recorded.alive_moved (hrec : Recorded s h) (hm : Moved s t e s' x) (n : Addr)
    (hn : s'.heap n ≠ none) : (h.after t e).deleted ((h.after t e).node n) = false := by
  have hgone := (hm.gone n).not.mp hn
  rw [not_or] at hgone
  by_cases hmade : e = .made n
  · subst hmade
    rw [History.node_after_made]
    exact (hrec.later n _ (Nat.lt_succ_self _)).2
  · rw [History.node_after hmade, History.deleted_after]
    · exact hrec.alive n fun hnone => hgone.2 ⟨hnone, hmade⟩
    · rintro m rfl
      exact History.node_ne fun hmn => hgone.1 (hmn ▸ rfl)

/-- An unlinked node stays at its address until it is deleted. -/
theorem Recorded.known_moved (hrec : Recorded s h) (hR : Refines s a place l lp)
    (hm : Moved s t e s' x) (i : Addr × ℕ) (hi : (h.after t e).unlinkedBy i ≠ none) :
    (h.after t e).deleted i = true ∨ ∃ n, (h.after t e).node n = i ∧ s'.heap n ≠ none := by
  by_cases hun : ∃ m, e = .unlinked m ∧ h.node m = i
  · obtain ⟨m, rfl, rfl⟩ := hun
    have hst := hR.stacked_of_unlinked hm rfl
    refine Or.inr ⟨m, rfl, (hm.gone m).not.mpr ?_⟩
    simpa using hR.not_free (y := m) (by simp [hst])
  · rw [History.unlinkedBy_after fun m he hmi => hun ⟨m, he, hmi⟩] at hi
    rcases hrec.known i hi with hdel | ⟨n, rfl, hheap⟩
    · exact Or.inl (History.deleted_mono hdel)
    · by_cases hdel : e = .deleted n
      · subst hdel
        exact Or.inl History.deleted_node
      · have hmade : e ≠ .made n := fun he => hheap (hm.made n he)
        refine Or.inr ⟨n, History.node_after hmade, (hm.gone n).not.mpr ?_⟩
        rintro (hdel' | ⟨hfree, -⟩)
        · exact hdel hdel'
        · exact hheap hfree

/-- A node that is being pushed is not the one a step unlinks. -/
theorem Recorded.pushed_moved (hrec : Recorded s h) (hR : Refines s a place l lp)
    (hm : Moved s t e s' x) (u : Tid) (n : Addr) (hn : (s'.pc u).pushes = some n) :
    (h.after t e).unlinkedBy ((h.after t e).node n) = none := by
  have hsource : e = .made n ∨ ∃ w, (s.pc w).pushes = some n := by
    by_cases hut : u = t
    · rw [hut, hm.pc_self] at hn
      exact (hm.pushes n hn).imp id fun hold => ⟨t, hold⟩
    · rw [hm.pc_of_ne hut] at hn
      exact Or.inr ⟨u, hn⟩
  refine hrec.not_unlinked (fun he => ?_) (hsource.imp id fun ⟨w, hw⟩ => hrec.pushed w n hw)
  have hst := hR.stacked_of_unlinked hm he
  rcases hsource with hmade | ⟨w, hw⟩
  · exact hR.not_free (by simp [hst]) (hm.made n hmade)
  · rw [(hR.pushing n w).mpr hw] at hst
    cases hst

/-- A pop keeps the node it has unlinked; another one unlinks another node. -/
theorem Recorded.oldHead_moved (hrec : Recorded s h) (hR : Refines s a place l lp)
    (hm : Moved s t e s' x) (u : Tid) (n : Addr) (hn : (s'.pc u).oldHead = some n) :
    (h.after t e).unlinkedBy ((h.after t e).node n) = some (u, (h.after t e).pops u) := by
  by_cases hnew : u = t ∧ e = .unlinked n
  · obtain ⟨rfl, rfl⟩ := hnew
    exact History.unlinkedBy_node
  · have hold : (s.pc u).oldHead = some n ∧ (e = .called → u ≠ t) := by
      by_cases hut : u = t
      · subst u
        rw [hm.pc_self] at hn
        refine ⟨(hm.oldHead n hn).resolve_left fun he => hnew ⟨rfl, he⟩, fun he => ?_⟩
        rw [hm.idle he] at hn
        cases hn
      · rw [hm.pc_of_ne hut] at hn
        exact ⟨hn, fun _ => hut⟩
    have hplace := hR.place_of_oldHead (hrec.chainsOld u) hold.1
    have hmade : e ≠ .made n := fun he => hR.not_free (by simp [hplace]) (hm.made n he)
    rw [History.node_after hmade, History.unlinkedBy_after, History.pops_after hold.2]
    · exact hrec.oldHead u n hold.1
    · rintro m rfl
      refine History.node_ne fun hmn => ?_
      have hst := hR.stacked_of_unlinked hm rfl
      rw [hmn, hplace] at hst
      cases hst

/-- **The history goes on agreeing with the state.** -/
theorem Recorded.moved (hrec : Recorded s h) (hR : Refines s a place l lp)
    (hm : Moved s t e s' x) : Recorded s' (h.after t e) where
  later := hrec.later_after
  alive := hrec.alive_moved hm
  known := hrec.known_moved hR hm
  pushed := hrec.pushed_moved hR hm
  stacked l' hseg n hn := by
    obtain ⟨hnot, hbefore⟩ := hR.stack_moved hm hseg hn
    refine hrec.not_unlinked hnot (Or.inr ?_)
    rcases hbefore with hst | hpush
    · exact hrec.stacked l hR.stack.chain n ((hR.stacked n).mp hst)
    · exact hrec.pushed t n hpush
  oldHead := hrec.oldHead_moved hR hm
  chainsOld u := by
    by_cases hut : u = t
    · rw [hut, hm.pc_self]
      exact hm.chainsOld (hrec.chainsOld t)
    · rw [hm.pc_of_ne hut]
      exact hrec.chainsOld u

omit [Fintype Tid] in
theorem recorded_init :
    Recorded (machine : Machine (State Tid α) (Label Tid α)).init History.start where
  later _ _ _ := ⟨rfl, rfl⟩
  alive _ _ := rfl
  known _ hi := absurd rfl hi
  pushed _ _ hn := by cases hn
  stacked _ _ _ _ := rfl
  oldHead _ _ hn := by cases hn
  chainsOld _ := trivial

/-- In every reachable state the stack refines an abstract one, and the history agrees. -/
theorem recorded_of_reachable {x : State Tid α × History Tid} (hx : recording.Reachable x) :
    (∃ a, Refinement x.1 a) ∧ Recorded x.1 x.2 := by
  refine hx.invariant (P := fun x => (∃ a, Refinement x.1 a) ∧ Recorded x.1 x.2)
    ⟨⟨_, refinement_init⟩, recorded_init⟩ ?_
  rintro y lab z ⟨⟨a, hR⟩, hrec⟩ hstep
  obtain ⟨s', hs', rfl⟩ := Machine.instrument_step_eq_some.mp hstep
  obtain ⟨a', -, hR'⟩ := refinement_step hR hs'
  obtain ⟨place, l, lp, hplace⟩ := hR
  obtain ⟨x, hm⟩ := exists_moved hs'
  exact ⟨⟨a', hR'⟩, hrec.moved hplace hm⟩

/-! ## Where an unlinked node is -/

/-- Where a node that has been unlinked may be. -/
inductive Whereabouts (Tid : Type) where
  | held
  | pending
  | taken (t : Tid)
  | deleted

/-- The node `i` is there: the pop that unlinked it has it as its `old_head`, or it
is in the chain from `_to_be_deleted`, or in the private chain of thread `t`, or it
has been deleted. -/
def IsAt (s : State Tid α) (h : History Tid) (i : Addr × ℕ) : Whereabouts Tid → Prop
  | .held => ∃ t n, h.unlinkedBy i = some (t, h.pops t) ∧ (s.pc t).oldHead = some n ∧ h.node n = i
  | .pending => ∃ g, Segment (nextAt s.heap) s.toBeDeleted g none ∧ ∃ n ∈ g, h.node n = i
  | .taken t => ∃ g, Private (nextAt s.heap) (s.pc t) g ∧ ∃ n ∈ g, h.node n = i
  | .deleted => h.deleted i = true

/-- The same, read off the place of the node's address, if it stands there. -/
def Whereabouts.Fits (place : Addr → Place Tid) (s : State Tid α) (n : Addr) :
    Whereabouts Tid → Prop
  | .held => ∃ t, place n = .unlinked t ∧ (s.pc t).oldHead = some n
  | .pending => place n = .pending
  | .taken t => place n = .unlinked t ∧ (s.pc t).oldHead ≠ some n
  | .deleted => False

omit [Fintype Tid] [DecidableEq Tid] in
theorem Whereabouts.Fits.unique {n : Addr} {w w' : Whereabouts Tid} (hw : w.Fits place s n)
    (hw' : w'.Fits place s n) : w = w' := by
  cases w <;> cases w' <;> simp only [Fits] at hw hw' <;> grind

omit [DecidableEq Tid] in
/-- The private chain of a thread are the nodes in its hands other than its
`old_head`. -/
theorem Refines.exists_private (hR : Refines s a place l lp) (hold : (s.pc t).ChainsOld) :
    ∃ g, Private (nextAt s.heap) (s.pc t) g ∧
      ∀ n, n ∈ g ↔ place n = .unlinked t ∧ (s.pc t).oldHead ≠ some n := by
  obtain ⟨lt, hown, hnodup, hlt⟩ := hR.unlinked t
  obtain ⟨g, hg, rfl⟩ := hown.split hnodup hold
  refine ⟨g, hg, fun n => ?_⟩
  rw [hlt n, List.mem_append, Option.mem_toList]
  constructor
  · intro hn
    exact ⟨Or.inr hn, fun ho =>
      (List.nodup_append.mp hnodup).2.2 n (Option.mem_toList.mpr ho) n hn rfl⟩
  · rintro ⟨ho | hn, hne⟩
    · exact absurd ho hne
    · exact hn

omit [DecidableEq Tid] in
theorem isAt_node_iff (hR : Refines s a place l lp) (hrec : Recorded s h) {n : Addr}
    (hn : s.heap n ≠ none) (w : Whereabouts Tid) :
    IsAt s h (h.node n) w ↔ w.Fits place s n := by
  have hnode : ∀ {m}, h.node m = h.node n → m = n := fun hm => congrArg Prod.fst hm
  cases w with
  | held =>
    constructor
    · rintro ⟨t, m, -, hold, hm⟩
      cases hnode hm
      exact ⟨t, hR.place_of_oldHead (hrec.chainsOld t) hold, hold⟩
    · rintro ⟨t, -, hold⟩
      exact ⟨t, n, hrec.oldHead t n hold, hold, rfl⟩
  | pending =>
    constructor
    · rintro ⟨g, hg, m, hmem, hm⟩
      cases hnode hm
      exact (hR.pended n).mpr (hg.unique hR.pending ▸ hmem)
    · intro hplace
      exact ⟨lp, hR.pending, n, (hR.pended n).mp hplace, rfl⟩
  | taken t =>
    obtain ⟨g, hg, hmem⟩ := hR.exists_private (hrec.chainsOld t)
    constructor
    · rintro ⟨g', hg', m, hm, hmn⟩
      cases hnode hmn
      exact (hmem n).mp (hg'.unique hg ▸ hm)
    · intro hplace
      exact ⟨g, hg, n, (hmem n).mpr hplace, rfl⟩
  | deleted => simp [IsAt, Whereabouts.Fits, hrec.alive n hn]

omit [DecidableEq Tid] in
/-- A node that is held or in a chain stands at its address. -/
theorem IsAt.exists_node {i : Addr × ℕ} {w : Whereabouts Tid} (hw : IsAt s h i w)
    (hR : Refines s a place l lp) (hrec : Recorded s h) (hdel : w ≠ .deleted) :
    ∃ n, h.node n = i ∧ s.heap n ≠ none := by
  cases w with
  | held =>
    obtain ⟨t, n, -, hold, hn⟩ := hw
    exact ⟨n, hn, hR.not_free (by simp [hR.place_of_oldHead (hrec.chainsOld t) hold])⟩
  | pending =>
    obtain ⟨g, hg, n, hmem, hn⟩ := hw
    have hplace : place n = .pending := (hR.pended n).mpr (hg.unique hR.pending ▸ hmem)
    exact ⟨n, hn, hR.not_free (by simp [hplace])⟩
  | taken t =>
    obtain ⟨g, hg, n, hmem, hn⟩ := hw
    obtain ⟨g', hg', hmem'⟩ := hR.exists_private (hrec.chainsOld t)
    exact ⟨n, hn, hR.not_free (by simp [((hmem' n).mp (hg.unique hg' ▸ hmem)).1])⟩
  | deleted => exact absurd rfl hdel

omit [DecidableEq Tid] in
/-- **Nothing is lost, nothing is in two places.** -/
theorem existsUnique_isAt (hR : Refines s a place l lp) (hrec : Recorded s h) {i : Addr × ℕ}
    (hi : h.unlinkedBy i ≠ none) : ∃! w, IsAt s h i w := by
  rcases hrec.known i hi with hdel | ⟨n, rfl, hheap⟩
  · refine ⟨.deleted, hdel, fun w hw => ?_⟩
    by_contra hne
    obtain ⟨n, rfl, hn⟩ := hw.exists_node hR hrec hne
    rw [hrec.alive n hn] at hdel
    cases hdel
  · suffices hfits : ∃ w : Whereabouts Tid, w.Fits place s n by
      obtain ⟨w, hw⟩ := hfits
      exact ⟨w, (isAt_node_iff hR hrec hheap w).mpr hw, fun w' hw' =>
        ((isAt_node_iff hR hrec hheap w').mp hw').unique hw⟩
    cases hplace : place n with
    | free => exact absurd ((hR.free n).mp hplace) hheap
    | pushing t => exact absurd (hrec.pushed t n ((hR.pushing n t).mp hplace)) hi
    | stacked => exact absurd (hrec.stacked l hR.stack.chain n ((hR.stacked n).mp hplace)) hi
    | pending => exact ⟨.pending, hplace⟩
    | unlinked t =>
      by_cases hold : (s.pc t).oldHead = some n
      · exact ⟨.held, t, hplace, hold⟩
      · exact ⟨.taken t, hplace, hold⟩

end Step

/-! ## The loops end -/

/-- In the loop of `chain_pending_nodes(nodes)` or in that of `delete_nodes`. -/
def Pc.loops : Pc α → Bool
  | .walk _ _ _ | .deleteRead _ _ | .deleteNode _ _ _ => true
  | _ => false

/-- The thread walks the chain from `p`, or is about to start. -/
def Pc.WalksFrom : Pc α → Option Addr → Prop
  | .decrement _ nodes, p => nodes = p
  | .walk _ nodes _, p => some nodes = p
  | .deleteRead _ n, p => some n = p
  | _, _ => False

/-- The thread has `k` more steps in its loop. -/
def Remaining (next : Addr → Option Addr) : Pc α → ℕ → Prop
  | .walk _ _ last, k => ∃ g, Segment next (some last) g none ∧ k = g.length
  | .deleteRead _ n, k => ∃ g, Segment next (some n) g none ∧ k = 2 * g.length
  | .deleteNode _ _ p, k => ∃ g, Segment next p g none ∧ k = 2 * g.length + 1
  | _, k => k = 0

section Loops
variable {next next' : Addr → Option Addr} {f : Frame α} {p : Option Addr} {g lt : List Addr}
  {pc : Pc α} {k : ℕ}

theorem remaining_walkLoop (h : Segment next p g none) (nodes last : Addr) :
    Remaining next (Pc.walkLoop f nodes last p) g.length := by
  cases p with
  | none => rw [h.eq_nil]; exact rfl
  | some n => exact ⟨g, h, rfl⟩

theorem remaining_deleteLoop (h : Segment next p g none) :
    Remaining next (Pc.deleteLoop f p) (2 * g.length) := by
  cases p with
  | none => rw [h.eq_nil]; exact rfl
  | some n => exact ⟨g, h, rfl⟩

/-- Only the links of the nodes in the thread's hands matter. -/
theorem Remaining.congr (h : Remaining next pc k) (hown : Owns next pc lt)
    (hag : ∀ y ∈ lt, next' y = next y) : Remaining next' pc k := by
  cases pc with
  | walk f nodes last =>
    obtain ⟨g, hseg, rfl⟩ := h
    obtain ⟨g', g'', -, hrest, rfl⟩ := hown
    cases hseg.unique hrest
    exact ⟨g, hseg.congr fun y hy =>
      hag y (List.mem_append_right _ (List.mem_append_right _ hy)), rfl⟩
  | deleteRead f n =>
    obtain ⟨g, hseg, rfl⟩ := h
    obtain ⟨g', hrest, rfl⟩ := hown
    cases hseg.unique hrest
    exact ⟨g, hseg.congr fun y hy => hag y (List.mem_append_right _ hy), rfl⟩
  | deleteNode f n p =>
    obtain ⟨g, hseg, rfl⟩ := h
    obtain ⟨g', hrest, rfl⟩ := hown
    cases hseg.unique hrest
    exact ⟨g, hseg.congr fun y hy =>
      hag y (List.mem_append_right _ (List.mem_cons_of_mem _ hy)), rfl⟩
  | _ => exact h

/-- The nodes of the private chain bound the steps of the loop. -/
theorem Owns.exists_remaining (h : Owns next pc lt) (hg : Private next pc g) :
    ∃ k, Remaining next pc k ∧ k ≤ 2 * g.length := by
  cases pc with
  | walk f nodes last =>
    obtain ⟨g', g'', hseg, hrest, -⟩ := h
    cases Segment.unique hg (hseg.append hrest)
    refine ⟨g''.length, ⟨g'', hrest, rfl⟩, ?_⟩
    rw [List.length_append]
    omega
  | deleteRead f n => exact ⟨2 * g.length, ⟨g, hg, rfl⟩, le_rfl⟩
  | deleteNode f n p =>
    obtain ⟨g', rfl, hseg⟩ := hg
    refine ⟨2 * g'.length + 1, ⟨g', hseg, rfl⟩, ?_⟩
    rw [List.length_cons]
    omega
  | _ => exact ⟨0, rfl, Nat.zero_le _⟩

end Loops

section Run
variable [DecidableEq Tid] {s s' : State Tid α}
  {a : AtomicState Tid (List α) (ContainerOp α) (Reply α)} {place : Addr → Place Tid}
  {l lp : List Addr} {t : Tid} {k : ℕ}

omit [Fintype Tid] in
/-- The `next` of the first node of the rest is read. -/
theorem exists_remaining_readNext {n : Addr} {g : List Addr} {c : ℕ} {pc : Option Addr → Pc α}
    (hseg : Segment (nextAt s.heap) (some n) (n :: g) none)
    (hpc : ∀ p, Segment (nextAt s.heap) p g none → Remaining (nextAt s.heap) (pc p) c)
    (hs' : s.readNext t (some n) pc = s') :
    ∃ m ≤ c, Remaining (nextAt s'.heap) (s'.pc t) m := by
  subst hs'
  cases hnd : s.heap n with
  | none =>
    rw [State.readNext, State.access_gone hnd]
    exact ⟨0, Nat.zero_le c, by simp [State.goto, Remaining]⟩
  | some nd =>
    have hnext : nextAt s.heap n = nd.next := by simp [nextAt, hnd]
    rw [State.readNext, State.access_node hnd]
    refine ⟨c, le_rfl, ?_⟩
    simpa [State.goto] using hpc nd.next (hnext ▸ hseg.2)

/-- A step of the loop is one step less to go. -/
theorem Refines.remaining_next (hR : Refines s a place l lp) {spurious : Bool}
    (hk : Remaining (nextAt s.heap) (s.pc t) k) (hloop : (s.pc t).loops = true)
    (hstep : s.next t spurious = some s') :
    ∃ m < k, Remaining (nextAt s'.heap) (s'.pc t) m := by
  cases hpc : s.pc t <;> rw [hpc] at hk hloop <;> simp only [Pc.loops, Bool.false_eq_true] at hloop
  case walk f nodes last =>
    obtain ⟨g, hseg, rfl⟩ := hk
    obtain ⟨g', rfl⟩ := hseg.exists_cons
    simp only [State.next, hpc, Option.some.injEq] at hstep
    obtain ⟨m, hm, hrem⟩ := exists_remaining_readNext hseg
      (fun p hp => remaining_walkLoop hp nodes last) hstep
    exact ⟨m, Nat.lt_succ_of_le hm, hrem⟩
  case deleteRead f n =>
    obtain ⟨g, hseg, rfl⟩ := hk
    obtain ⟨g', rfl⟩ := hseg.exists_cons
    simp only [State.next, hpc, Option.some.injEq] at hstep
    have hread : ∀ p, Segment (nextAt s.heap) p g' none →
        Remaining (nextAt s.heap) (.deleteNode f n p) (2 * g'.length + 1) :=
      fun p hp => ⟨g', hp, rfl⟩
    obtain ⟨m, hm, hrem⟩ := exists_remaining_readNext hseg hread hstep
    refine ⟨m, ?_, hrem⟩
    rw [List.length_cons]
    omega
  case deleteNode f n p =>
    obtain ⟨g, hseg, rfl⟩ := hk
    simp only [State.next, hpc, Option.some.injEq, State.delete, State.access] at hstep
    subst hstep
    cases hnd : s.heap n with
    | none =>
      simp only [State.goto, Function.update_self]
      exact ⟨0, Nat.succ_pos _, rfl⟩
    | some nd =>
      simp only [State.goto, Function.update_self]
      -- the deleted node is not further down its own chain
      obtain ⟨lt, hown, hnodup, -⟩ := hR.unlinked t
      rw [hpc] at hown
      obtain ⟨g', hseg', rfl⟩ := hown
      cases hseg.unique hseg'
      have hn : n ∉ g := (List.nodup_cons.mp (List.nodup_append.mp hnodup).2.1).1
      have hrest : Segment (nextAt (Function.update s.heap n none)) p g none :=
        hseg.congr fun y hy => by
          have hyn : y ≠ n := fun he => hn (he ▸ hy)
          simp [nextAt, hyn]
      exact ⟨2 * g.length, Nat.lt_succ_self _, remaining_deleteLoop hrest⟩

/-- The steps of other threads leave the loop alone. -/
theorem Refines.remaining_other (hR : Refines s a place l lp) {u : Tid} (hut : t ≠ u)
    {e : Effect} {x : Pc α} (hm : Moved s u e s' x)
    (hk : Remaining (nextAt s.heap) (s.pc t) k) :
    Remaining (nextAt s'.heap) (s'.pc t) k := by
  obtain ⟨lt, hown, -, hlt⟩ := hR.unlinked t
  rw [hm.pc, Function.update_of_ne hut]
  refine hk.congr hown fun y hy => ?_
  have hplace := (hlt y).mpr hy
  rw [nextAt, nextAt, hR.heap_eq hm (by simp [hplace]) (by simp [hplace]) (by simp [hplace, hut])]

omit [Fintype Tid] in
/-- In its loop a thread does nothing but the steps of the loop. -/
theorem next_of_loops {lab : Label Tid α} (hloop : (s.pc lab.tid).loops = true)
    (hstep : machine.step s lab = some s') : ∃ spurious, s.next lab.tid spurious = some s' := by
  cases lab with
  | push t v n =>
    obtain ⟨hpc, -, -⟩ := step_push hstep
    simp [Label.tid, hpc, Pc.loops] at hloop
  | pop t =>
    obtain ⟨hpc, -⟩ := step_pop hstep
    simp [Label.tid, hpc, Pc.loops] at hloop
  | next t spurious => exact ⟨spurious, hstep⟩

/-- **The loops end**: as long as a thread stays in its loop, it takes no more steps
than the loop had to go. -/
theorem loop_steps_le (hR : ∃ a, Refinement s a) (hk : Remaining (nextAt s.heap) (s.pc t) k)
    {ls : List (Label Tid α)} {r : State Tid α}
    (hloop : machine.RunMeets (fun u _ => (u.pc t).loops = true) s ls)
    (hr : machine.run s ls = some r) : ls.countP (fun lab => lab.tid = t) ≤ k := by
  have hdecreases : ∀ (u : State Tid α) (lab : Label Tid α) (u' : State Tid α) (n : ℕ),
      ((∃ a, Refinement u a) ∧ Remaining (nextAt u.heap) (u.pc t) n) → (u.pc t).loops = true →
      machine.step u lab = some u' →
      ∃ m, ((∃ a, Refinement u' a) ∧ Remaining (nextAt u'.heap) (u'.pc t) m) ∧
        m + (decide (lab.tid = t)).toNat ≤ n := by
    rintro u lab u' n ⟨⟨a, hR⟩, hrem⟩ hstays hstep
    obtain ⟨a', -, hR'⟩ := refinement_step hR hstep
    obtain ⟨place, l, lp, hR⟩ := hR
    by_cases hown : lab.tid = t
    · obtain ⟨spurious, hnext⟩ := next_of_loops (hown ▸ hstays) hstep
      rw [hown] at hnext
      obtain ⟨m, hm, hrem'⟩ := hR.remaining_next hrem hstays hnext
      refine ⟨m, ⟨⟨a', hR'⟩, hrem'⟩, ?_⟩
      rw [decide_eq_true hown]
      exact hm
    · obtain ⟨x, hm⟩ := exists_moved hstep
      exact ⟨n, ⟨⟨a', hR'⟩, hR.remaining_other (Ne.symm hown) hm hrem⟩, by simp [hown]⟩
  exact Machine.countP_le_of_rank hdecreases ⟨hR, hk⟩ hloop hr

omit [Fintype Tid] in
/-- In its loop a thread can go on. -/
theorem exists_next_of_loops (hloop : (s.pc t).loops = true) (spurious : Bool) :
    ∃ s', machine.step s (.next t spurious) = some s' := by
  cases hpc : s.pc t <;> rw [hpc] at hloop <;> simp only [Pc.loops, Bool.false_eq_true] at hloop
  all_goals simp [machine, State.next, hpc]

omit [DecidableEq Tid] in
/-- A thread about to walk a chain, or walking it, has it in hand to its end. -/
theorem Refines.exists_walked (hR : Refines s a place l lp) {p : Option Addr}
    (hp : (s.pc t).WalksFrom p) : ∃ g, Segment (nextAt s.heap) p g none := by
  obtain ⟨lt, hown, -, -⟩ := hR.unlinked t
  cases hpc : s.pc t <;> rw [hpc] at hp hown <;> first | exact hp.elim | skip
  case decrement f nodes =>
    obtain ⟨g, hseg, -⟩ := hown
    exact ⟨g, hp ▸ hseg⟩
  case deleteRead f n =>
    obtain ⟨g, hseg, -⟩ := hown
    exact ⟨g, hp ▸ hseg⟩
  case walk f nodes last =>
    obtain ⟨g, g', hseg, hseg', -⟩ := hown
    exact ⟨g ++ g', hp ▸ hseg.append hseg'⟩

/-- **No pending node is leaked or cross-linked.**  In every state of every run,
whatever its pops find in `_head`, each node that a pop has ever unlinked is held by
that pop, or in the chain from `_to_be_deleted`, or in the private chain of one
thread, or deleted, and in one of these places only.  The chain from `_to_be_deleted`
is null-terminated, and so is every private chain when `chain_pending_nodes` or
`delete_nodes` walks it: a thread can always go on in its loop, and takes no more than
twice as many steps in it as the chain has nodes, whatever the others do. -/
theorem unlinkedNode_existsUnique (x : State Tid α × History Tid) (hx : recording.Reachable x) :
    (∀ i, x.2.unlinkedBy i ≠ none → ∃! w, IsAt x.1 x.2 i w) ∧
      (∃ g, Segment (nextAt x.1.heap) x.1.toBeDeleted g none) ∧
      (∀ t p, (x.1.pc t).WalksFrom p → ∃ g, Segment (nextAt x.1.heap) p g none) ∧
      ∀ t, (x.1.pc t).loops = true →
        (∀ spurious, ∃ s', machine.step x.1 (.next t spurious) = some s') ∧
        ∃ g, Private (nextAt x.1.heap) (x.1.pc t) g ∧ ∀ ls r, machine.run x.1 ls = some r →
          machine.RunMeets (fun u _ => (u.pc t).loops = true) x.1 ls →
          ls.countP (fun lab => lab.tid = t) ≤ 2 * g.length := by
  obtain ⟨⟨a, hR⟩, hrec⟩ := recorded_of_reachable hx
  obtain ⟨place, l, lp, h⟩ := hR
  refine ⟨fun i hi => existsUnique_isAt h hrec hi, ⟨lp, h.pending⟩,
    fun t p hp => h.exists_walked hp, fun t hloop => ⟨exists_next_of_loops hloop, ?_⟩⟩
  obtain ⟨lt, hown, hnodup, -⟩ := h.unlinked t
  obtain ⟨g, hg, -⟩ := hown.split hnodup (hrec.chainsOld t)
  obtain ⟨k, hk, hle⟩ := hown.exists_remaining hg
  exact ⟨g, hg, fun ls r hr hstays =>
    (loop_steps_le ⟨a, place, l, lp, h⟩ hk hstays hr).trans hle⟩

end Run

/-- Thread a unlinks node 2 while thread b is inside, so it chains it to
`_to_be_deleted`; thread b unlinks node 1 then, takes the chain and starts to delete
it. -/
def takenPending : List (Label Two Nat) :=
  .push .a 7 1 :: List.replicate 4 (.next .a false) ++
    (.push .a 8 2 :: List.replicate 4 (.next .a false)) ++
    (.pop .b :: [.next .b false]) ++
    (.pop .a :: List.replicate 12 (.next .a false)) ++ List.replicate 7 (.next .b false)

theorem takenPending_existsUnique :
    ∃ x, recording.run recording.init takenPending = some x ∧
      (∃! w, IsAt x.1 x.2 (2, 1) w) ∧ ∃! w, IsAt x.1 x.2 (1, 1) w := by
  obtain ⟨hplaces, -⟩ :=
    unlinkedNode_existsUnique _ (Machine.reachable_of_run takenPending rfl)
  exact ⟨_, rfl, hplaces (2, 1) (Option.some_ne_none _), hplaces (1, 1) (Option.some_ne_none _)⟩

end Sundries.LockFreeStack
