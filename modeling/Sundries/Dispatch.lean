import Mathlib.Data.List.Nodup
import Mathlib.Data.List.Perm.Basic
import Sundries.Machine

/-!
# Work handed out from queues

Items are put into queues, taken out again at the front by agents, started and
finished; an agent that is running an item may take and start others before it
finishes the first, as nested calls do.  `dispatch` is the machine of these four
actions, and nothing else is fixed: not how many queues or agents there are, nor
who may use which queue.

In every run of it each item is at any time in one place and there once
(`dispatch_ledger`), is started at most once (`dispatch_started_nodup`), leaves
its queue in the order of entry (`dispatch_order`), and an agent starts what it
takes in the order of taking (`dispatch_starts`).  The order in which *different*
agents start items of one queue is left open: taking and starting are two actions.
-/
namespace Sundries

/-! ## Ledgers -/

/-- The recorded items are those that stand in some place; each stands in one place,
and there once. -/
structure Ledger {P X : Type*} (content : P → List X) (recorded : List X) : Prop where
  nodup : ∀ p, (content p).Nodup
  unique : ∀ p p' x, x ∈ content p → x ∈ content p' → p = p'
  recorded : ∀ x, x ∈ recorded ↔ ∃ p, x ∈ content p

namespace Ledger
variable {P X : Type*} {content content' : P → List X} {recorded : List X} {p q : P} {x : X}

/-- A new item is entered in one place. -/
theorem enter (h : Ledger content recorded) (hx : x ∉ recorded)
    (hp : (content' p).Perm (x :: content p)) (hother : ∀ r, r ≠ p → content' r = content r) :
    Ledger content' (recorded ++ [x]) := by
  have hnew : ∀ r, x ∉ content r := fun r hr => hx ((h.recorded x).mpr ⟨r, hr⟩)
  have hmem : ∀ r y, y ∈ content' r ↔ y ∈ content r ∨ y = x ∧ r = p := by
    intro r y
    by_cases hr : r = p
    · subst r
      rw [hp.mem_iff, List.mem_cons]
      tauto
    · rw [hother r hr]
      tauto
  refine ⟨fun r => ?_, fun r r' y hy hy' => ?_, fun y => ?_⟩
  · by_cases hr : r = p
    · subst r
      exact hp.nodup_iff.mpr (List.nodup_cons.mpr ⟨hnew p, h.nodup p⟩)
    · rw [hother r hr]
      exact h.nodup r
  · rcases (hmem r y).mp hy with hold | ⟨rfl, rfl⟩
    · rcases (hmem r' y).mp hy' with hold' | ⟨rfl, rfl⟩
      · exact h.unique r r' y hold hold'
      · exact absurd hold (hnew r)
    · rcases (hmem r' y).mp hy' with hold' | ⟨-, rfl⟩
      · exact absurd hold' (hnew r')
      · rfl
  · simp only [List.mem_append, List.mem_singleton, h.recorded y, hmem]
    constructor
    · rintro (⟨r, hr⟩ | rfl)
      · exact ⟨r, Or.inl hr⟩
      · exact ⟨p, Or.inr ⟨rfl, rfl⟩⟩
    · rintro ⟨r, hr | ⟨rfl, -⟩⟩
      · exact Or.inl ⟨r, hr⟩
      · exact Or.inr rfl

/-- An item moves from one place to another. -/
theorem move (h : Ledger content recorded) (hpq : p ≠ q)
    (hp : (content p).Perm (x :: content' p)) (hq : (content' q).Perm (x :: content q))
    (hother : ∀ r, r ≠ p → r ≠ q → content' r = content r) : Ledger content' recorded := by
  have hxp : x ∈ content p := hp.mem_iff.mpr List.mem_cons_self
  have hxr : ∀ r, r ≠ p → x ∉ content r := fun r hr hx => hr (h.unique r p x hx hxp)
  obtain ⟨hxp', hnodup⟩ := List.nodup_cons.mp (hp.nodup_iff.mp (h.nodup p))
  have hmem : ∀ r y, y ∈ content' r ↔ y ≠ x ∧ y ∈ content r ∨ y = x ∧ r = q := by
    intro r y
    by_cases hrp : r = p
    · subst r
      rw [hp.mem_iff, List.mem_cons]
      by_cases hy : y = x
      · subst y
        simp [hxp', hpq]
      · simp [hy]
    · by_cases hrq : r = q
      · subst r
        rw [hq.mem_iff, List.mem_cons]
        by_cases hy : y = x <;> simp [hy]
      · rw [hother r hrp hrq]
        by_cases hy : y = x
        · subst y
          simp [hxr r hrp, hrq]
        · simp [hy]
  refine ⟨fun r => ?_, fun r r' y hy hy' => ?_, fun y => ?_⟩
  · by_cases hrp : r = p
    · subst r
      exact hnodup
    · by_cases hrq : r = q
      · subst r
        exact hq.nodup_iff.mpr (List.nodup_cons.mpr ⟨hxr q hrp, h.nodup q⟩)
      · rw [hother r hrp hrq]
        exact h.nodup r
  · rcases (hmem r y).mp hy with ⟨hne, hold⟩ | ⟨rfl, rfl⟩
    · rcases (hmem r' y).mp hy' with ⟨-, hold'⟩ | ⟨hyx, -⟩
      · exact h.unique r r' y hold hold'
      · exact absurd hyx hne
    · rcases (hmem r' y).mp hy' with ⟨hne, -⟩ | ⟨-, rfl⟩
      · exact absurd rfl hne
      · rfl
  · rw [h.recorded y]
    by_cases hy : y = x
    · subst y
      exact ⟨fun _ => ⟨q, (hmem q x).mpr (Or.inr ⟨rfl, rfl⟩)⟩, fun _ => ⟨p, hxp⟩⟩
    · simp [hmem, hy]

/-- A recorded item has exactly one position. -/
theorem existsUnique (h : Ledger content recorded) (hx : x ∈ recorded) :
    ∃! e : P × Nat, (content e.1)[e.2]? = some x := by
  obtain ⟨p, hp⟩ := (h.recorded x).mp hx
  obtain ⟨i, hi⟩ := List.mem_iff_getElem?.mp hp
  refine ⟨(p, i), hi, ?_⟩
  rintro ⟨p', i'⟩ hi'
  have hpp : p' = p := h.unique p' p x (List.mem_iff_getElem?.mpr ⟨i', hi'⟩) hp
  subst p'
  obtain ⟨hlt, hget⟩ := List.getElem?_eq_some_iff.mp hi
  obtain ⟨hlt', hget'⟩ := List.getElem?_eq_some_iff.mp hi'
  exact congrArg (Prod.mk p) ((h.nodup p).getElem_inj_iff.mp (hget'.trans hget.symm))

end Ledger

/-! ## The machine -/

/-- The items waiting in each queue, first out first; the item an agent has taken and
is about to start, with the queue it comes from; the items it is running, innermost
first; the finished ones; and all items so far. -/
structure Dispatch (Q T X : Type*) where
  waiting : Q → List X
  taken : T → Option (Q × X)
  running : T → List X
  finished : List X
  recorded : List X

namespace Dispatch

/-- What happens to an item. -/
inductive Event (Q T X : Type*) where
  | put (q : Q) (x : X)
  | take (t : T) (q : Q) (x : X)
  | start (t : T) (q : Q) (x : X)
  | finish (t : T) (x : X)

/-- Where an item may be. -/
inductive Place (Q T : Type*) where
  | queue (q : Q)
  | hands (t : T)
  | finished

variable {Q T X : Type*}

/-- The items in each place. -/
def content (a : Dispatch Q T X) : Place Q T → List X
  | .queue q => a.waiting q
  | .hands t => ((a.taken t).map Prod.snd).toList ++ a.running t
  | .finished => a.finished

/-! ## What a run has done -/

section Queues
variable [DecidableEq Q] (q : Q)

/-- The items put into the queue `q`, in order. -/
def putTo (τ : List (Event Q T X)) : List X :=
  τ.filterMap fun
    | .put q' x => if q' = q then some x else none
    | _ => none

/-- The items taken from the queue `q`, in order. -/
def takenFrom (τ : List (Event Q T X)) : List X :=
  τ.filterMap fun
    | .take _ q' x => if q' = q then some x else none
    | _ => none

/-- The items taken from the queue `q` and started, in the order of their starts. -/
def startedFrom (τ : List (Event Q T X)) : List X :=
  τ.filterMap fun
    | .start _ q' x => if q' = q then some x else none
    | _ => none

/-- The items among `l` that come from the queue `q`. -/
def ofQueue (l : List (Q × X)) : List X := (l.filter fun e => e.1 = q).map Prod.snd

theorem putTo_append (τ τ' : List (Event Q T X)) : putTo q (τ ++ τ') = putTo q τ ++ putTo q τ' :=
  List.filterMap_append

theorem takenFrom_append (τ τ' : List (Event Q T X)) :
    takenFrom q (τ ++ τ') = takenFrom q τ ++ takenFrom q τ' :=
  List.filterMap_append

end Queues

section Agents
variable [DecidableEq T] (t : T)

/-- What the agent `t` has taken, and from where, in order. -/
def takenBy (τ : List (Event Q T X)) : List (Q × X) :=
  τ.filterMap fun
    | .take t' q x => if t' = t then some (q, x) else none
    | _ => none

/-- What the agent `t` has started, and from where, in order. -/
def startedBy (τ : List (Event Q T X)) : List (Q × X) :=
  τ.filterMap fun
    | .start t' q x => if t' = t then some (q, x) else none
    | _ => none

end Agents

/-- All items started, in order. -/
def started (τ : List (Event Q T X)) : List X :=
  τ.filterMap fun
    | .start _ _ x => some x
    | _ => none

theorem started_append (τ τ' : List (Event Q T X)) :
    started (τ ++ τ') = started τ ++ started τ' :=
  List.filterMap_append

/-- If one agent alone takes from a queue, what it takes is what leaves the queue. -/
theorem ofQueue_takenBy_eq [DecidableEq Q] [DecidableEq T] {q : Q} {t : T}
    {τ : List (Event Q T X)} (h : ∀ u x, .take u q x ∈ τ → u = t) :
    ofQueue q (takenBy t τ) = takenFrom q τ := by
  induction τ with
  | nil => rfl
  | cons act τ ih =>
    have htail := ih fun u x hx => h u x (List.mem_cons_of_mem _ hx)
    cases act with
    | take t' q' x =>
      by_cases hq : q' = q
      · subst q'
        have ht : t' = t := h t' x List.mem_cons_self
        subst t'
        simpa [ofQueue, takenBy, takenFrom] using htail
      · by_cases ht : t' = t
        · simpa [ofQueue, takenBy, takenFrom, hq, ht] using htail
        · simpa [ofQueue, takenBy, takenFrom, hq, ht] using htail
    | put q' x | start t' q' x | finish t' x =>
      simpa [ofQueue, takenBy, takenFrom] using htail

/-- The same for what it starts. -/
theorem ofQueue_startedBy_eq [DecidableEq Q] [DecidableEq T] {q : Q} {t : T}
    {τ : List (Event Q T X)} (h : ∀ u x, .start u q x ∈ τ → u = t) :
    ofQueue q (startedBy t τ) = startedFrom q τ := by
  induction τ with
  | nil => rfl
  | cons act τ ih =>
    have htail := ih fun u x hx => h u x (List.mem_cons_of_mem _ hx)
    cases act with
    | start t' q' x =>
      by_cases hq : q' = q
      · subst q'
        have ht : t' = t := h t' x List.mem_cons_self
        subst t'
        simpa [ofQueue, startedBy, startedFrom] using htail
      · by_cases ht : t' = t
        · simpa [ofQueue, startedBy, startedFrom, hq, ht] using htail
        · simpa [ofQueue, startedBy, startedFrom, hq, ht] using htail
    | put q' x | take t' q' x | finish t' x =>
      simpa [ofQueue, startedBy, startedFrom] using htail

/-- What one agent takes from a queue it takes in the order in which it leaves. -/
theorem ofQueue_takenBy_sublist [DecidableEq Q] [DecidableEq T] (q : Q) (t : T)
    (τ : List (Event Q T X)) : (ofQueue q (takenBy t τ)).Sublist (takenFrom q τ) := by
  induction τ with
  | nil => exact List.Sublist.refl _
  | cons act τ ih =>
    cases act with
    | take t' q' x =>
      by_cases hq : q' = q
      · subst q'
        by_cases ht : t' = t
        · subst t'
          simpa [ofQueue, takenBy, takenFrom] using ih
        · simpa [ofQueue, takenBy, takenFrom, ht] using ih.trans (List.sublist_cons_self ..)
      · by_cases ht : t' = t
        · subst t'
          simpa [ofQueue, takenBy, takenFrom, hq] using ih
        · simpa [ofQueue, takenBy, takenFrom, hq, ht] using ih
    | put q' x | start t' q' x | finish t' x =>
      simpa [ofQueue, takenBy, takenFrom] using ih

end Dispatch

open Dispatch

section Dispatch
variable {Q T X : Type*} [DecidableEq Q] [DecidableEq T] [DecidableEq X]

/-- The machine that hands out the items. -/
def dispatch : Machine (Dispatch Q T X) (Event Q T X) where
  init := ⟨fun _ => [], fun _ => none, fun _ => [], [], []⟩
  step a
    | .put q x =>
      if x ∈ a.recorded then none
      else some { a with
        waiting := Function.update a.waiting q (a.waiting q ++ [x])
        recorded := a.recorded ++ [x] }
    | .take t q x =>
      if a.taken t = none ∧ (a.waiting q).head? = some x then
        some { a with
          waiting := Function.update a.waiting q (a.waiting q).tail
          taken := Function.update a.taken t (some (q, x)) }
      else none
    | .start t q x =>
      if a.taken t = some (q, x) then
        some { a with
          taken := Function.update a.taken t none
          running := Function.update a.running t (x :: a.running t) }
      else none
    | .finish t x =>
      if a.taken t = none ∧ (a.running t).head? = some x then
        some { a with
          running := Function.update a.running t (a.running t).tail
          finished := x :: a.finished }
      else none

variable {a a' : Dispatch Q T X} {q : Q} {t : T} {x : X}

theorem dispatch_put (hx : x ∉ a.recorded) :
    dispatch.step a (.put q x) =
      some { a with
        waiting := Function.update a.waiting q (a.waiting q ++ [x])
        recorded := a.recorded ++ [x] } :=
  if_neg hx

theorem dispatch_take {l : List X} (ht : a.taken t = none) (hq : a.waiting q = x :: l) :
    dispatch.step a (.take t q x) =
      some { a with
        waiting := Function.update a.waiting q l
        taken := Function.update a.taken t (some (q, x)) } := by
  simp [dispatch, ht, hq]

theorem dispatch_start (ht : a.taken t = some (q, x)) :
    dispatch.step a (.start t q x) =
      some { a with
        taken := Function.update a.taken t none
        running := Function.update a.running t (x :: a.running t) } :=
  if_pos ht

theorem dispatch_finish {l : List X} (ht : a.taken t = none) (hr : a.running t = x :: l) :
    dispatch.step a (.finish t x) =
      some { a with running := Function.update a.running t l, finished := x :: a.finished } := by
  simp [dispatch, ht, hr]

/-- All that an action can do. -/
theorem dispatch_step_cases {act : Event Q T X} (h : dispatch.step a act = some a') :
    (∃ q x, act = .put q x ∧ x ∉ a.recorded ∧ a' =
        { a with
          waiting := Function.update a.waiting q (a.waiting q ++ [x])
          recorded := a.recorded ++ [x] }) ∨
      (∃ t q x l, act = .take t q x ∧ a.taken t = none ∧ a.waiting q = x :: l ∧ a' =
        { a with
          waiting := Function.update a.waiting q l
          taken := Function.update a.taken t (some (q, x)) }) ∨
      (∃ t q x, act = .start t q x ∧ a.taken t = some (q, x) ∧ a' =
        { a with
          taken := Function.update a.taken t none
          running := Function.update a.running t (x :: a.running t) }) ∨
      ∃ t x l, act = .finish t x ∧ a.taken t = none ∧ a.running t = x :: l ∧ a' =
        { a with running := Function.update a.running t l, finished := x :: a.finished } := by
  cases act with
  | put q x =>
    simp only [dispatch, Option.ite_none_left_eq_some, Option.some.injEq] at h
    exact Or.inl ⟨q, x, rfl, h.1, h.2.symm⟩
  | take t q x =>
    simp only [dispatch, Option.ite_none_right_eq_some, Option.some.injEq] at h
    obtain ⟨⟨ht, hq⟩, rfl⟩ := h
    obtain ⟨l, hl⟩ := List.head?_eq_some_iff.mp hq
    exact Or.inr (Or.inl ⟨t, q, x, l, rfl, ht, hl, by rw [hl, List.tail_cons]⟩)
  | start t q x =>
    simp only [dispatch, Option.ite_none_right_eq_some, Option.some.injEq] at h
    exact Or.inr (Or.inr (Or.inl ⟨t, q, x, rfl, h.1, h.2.symm⟩))
  | finish t x =>
    simp only [dispatch, Option.ite_none_right_eq_some, Option.some.injEq] at h
    obtain ⟨⟨ht, hr⟩, rfl⟩ := h
    obtain ⟨l, hl⟩ := List.head?_eq_some_iff.mp hr
    exact Or.inr (Or.inr (Or.inr ⟨t, x, l, rfl, ht, hl, by rw [hl, List.tail_cons]⟩))

/-! ## Every item is in one place -/

/-- **Conservation.**  In every state of every run each item is in exactly one place,
and there once. -/
theorem dispatch_ledger (h : dispatch.Reachable a) : Ledger a.content a.recorded := by
  refine h.invariant (P := fun a => Ledger a.content a.recorded) ?_ ?_
  · have hempty : ∀ p, content (dispatch : Machine (Dispatch Q T X) (Event Q T X)).init p = [] := by
      rintro (q | t | -) <;> rfl
    refine ⟨fun p => by simp [hempty p], fun p p' x hx => by simp [hempty p] at hx, fun x => ?_⟩
    simp only [hempty, List.not_mem_nil, exists_false, iff_false]
    exact fun hx => nomatch hx
  · intro a act a' h hstep
    rcases dispatch_step_cases hstep with ⟨q, x, -, hx, rfl⟩ | ⟨t, q, x, l, -, ht, hq, rfl⟩ |
      ⟨t, q, x, -, ht, rfl⟩ | ⟨t, x, l, -, ht, hr, rfl⟩
    · -- a new item
      refine h.enter (p := .queue q) hx ?_ ?_
      · simp [content]
      · rintro (q' | t' | -) hne
        · have hq : q' ≠ q := fun he => hne (by rw [he])
          simp [content, hq]
        · rfl
        · rfl
    · refine h.move (p := .queue q) (q := .hands t) (x := x) (fun hne => nomatch hne) ?_ ?_ ?_
      · simp [content, hq]
      · simp [content, ht]
      · rintro (q' | t' | -) hnq hnt
        · have hq' : q' ≠ q := fun he => hnq (by rw [he])
          simp [content, hq']
        · have ht' : t' ≠ t := fun he => hnt (by rw [he])
          simp [content, ht']
        · rfl
    · -- starting an item leaves it in the same hands
      have hcontent : content { a with
          taken := Function.update a.taken t none
          running := Function.update a.running t (x :: a.running t) } = content a := by
        funext p
        rcases p with q' | t' | -
        · rfl
        · by_cases ht' : t' = t
          · subst t'
            simp [content, ht]
          · simp [content, ht']
        · rfl
      rw [hcontent]
      exact h
    · refine h.move (p := .hands t) (q := .finished) (x := x) (fun hne => nomatch hne) ?_ ?_ ?_
      · simp [content, ht, hr]
      · exact List.Perm.refl _
      · rintro (q' | t' | -) hnt hnf
        · rfl
        · have ht' : t' ≠ t := fun he => hnt (by rw [he])
          simp [content, ht']
        · exact absurd rfl hnf

/-! ## Orders -/

variable {τ : List (Event Q T X)}

/-- What has left a queue and what waits in it is what was put into it, in order. -/
theorem dispatch_order (h : dispatch.run dispatch.init τ = some a) (q : Q) :
    putTo q τ = takenFrom q τ ++ a.waiting q := by
  refine dispatch.run_induction (P := fun τ a => putTo q τ = takenFrom q τ ++ a.waiting q) rfl ?_ h
  intro τ a act a' ih hstep
  rw [putTo_append, takenFrom_append, ih]
  rcases dispatch_step_cases hstep with ⟨q', x, rfl, -, rfl⟩ | ⟨t, q', x, l, rfl, -, hq, rfl⟩ |
    ⟨t, q', x, rfl, -, rfl⟩ | ⟨t, x, l, rfl, -, -, rfl⟩
  · by_cases hqq : q' = q
    · subst q'
      simp [putTo, takenFrom]
    · simp [putTo, takenFrom, hqq, Ne.symm hqq]
  · by_cases hqq : q' = q
    · subst q'
      simp [putTo, takenFrom, hq]
    · simp [putTo, takenFrom, hqq, Ne.symm hqq]
  · simp [putTo, takenFrom]
  · simp [putTo, takenFrom]

/-- An agent has started what it has taken, in order, but for the item it is about to
start. -/
theorem dispatch_starts (h : dispatch.run dispatch.init τ = some a) (t : T) :
    takenBy t τ = startedBy t τ ++ (a.taken t).toList := by
  refine dispatch.run_induction
    (P := fun τ a => takenBy t τ = startedBy t τ ++ (a.taken t).toList) rfl ?_ h
  intro τ a act a' ih hstep
  rcases dispatch_step_cases hstep with ⟨q, x, rfl, -, rfl⟩ | ⟨t', q, x, l, rfl, ht, -, rfl⟩ |
    ⟨t', q, x, rfl, ht, rfl⟩ | ⟨t', x, l, rfl, -, -, rfl⟩
  · simpa [takenBy, startedBy] using ih
  · by_cases htt : t' = t
    · subst t'
      simp [takenBy, startedBy, ht] at ih ⊢
      exact ih
    · simpa [takenBy, startedBy, htt, Ne.symm htt] using ih
  · by_cases htt : t' = t
    · subst t'
      simp [takenBy, startedBy, ht] at ih ⊢
      exact ih
    · simpa [takenBy, startedBy, htt, Ne.symm htt] using ih
  · simpa [takenBy, startedBy] using ih

/-- What has been started is running or finished, and has been started once. -/
theorem dispatch_started (h : dispatch.run dispatch.init τ = some a) :
    (started τ).Nodup ∧ ∀ x ∈ started τ, x ∈ a.finished ∨ ∃ t, x ∈ a.running t := by
  suffices key : dispatch.Reachable a ∧ (started τ).Nodup ∧
      ∀ x ∈ started τ, x ∈ a.finished ∨ ∃ t, x ∈ a.running t from key.2
  refine dispatch.run_induction (P := fun τ a => dispatch.Reachable a ∧ (started τ).Nodup ∧
    ∀ x ∈ started τ, x ∈ a.finished ∨ ∃ t, x ∈ a.running t) ?_ ?_ h
  · exact ⟨Machine.Reachable.init, List.nodup_nil, fun x hx => nomatch hx⟩
  rintro τ a act a' ⟨hreach, hnodup, hmem⟩ hstep
  refine ⟨hreach.step hstep, ?_⟩
  rw [started_append]
  rcases dispatch_step_cases hstep with ⟨q, x, rfl, -, rfl⟩ | ⟨t, q, x, l, rfl, -, -, rfl⟩ |
    ⟨t, q, x, rfl, ht, rfl⟩ | ⟨t, x, l, rfl, -, hr, rfl⟩
  · rw [show started [Event.put q x] = ([] : List X) from rfl, List.append_nil]
    exact ⟨hnodup, hmem⟩
  · rw [show started [Event.take t q x] = ([] : List X) from rfl, List.append_nil]
    exact ⟨hnodup, hmem⟩
  · -- an item about to be started is neither finished nor running anywhere
    have hledger := dispatch_ledger hreach
    have hx : x ∈ a.content (.hands t) := by simp [content, ht]
    have hnot : x ∉ started τ := by
      intro hold
      rcases hmem x hold with hfin | ⟨t', hrun⟩
      · cases hledger.unique (.hands t) .finished x hx hfin
      · have hx' : x ∈ a.content (.hands t') := List.mem_append_right _ hrun
        cases hledger.unique (.hands t) (.hands t') x hx hx'
        have := hledger.nodup (.hands t)
        simp [content, ht, hrun] at this
    rw [show started [Event.start t q x] = [x] from rfl]
    refine ⟨?_, fun y hy => ?_⟩
    · exact (List.perm_append_singleton x _).nodup_iff.mpr (List.nodup_cons.mpr ⟨hnot, hnodup⟩)
    rcases List.mem_append.mp hy with hold | hnew
    · rcases hmem y hold with hfin | ⟨t', hrun⟩
      · exact Or.inl hfin
      · refine Or.inr ⟨t', ?_⟩
        by_cases htt : t' = t
        · subst t'
          simp [hrun]
        · simpa [htt] using hrun
    · exact Or.inr ⟨t, by simp [List.mem_singleton.mp hnew]⟩
  · rw [show started [Event.finish t x] = ([] : List X) from rfl, List.append_nil]
    refine ⟨hnodup, fun y hy => ?_⟩
    rcases hmem y hy with hfin | ⟨t', hrun⟩
    · exact Or.inl (List.mem_cons_of_mem _ hfin)
    · by_cases htt : t' = t
      · subst t'
        rw [hr, List.mem_cons] at hrun
        rcases hrun with rfl | hrun
        · exact Or.inl List.mem_cons_self
        · exact Or.inr ⟨t, by simpa using hrun⟩
      · exact Or.inr ⟨t', by simpa [htt] using hrun⟩

/-- **Order of the starts.**  Of the items put into a queue each agent starts those it
takes in the order in which they were put. -/
theorem dispatch_starts_sublist (h : dispatch.run dispatch.init τ = some a) (q : Q) (t : T) :
    (ofQueue q (startedBy t τ)).Sublist (putTo q τ) := by
  have hstarts : (startedBy t τ).Sublist (takenBy t τ) := by
    rw [dispatch_starts h t]
    exact List.sublist_append_left ..
  have htaken : (takenFrom q τ).Sublist (putTo q τ) := by
    rw [dispatch_order h q]
    exact List.sublist_append_left ..
  exact ((hstarts.filter _).map _).trans ((ofQueue_takenBy_sublist q t τ).trans htaken)

/-- A queue that one agent alone takes from is started in the order of entry. -/
theorem dispatch_startedFrom_prefix (h : dispatch.run dispatch.init τ = some a) {q : Q} {t : T}
    (hown : ∀ u x, .take u q x ∈ τ → u = t) : startedFrom q τ <+: putTo q τ := by
  have hstarts : ∀ u, startedBy u τ <+: takenBy u τ := fun u => by
    rw [dispatch_starts h u]
    exact List.prefix_append ..
  have hstarted : ∀ u x, .start u q x ∈ τ → u = t := by
    intro u x hx
    have hmem : (q, x) ∈ startedBy u τ := List.mem_filterMap.mpr ⟨_, hx, by simp⟩
    obtain ⟨act, hact, htake⟩ := List.mem_filterMap.mp ((hstarts u).subset hmem)
    cases act with
    | take u' q' x' =>
      simp only [Option.ite_none_right_eq_some, Option.some.injEq, Prod.mk.injEq] at htake
      obtain ⟨rfl, rfl, rfl⟩ := htake
      exact hown u' x' hact
    | put _ _ | start _ _ _ | finish _ _ => cases htake
  rw [← ofQueue_startedBy_eq hstarted, dispatch_order h q, ← ofQueue_takenBy_eq hown]
  exact (((hstarts t).filter _).map _).trans (List.prefix_append ..)

end Dispatch
end Sundries
