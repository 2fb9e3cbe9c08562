import Mathlib.Data.Int.Basic
import Mathlib.Data.List.Perm.Basic
import Sundries.Machine

/-!
# The priority queue of handlers

`handler_priority_queue` and the loop of `main`: while it polls, handlers are added, then
`execute_all` executes them.  A handler that is being executed is still in the queue and may add
others.  Of handlers with the same priority either may be the top one, so a label says which; the
head of `handlers` is `top()`.
-/
namespace Sundries.Invocation

/-- A `queued_handler`; the `ticket` counts the calls of `add`. -/
structure QueuedHandler (F : Type*) where
  priority : ℤ
  function : F
  ticket : ℕ
  deriving DecidableEq

/-- Polling, about to look at the queue in `execute_all`, or in a handler. -/
inductive Phase where
  | polling | looking | executing
  deriving DecidableEq

/-- `batch` are the handlers executed since `execute_all` has been called, `executed` and `popped`
all of them. -/
structure Queue (F : Type*) where
  handlers : List (QueuedHandler F)
  phase : Phase
  added : ℕ
  batch : List (QueuedHandler F)
  executed : List (QueuedHandler F)
  popped : List (QueuedHandler F)
  deriving DecidableEq

inductive Label (F : Type*) where
  | add (priority : ℤ) (function : F) (onTop : Bool)
  | executeAll
  | execute
  | pop (k : ℕ)
  | finish

variable {F : Type*}

/-- `push`: a handler comes to the top only if no other one has a higher priority. -/
def push (h : QueuedHandler F) (onTop : Bool) :
    List (QueuedHandler F) → Option (List (QueuedHandler F))
  | [] => some [h]
  | top :: rest =>
    if onTop then if top.priority ≤ h.priority then some (h :: top :: rest) else none
    else if h.priority ≤ top.priority then some (top :: (rest ++ [h])) else none

/-- The `k`-th one of the handlers that are left comes to the top. -/
def raise (k : ℕ) (rest : List (QueuedHandler F)) : Option (List (QueuedHandler F)) :=
  match rest[k]? with
  | none => if rest.isEmpty then some [] else none
  | some top =>
    if rest.all fun h => h.priority ≤ top.priority then some (top :: rest.eraseIdx k) else none

def step (q : Queue F) : Label F → Option (Queue F)
  | .add priority function onTop =>
    if q.phase = .looking then none
    else (push ⟨priority, function, q.added⟩ onTop q.handlers).map fun handlers =>
      { q with handlers := handlers, added := q.added + 1 }
  | .executeAll =>
    if q.phase = .polling then some { q with phase := .looking, batch := [] } else none
  | .execute =>
    match q.phase, q.handlers with
    | .looking, h :: _ =>
      some { q with phase := .executing, batch := q.batch ++ [h], executed := q.executed ++ [h] }
    | _, _ => none
  -- `pop` after the handler has returned
  | .pop k =>
    match q.phase, q.handlers with
    | .executing, h :: rest =>
      (raise k rest).map fun handlers =>
        { q with handlers := handlers, phase := .looking, popped := q.popped ++ [h] }
    | _, _ => none
  | .finish =>
    if q.phase = .looking ∧ q.handlers.isEmpty then some { q with phase := .polling } else none

def queue (F : Type*) : Machine (Queue F) (Label F) where
  init := ⟨[], .polling, 0, [], [], []⟩
  step := step

/-- **What a step does.** -/
inductive Moves (q : Queue F) : Label F → Queue F → Prop
  | first {priority : ℤ} {function : F} {onTop : Bool} (hphase : q.phase ≠ .looking)
      (hnil : q.handlers = []) :
      Moves q (.add priority function onTop)
        { q with handlers := [⟨priority, function, q.added⟩], added := q.added + 1 }
  | addTop {priority : ℤ} {function : F} {top : QueuedHandler F} {rest : List (QueuedHandler F)}
      (hphase : q.phase ≠ .looking) (hhandlers : q.handlers = top :: rest)
      (hle : top.priority ≤ priority) :
      Moves q (.add priority function true)
        { q with
          handlers := ⟨priority, function, q.added⟩ :: top :: rest, added := q.added + 1 }
  | addBelow {priority : ℤ} {function : F} {top : QueuedHandler F}
      {rest : List (QueuedHandler F)} (hphase : q.phase ≠ .looking)
      (hhandlers : q.handlers = top :: rest) (hle : priority ≤ top.priority) :
      Moves q (.add priority function false)
        { q with
          handlers := top :: (rest ++ [⟨priority, function, q.added⟩]), added := q.added + 1 }
  | executeAll (hphase : q.phase = .polling) :
      Moves q .executeAll { q with phase := .looking, batch := [] }
  | execute {h : QueuedHandler F} {rest : List (QueuedHandler F)} (hphase : q.phase = .looking)
      (hhandlers : q.handlers = h :: rest) :
      Moves q .execute
        { q with phase := .executing, batch := q.batch ++ [h], executed := q.executed ++ [h] }
  | pop {k : ℕ} {h : QueuedHandler F} {rest handlers : List (QueuedHandler F)}
      (hphase : q.phase = .executing) (hhandlers : q.handlers = h :: rest)
      (hraise : raise k rest = some handlers) :
      Moves q (.pop k)
        { q with handlers := handlers, phase := .looking, popped := q.popped ++ [h] }
  | finish (hphase : q.phase = .looking) (hnil : q.handlers = []) :
      Moves q .finish { q with phase := .polling }

theorem moves_of_step {q q' : Queue F} {l : Label F} (hstep : step q l = some q') :
    Moves q l q' := by
  cases l with
  | add priority function onTop =>
    obtain ⟨hphase, hstep⟩ := Option.ite_none_left_eq_some.mp hstep
    obtain ⟨handlers, hpush, rfl⟩ := Option.map_eq_some_iff.mp hstep
    cases hhandlers : q.handlers with
    | nil =>
      rw [hhandlers] at hpush
      cases hpush
      exact .first hphase hhandlers
    | cons top rest =>
      rw [hhandlers, push] at hpush
      cases onTop with
      | true =>
        obtain ⟨hle, hpush⟩ := Option.ite_none_right_eq_some.mp hpush
        cases hpush
        exact .addTop hphase hhandlers hle
      | false =>
        obtain ⟨hle, hpush⟩ := Option.ite_none_right_eq_some.mp hpush
        cases hpush
        exact .addBelow hphase hhandlers hle
  | executeAll =>
    obtain ⟨hphase, hstep⟩ := Option.ite_none_right_eq_some.mp hstep
    cases hstep
    exact .executeAll hphase
  | execute =>
    simp only [step] at hstep
    split at hstep
    · rename_i h rest hphase hhandlers
      cases hstep
      exact .execute hphase hhandlers
    · cases hstep
  | pop k =>
    simp only [step] at hstep
    split at hstep
    · rename_i h rest hphase hhandlers
      obtain ⟨handlers, hraise, rfl⟩ := Option.map_eq_some_iff.mp hstep
      exact .pop hphase hhandlers hraise
    · cases hstep
  | finish =>
    obtain ⟨⟨hphase, hnil⟩, hstep⟩ := Option.ite_none_right_eq_some.mp hstep
    cases hstep
    exact .finish hphase (List.isEmpty_iff.mp hnil)

/-- The same handlers are left, with the largest one on top. -/
theorem raise_cases {k : ℕ} {rest handlers : List (QueuedHandler F)}
    (h : raise k rest = some handlers) :
    handlers.Perm rest ∧ ∀ top below, handlers = top :: below → ∀ x ∈ rest,
      x.priority ≤ top.priority := by
  rw [raise] at h
  cases htop : rest[k]? with
  | none =>
    rw [htop] at h
    obtain ⟨hnil, h⟩ := Option.ite_none_right_eq_some.mp h
    cases h
    rw [List.isEmpty_iff.mp hnil]
    exact ⟨.refl [], fun _ _ heq => by cases heq⟩
  | some top =>
    rw [htop] at h
    obtain ⟨hall, h⟩ := Option.ite_none_right_eq_some.mp h
    cases h
    obtain ⟨hk, rfl⟩ := List.getElem?_eq_some_iff.mp htop
    refine ⟨List.getElem_cons_eraseIdx_perm hk, fun top below heq x hx => ?_⟩
    cases heq
    exact of_decide_eq_true (List.all_eq_true.mp hall x hx)

/-! ## What is executed -/

/-- The handlers that have been popped and, while a handler is being executed, the one on top, which
the next `pop` removes. -/
def Queue.removed (q : Queue F) : List (QueuedHandler F) :=
  q.popped ++ if q.phase = .executing then q.handlers.take 1 else []

/-- The handlers that have not been executed. -/
def Queue.waiting (q : Queue F) : List (QueuedHandler F) :=
  if q.phase = .executing then q.handlers.drop 1 else q.handlers

/-- The head is the top, a handler stays in the queue while it is executed, and the queue itself
loses none. -/
structure Queue.Valid (q : Queue F) : Prop where
  executing : q.phase = .executing → q.handlers ≠ []
  top : ∀ h rest, q.handlers = h :: rest → ∀ x ∈ rest, x.priority ≤ h.priority
  tickets : ((q.popped ++ q.handlers).map QueuedHandler.ticket).Perm (List.range q.added)

/-- A handler that is being executed adds no handler that comes before it. -/
def KeepsTop (q : Queue F) : Label F → Prop
  | .add _ _ onTop => q.phase = .executing → onTop = false
  | _ => True

instance (q : Queue F) : ∀ l, Decidable (KeepsTop q l)
  | .add _ _ onTop => inferInstanceAs (Decidable (q.phase = .executing → onTop = false))
  | .executeAll => .isTrue trivial
  | .execute => .isTrue trivial
  | .pop _ => .isTrue trivial
  | .finish => .isTrue trivial

theorem Queue.Valid.init : (queue F).init.Valid where
  executing hphase := by cases hphase
  top _ _ heq := by cases heq
  tickets := .refl _

theorem Queue.Valid.step {q q' : Queue F} (h : q.Valid) {l : Label F}
    (hstep : (queue F).step q l = some q') : q'.Valid := by
  have hadd : ∀ (e : QueuedHandler F) (handlers : List (QueuedHandler F)), e.ticket = q.added →
      handlers.Perm (e :: q.handlers) →
      ((q.popped ++ handlers).map QueuedHandler.ticket).Perm (List.range (q.added + 1)) := by
    intro e handlers he hperm
    have hcons : (q.popped ++ handlers).Perm (e :: (q.popped ++ q.handlers)) :=
      (hperm.append_left q.popped).trans List.perm_middle
    rw [List.range_succ]
    refine (hcons.map QueuedHandler.ticket).trans ?_
    rw [List.map_cons, he]
    exact (h.tickets.cons q.added).trans (List.perm_append_singleton _ _).symm
  cases moves_of_step hstep with
  | first hphase hnil =>
    refine ⟨fun _ => List.cons_ne_nil _ _, fun e rest heq x hx => ?_, hadd _ _ rfl (by rw [hnil])⟩
    cases heq
    cases hx
  | @addTop priority function top rest hphase hhandlers hle =>
    refine ⟨fun _ => List.cons_ne_nil _ _, fun e below heq x hx => ?_,
      hadd _ _ rfl (by rw [hhandlers])⟩
    cases heq
    rcases List.mem_cons.mp hx with rfl | hx
    · exact hle
    · exact Int.le_trans (h.top top rest hhandlers x hx) hle
  | @addBelow priority function top rest hphase hhandlers hle =>
    refine ⟨fun _ => List.cons_ne_nil _ _, fun e below heq x hx => ?_,
      hadd ⟨priority, function, q.added⟩ _ rfl ?_⟩
    · cases heq
      rcases List.mem_append.mp hx with hx | hx
      · exact h.top top rest hhandlers x hx
      · cases List.mem_singleton.mp hx
        exact hle
    · rw [hhandlers, ← List.cons_append]
      exact List.perm_append_singleton _ _
  | executeAll hphase => exact ⟨(fun heq => by cases heq), h.top, h.tickets⟩
  | @execute e rest hphase hhandlers =>
    exact ⟨fun _ => hhandlers ▸ List.cons_ne_nil e rest, h.top, h.tickets⟩
  | @pop k e rest handlers hphase hhandlers hraise =>
    obtain ⟨hperm, htop⟩ := raise_cases hraise
    refine ⟨(fun heq => by cases heq), fun top below heq x hx => htop top below heq x ?_, ?_⟩
    · exact hperm.mem_iff.mp (Eq.mpr (congrArg (x ∈ ·) heq) (List.mem_cons_of_mem top hx))
    · have hsame : (q.popped ++ [e] ++ handlers).Perm (q.popped ++ q.handlers) := by
        rw [hhandlers, List.append_assoc]
        exact (hperm.cons e).append_left q.popped
      exact (hsame.map QueuedHandler.ticket).trans h.tickets
  | finish hphase hnil => exact ⟨(fun heq => by cases heq), h.top, h.tickets⟩

/-- A new handler is none of those in the queue. -/
theorem Queue.Valid.ticket_lt {q : Queue F} (h : q.Valid) {e : QueuedHandler F}
    (he : e ∈ q.handlers) : e.ticket < q.added := by
  have hmem : e.ticket ∈ (q.popped ++ q.handlers).map QueuedHandler.ticket :=
    List.mem_map_of_mem (List.mem_append_right _ he)
  exact List.mem_range.mp (h.tickets.mem_iff.mp hmem)

/-- **One step**: what is popped stays what has been executed unless a handler comes before the one
that is being executed. -/
theorem removed_step {q q' : Queue F} (h : q.Valid) (hright : q.removed = q.executed)
    {l : Label F} (hstep : (queue F).step q l = some q') :
    q'.removed = q'.executed ↔ KeepsTop q l := by
  cases moves_of_step hstep with
  | first hphase hnil =>
    have hpolling : q.phase ≠ .executing := fun heq => h.executing heq hnil
    simp only [Queue.removed, if_neg hpolling] at hright ⊢
    exact ⟨fun _ heq => absurd heq hpolling, fun _ => hright⟩
  | @addTop priority function top rest hphase hhandlers hle =>
    by_cases hexecuting : q.phase = .executing
    · -- the executed handler is the second one now
      simp only [Queue.removed, if_pos hexecuting, hhandlers, List.take_succ_cons,
        List.take_zero] at hright ⊢
      rw [← hright]
      refine ⟨fun heq => ?_, fun hkeeps => ?_⟩
      · have hnew := (List.cons.inj (List.append_cancel_left heq)).1
        have hlt := h.ticket_lt (hhandlers ▸ List.mem_cons_self : top ∈ q.handlers)
        rw [← hnew] at hlt
        exact absurd hlt (Nat.lt_irrefl _)
      · cases hkeeps hexecuting
    · simp only [Queue.removed, if_neg hexecuting] at hright ⊢
      exact ⟨fun _ heq => absurd heq hexecuting, fun _ => hright⟩
  | @addBelow priority function top rest hphase hhandlers hle =>
    refine ⟨fun _ _ => rfl, fun _ => ?_⟩
    rw [← hright]
    simp [Queue.removed, hhandlers]
  | executeAll hphase =>
    refine ⟨fun _ => trivial, fun _ => ?_⟩
    rw [← hright]
    simp [Queue.removed, hphase]
  | execute hphase hhandlers =>
    refine ⟨fun _ => trivial, fun _ => ?_⟩
    rw [← hright]
    simp [Queue.removed, hphase, hhandlers]
  | pop hphase hhandlers hraise =>
    refine ⟨fun _ => trivial, fun _ => ?_⟩
    rw [← hright]
    simp [Queue.removed, hphase, hhandlers]
  | finish hphase hnil =>
    refine ⟨fun _ => trivial, fun _ => ?_⟩
    rw [← hright]
    simp [Queue.removed, hphase]

/-! ## The order -/

/-- The handlers of a batch are executed by priority, and none with a higher one is left. -/
structure Queue.InOrder (q : Queue F) : Prop where
  sorted : q.batch.Pairwise fun a b => b.priority ≤ a.priority
  left : q.phase ≠ .polling → ∀ a ∈ q.batch, ∀ b ∈ q.handlers, b.priority ≤ a.priority

theorem Queue.InOrder.step {q q' : Queue F} (h : q.Valid) (horder : q.InOrder) {l : Label F}
    (hkeeps : KeepsTop q l) (hstep : (queue F).step q l = some q') : q'.InOrder := by
  cases moves_of_step hstep with
  | first hphase hnil =>
    refine ⟨horder.sorted, fun hbatch => ?_⟩
    cases hcase : q.phase with
    | polling => exact absurd hcase hbatch
    | looking => exact absurd hcase hphase
    | executing => exact absurd hnil (h.executing hcase)
  | addTop hphase hhandlers hle =>
    refine ⟨horder.sorted, fun hbatch => ?_⟩
    cases hcase : q.phase with
    | polling => exact absurd hcase hbatch
    | looking => exact absurd hcase hphase
    | executing => cases hkeeps hcase
  | @addBelow priority function top rest hphase hhandlers hle =>
    refine ⟨horder.sorted, fun hbatch a ha b hb => ?_⟩
    have hleft := horder.left hbatch a ha
    rw [hhandlers] at hleft
    rw [← List.cons_append] at hb
    rcases List.mem_append.mp hb with hb | hb
    · exact hleft b hb
    · cases List.mem_singleton.mp hb
      exact Int.le_trans hle (hleft top List.mem_cons_self)
  | executeAll hphase => exact ⟨.nil, fun _ a ha => absurd ha List.not_mem_nil⟩
  | @execute e rest hphase hhandlers =>
    have hbatch : q.phase ≠ .polling := fun heq => by rw [hphase] at heq; cases heq
    refine ⟨?_, fun _ a ha b hb => ?_⟩
    · refine List.pairwise_append.mpr
        ⟨horder.sorted, List.pairwise_singleton _ _, fun a ha b hb => ?_⟩
      cases List.mem_singleton.mp hb
      exact horder.left hbatch a ha e (hhandlers ▸ List.mem_cons_self)
    · rcases List.mem_append.mp ha with ha | ha
      · exact horder.left hbatch a ha b hb
      · rw [List.mem_singleton.mp ha]
        rcases List.mem_cons.mp (hhandlers ▸ hb : b ∈ e :: rest) with rfl | hb
        · exact Int.le_refl _
        · exact h.top e rest hhandlers b hb
  | @pop k e rest handlers hphase hhandlers hraise =>
    have hbatch : q.phase ≠ .polling := fun heq => by rw [hphase] at heq; cases heq
    refine ⟨horder.sorted, fun _ a ha b hb => horder.left hbatch a ha b ?_⟩
    rw [hhandlers]
    exact List.mem_cons_of_mem e ((raise_cases hraise).1.mem_iff.mp hb)
  | finish hphase hnil => exact ⟨horder.sorted, fun hbatch => absurd rfl hbatch⟩

theorem inOrder_of_reachableBy {q : Queue F} (h : (queue F).ReachableBy KeepsTop q) :
    q.Valid ∧ q.InOrder := by
  induction h with
  | init => exact ⟨.init, .nil, fun _ a ha => absurd ha List.not_mem_nil⟩
  | step _ hkeeps hstep ih => exact ⟨ih.1.step hstep, ih.2.step ih.1 hkeeps hstep⟩

theorem removed_append_waiting (q : Queue F) :
    q.removed ++ q.waiting = q.popped ++ q.handlers := by
  by_cases hexecuting : q.phase = .executing
  · rw [Queue.removed, Queue.waiting, if_pos hexecuting, if_pos hexecuting, List.append_assoc,
      List.take_append_drop]
  · rw [Queue.removed, Queue.waiting, if_neg hexecuting, if_neg hexecuting, List.append_nil]

theorem valid_of_run {q : Queue F} {ls : List (Label F)}
    (hrun : (queue F).run (queue F).init ls = some q) : q.Valid :=
  (Machine.reachable_of_run ls hrun).invariant .init fun _ _ _ h hstep => h.step hstep

/-- **Handlers are executed once and by priority** exactly in the runs in which no handler that is
being executed adds one that comes before it: `pop` removes the top handler then, and not the one
that has been executed. -/
theorem executed_once_iff {q : Queue F} {ls : List (Label F)}
    (hrun : (queue F).run (queue F).init ls = some q) :
    ((∀ before u, before <+: ls → (queue F).run (queue F).init before = some u →
        u.removed = u.executed) ↔ (queue F).RunMeets KeepsTop (queue F).init ls) ∧
      ((queue F).RunMeets KeepsTop (queue F).init ls →
        ((q.executed ++ q.waiting).map QueuedHandler.ticket).Perm (List.range q.added) ∧
          q.batch.Pairwise fun a b => b.priority ≤ a.priority) := by
  have hexact : (∀ before u, before <+: ls → (queue F).run (queue F).init before = some u →
      u.Valid ∧ u.removed = u.executed) ↔ (queue F).RunMeets KeepsTop (queue F).init ls :=
    Machine.runMeets_iff (P := fun u => u.Valid ∧ u.removed = u.executed)
      (fun _ _ _ hu hstep => (and_iff_right (hu.1.step hstep)).trans (removed_step hu.1 hu.2 hstep))
      ⟨.init, rfl⟩ hrun
  have hiff : (∀ before u, before <+: ls → (queue F).run (queue F).init before = some u →
      u.removed = u.executed) ↔ (queue F).RunMeets KeepsTop (queue F).init ls := by
    rw [← hexact]
    exact forall₄_congr fun before u _ hu => (and_iff_right (valid_of_run hu)).symm
  refine ⟨hiff, fun hkeeps => ?_⟩
  have hright := hiff.mpr hkeeps ls q List.prefix_rfl hrun
  obtain ⟨hvalid, horder⟩ := inOrder_of_reachableBy (Machine.reachableBy_of_run ls hkeeps hrun)
  rw [← hright, removed_append_waiting]
  exact ⟨hvalid.tickets, horder.sorted⟩

/-- The three handlers of `main`, added in the order of the calls. -/
def mainLabels : List (Label String) :=
  [.add 0 "Low priority handler\n" true, .add 100 "High priority handler\n" true,
    .add 42 "Middle priority handler\n" false, .executeAll, .execute, .pop 1, .execute, .pop 0,
    .execute, .pop 0, .finish]

theorem mainHandlers_executed : ∃ q, (queue String).run (queue String).init mainLabels = some q ∧
    q.batch.map QueuedHandler.function =
      ["High priority handler\n", "Middle priority handler\n", "Low priority handler\n"] ∧
    ((q.executed ++ q.waiting).map QueuedHandler.ticket).Perm (List.range q.added) ∧
      q.batch.Pairwise fun a b => b.priority ≤ a.priority := by
  have hkeeps : (queue String).RunMeets KeepsTop (queue String).init mainLabels := by decide
  obtain ⟨q, hrun⟩ : ∃ q, (queue String).run (queue String).init mainLabels = some q := ⟨_, rfl⟩
  refine ⟨q, hrun, ?_, (executed_once_iff hrun).2 hkeeps⟩
  cases hrun
  rfl

-- a handler that adds one with a higher priority is executed twice, and the added one never
example : ((queue String).run (queue String).init
    [.add 0 "first" true, .executeAll, .execute, .add 1 "second" true, .pop 0, .execute,
      .pop 0]).map (fun q => (q.executed.map QueuedHandler.function, q.handlers)) =
    some (["first", "first"], []) := rfl

end Sundries.Invocation
