import Mathlib.Logic.Function.Basic
import Sundries.Machine

/-!
# `messaging`: handler chains

`receiver.wait().handle<M1>(f1)...handle<Mn>(fn)` makes a `dispatcher` and a chain of
`TemplateDispatcher`s, each pointing to the one before it through `_prev`.  All the work
is done by the destructors of these temporaries at the end of the expression: an object
that is not `_chained` pops messages and dispatches them along `_prev` until a handler
has been called or `close_queue` is thrown.  A `handle` chains the object it is called
on, and so does a move the object that is moved from.

A step is one construction, move or destruction, one pop, the test of one message by one
object of the chain, or a `send` of some thread.  Objects are named by the number of
their construction.  All objects of a chain have the same `_queue`, the receiver's.
-/
namespace Sundries.Messaging

abbrev Addr := Nat

/-- A `dispatcher`, or a `TemplateDispatcher` with its `_prev`, message type and `_f`. -/
inductive Obj (Ty F : Type) where
  | dispatcher (chained : Bool)
  | templateDispatcher (prev : Addr) (type : Ty) (f : F) (chained : Bool)
  deriving DecidableEq

/-- What the thread that evaluates the chain is at. -/
inductive Phase (Msg : Type) where
  /-- Evaluates the expression. -/
  | building
  /-- Destroys the temporaries, after the expression or while an exception leaves it. -/
  | destroying
  /-- In `wait_and_pop`, called by the destructor of `w`. -/
  | waiting (w : Addr)
  /-- The message popped by `w` is passed to `dispatch` of the object `a`. -/
  | dispatching (w a : Addr) (m : Msg)
  | ended
  /-- An object was used that does not exist. -/
  | fault
  deriving DecidableEq

/-- The objects, the temporaries still to be destroyed (the one constructed last first),
the object the expression denotes so far, and the receiver's `_queue`.  The other fields
keep account: whether `close_queue` was thrown, the handlers attached (the last one
first), the messages sent, those popped, each with the object that popped it, and the
calls of handlers. -/
structure State (Ty F Msg : Type) where
  objs : Addr → Option (Obj Ty F)
  allocated : Nat
  temps : List Addr
  cur : Addr
  phase : Phase Msg
  queue : List Msg
  thrown : Bool
  attached : List (Ty × F)
  sent : List Msg
  popped : List (Addr × Msg)
  calls : List (F × Msg)

/-- The steps; `move keep` moves the object denoted so far into a new one, and the object
moved from is destroyed at once or, with `keep`, with the other temporaries. -/
inductive Label (Ty F Msg : Type) where
  | send (m : Msg)
  | handle (type : Ty) (f : F)
  | move (keep : Bool)
  | endExpr
  | next
  deriving DecidableEq

variable {Ty F Msg : Type}

namespace Obj

def chained : Obj Ty F → Bool
  | dispatcher c => c
  | templateDispatcher _ _ _ c => c

/-- `_chained = true`. -/
def chain : Obj Ty F → Obj Ty F
  | dispatcher _ => dispatcher true
  | templateDispatcher prev type f _ => templateDispatcher prev type f true

end Obj

namespace State

def goto (s : State Ty F Msg) (phase : Phase Msg) : State Ty F Msg := { s with phase := phase }

/-- A new object, which the expression now denotes. -/
def construct (s : State Ty F Msg) (o : Obj Ty F) : State Ty F Msg :=
  { s with
    objs := Function.update s.objs s.allocated (some o)
    allocated := s.allocated + 1
    temps := s.allocated :: s.temps
    cur := s.allocated }

/-- `a->_chained = true`. -/
def setChained (s : State Ty F Msg) (a : Addr) : State Ty F Msg :=
  match s.objs a with
  | some o => { s with objs := Function.update s.objs a (some o.chain) }
  | none => s.goto .fault

/-- The object `a` is gone. -/
def remove (s : State Ty F Msg) (a : Addr) : State Ty F Msg :=
  { s with objs := Function.update s.objs a none, temps := s.temps.erase a }

/-- The destructor of `a`. -/
def destroy (s : State Ty F Msg) (a : Addr) : State Ty F Msg :=
  match s.objs a with
  | some o => if o.chained then s.remove a else s.goto (.waiting a)
  | none => s.goto .fault

/-- `handle`. -/
def handle (s : State Ty F Msg) (type : Ty) (f : F) : State Ty F Msg :=
  { (s.construct (.templateDispatcher s.cur type f false)).setChained s.cur with
    attached := (type, f) :: s.attached }

/-- The move constructor. -/
def moveCur (s : State Ty F Msg) (keep : Bool) : State Ty F Msg :=
  match s.objs s.cur with
  | some o =>
    let s' := (s.construct o).setChained s.cur
    if keep then s' else s'.destroy s.cur
  | none => s.goto .fault

variable [DecidableEq Ty] (typeOf : Msg → Ty) (closeQueue : Ty)

/-- `dispatch` of the object `a`, for a message that the destructor of `w` has popped. -/
def dispatch (s : State Ty F Msg) (w a : Addr) (m : Msg) : State Ty F Msg :=
  match s.objs a with
  | some (.templateDispatcher prev type f _) =>
    if typeOf m = type then
      ({ s with calls := s.calls ++ [(f, m)] }.remove w).goto .destroying
    else s.goto (.dispatching w prev m)
  | some (.dispatcher _) =>
    if typeOf m = closeQueue then ({ s with thrown := true }.remove w).goto .destroying
    else s.goto (.waiting w)
  | none => s.goto .fault

/-- A step of the destructors. -/
def next (s : State Ty F Msg) : Option (State Ty F Msg) :=
  match s.phase with
  | .destroying =>
    match s.temps with
    | a :: _ => some (s.destroy a)
    | [] => some (s.goto .ended)
  | .waiting w =>
    match s.queue with
    | m :: q =>
      some ({ s with queue := q, popped := s.popped ++ [(w, m)] }.goto (.dispatching w w m))
    | [] => none
  | .dispatching w a m => some (s.dispatch typeOf closeQueue w a m)
  | .building | .ended | .fault => none

end State

variable [DecidableEq Ty] (typeOf : Msg → Ty) (closeQueue : Ty)

/-- A receiver whose `wait` has been called, and its senders. -/
def machine : Machine (State Ty F Msg) (Label Ty F Msg) where
  init :=
    { objs := Function.update (fun _ => none) 0 (some (.dispatcher false))
      allocated := 1
      temps := [0]
      cur := 0
      phase := .building
      queue := []
      thrown := false
      attached := []
      sent := []
      popped := []
      calls := [] }
  step s
    | .send m => some { s with queue := s.queue ++ [m], sent := s.sent ++ [m] }
    | .handle type f =>
      match s.phase with
      | .building => some (s.handle type f)
      | _ => none
    | .move keep =>
      match s.phase with
      | .building => some (s.moveCur keep)
      | _ => none
    | .endExpr =>
      match s.phase with
      | .building => some (s.goto .destroying)
      | _ => none
    | .next => s.next typeOf closeQueue

/-- The handler attached last for messages of type `type`; `attached` are the handlers, the
last one first. -/
def lastFor (attached : List (Ty × F)) (type : Ty) : Option F :=
  (attached.find? fun h => h.1 = type).map Prod.snd

theorem lastFor_append {asked left : List (Ty × F)} {type : Ty}
    (h : ∀ x ∈ asked, type ≠ x.1) : lastFor (asked ++ left) type = lastFor left type := by
  have hnone : asked.find? (fun x => x.1 = type) = none :=
    List.find?_eq_none.mpr fun x hx => by simpa using (h x hx).symm
  rw [lastFor, List.find?_append, hnone, Option.none_or]
  rfl

theorem lastFor_cons_self {x : Ty × F} {left : List (Ty × F)} {type : Ty} (h : type = x.1) :
    lastFor (x :: left) type = some x.2 := by
  simp [lastFor, h]

/-! ## The chain of objects -/

section Objects
omit [DecidableEq Ty]

/-- From the object `a` the pointers `_prev` lead through objects with the handlers `l` to
the `dispatcher`. -/
def Chain (objs : Addr → Option (Obj Ty F)) : Addr → List (Ty × F) → Prop
  | a, [] => ∃ c, objs a = some (.dispatcher c)
  | a, h :: l =>
    ∃ prev c, prev < a ∧ objs a = some (.templateDispatcher prev h.1 h.2 c) ∧ Chain objs prev l

/-- `_chained` of the object at `a`, if there is one. -/
def flag (objs : Addr → Option (Obj Ty F)) (a : Addr) : Option Bool := (objs a).map Obj.chained

/-- **The frame rule**: newer objects do not matter, nor does `_chained`. -/
theorem Chain.congr {objs objs' : Addr → Option (Obj Ty F)} {a : Addr} {l : List (Ty × F)}
    (h : Chain objs a l) (hag : ∀ b ≤ a, objs' b = objs b ∨ objs' b = (objs b).map Obj.chain) :
    Chain objs' a l := by
  induction l generalizing a with
  | nil =>
    obtain ⟨c, hc⟩ := h
    rcases hag a (Nat.le_refl a) with hsame | hchain
    · exact ⟨c, hsame.trans hc⟩
    · exact ⟨true, by rw [hchain, hc]; rfl⟩
  | cons x l ih =>
    obtain ⟨prev, c, hlt, hc, hrest⟩ := h
    have htail := ih hrest fun b hb => hag b (Nat.le_trans hb (Nat.le_of_lt hlt))
    rcases hag a (Nat.le_refl a) with hsame | hchain
    · exact ⟨prev, c, hlt, hsame.trans hc, htail⟩
    · exact ⟨prev, true, hlt, by rw [hchain, hc]; rfl, htail⟩

theorem chained_chain (o : Obj Ty F) : o.chain.chained = true := by
  cases o <;> rfl

variable {s : State Ty F Msg} {a : Addr} {o : Obj Ty F}

theorem setChained_eq (h : s.objs a = some o) :
    s.setChained a = { s with objs := Function.update s.objs a (some o.chain) } := by
  simp [State.setChained, h]

theorem destroy_chained (h : flag s.objs a = some true) : s.destroy a = s.remove a := by
  obtain ⟨o, ho, hc⟩ := Option.map_eq_some_iff.mp h
  simp [State.destroy, ho, hc]

theorem destroy_unchained (h : flag s.objs a = some false) :
    s.destroy a = s.goto (.waiting a) := by
  obtain ⟨o, ho, hc⟩ := Option.map_eq_some_iff.mp h
  simp [State.destroy, ho, hc]

end Objects

/-! ## One waiter -/

/-- The expression denotes the end of a chain with the handlers attached.  It was
constructed last, it alone is not `_chained`, and no object has a name to come. -/
structure Ready (s : State Ty F Msg) : Prop where
  fresh : ∀ a, s.allocated ≤ a → s.objs a = none
  chain : Chain s.objs s.cur s.attached
  waiter : flag s.objs s.cur = some false
  temps : ∃ rest, s.temps = s.cur :: rest ∧ rest.Nodup ∧ ∀ a ∈ rest, flag s.objs a = some true

namespace Ready
omit [DecidableEq Ty]
variable {s : State Ty F Msg}

theorem cur_lt (h : Ready s) : s.cur < s.allocated := by
  by_contra hle
  have hw := h.waiter
  rw [flag, h.fresh s.cur (Nat.le_of_not_lt hle)] at hw
  cases hw

theorem cur_not_mem (h : Ready s) {rest : List Addr}
    (hrest : ∀ a ∈ rest, flag s.objs a = some true) : s.cur ∉ rest := by
  intro hmem
  have hflag := hrest s.cur hmem
  rw [h.waiter] at hflag
  cases hflag

theorem exists_cur (h : Ready s) : ∃ o, s.objs s.cur = some o ∧ o.chained = false :=
  Option.map_eq_some_iff.mp h.waiter

/-- The temporaries behind the last one are chained, older than what comes next, and not the
last one. -/
theorem ne_of_mem_rest (h : Ready s) {rest : List Addr}
    (hrest : ∀ a ∈ rest, flag s.objs a = some true) {a : Addr} (ha : a ∈ rest) :
    a ≠ s.cur ∧ a ≠ s.allocated := by
  refine ⟨ne_of_mem_of_not_mem ha (h.cur_not_mem hrest), fun he => ?_⟩
  have hflag := hrest a ha
  rw [he, flag, h.fresh _ (Nat.le_refl _)] at hflag
  cases hflag

/-- The expression is extended by the object `o'`, which is not chained, and the object it
denoted before becomes `x`. -/
theorem extend (h : Ready s) {o' : Obj Ty F} {x : Option (Obj Ty F)} {attached : List (Ty × F)}
    {rest : List Addr} (hflag : o'.chained = false) (hnodup : rest.Nodup)
    (hrest : ∀ a ∈ rest, a ≠ s.allocated ∧ flag (Function.update s.objs s.cur x) a = some true)
    (hchain : Chain (Function.update (Function.update s.objs s.allocated (some o')) s.cur x)
      s.allocated attached) :
    Ready { s with
      objs := Function.update (Function.update s.objs s.allocated (some o')) s.cur x
      allocated := s.allocated + 1
      temps := s.allocated :: rest
      cur := s.allocated
      attached := attached } := by
  have hlt := h.cur_lt
  refine ⟨fun a ha => ?_, hchain, ?_, rest, rfl, hnodup, fun a ha => ?_⟩
  · have hnew : a ≠ s.allocated := fun he => Nat.not_succ_le_self _ (he ▸ ha)
    have hold : a ≠ s.cur := fun he => Nat.lt_irrefl _ (Nat.lt_trans hlt (he ▸ ha))
    show Function.update (Function.update s.objs s.allocated (some o')) s.cur x a = none
    rw [Function.update_of_ne hold, Function.update_of_ne hnew]
    exact h.fresh a (Nat.le_of_succ_le ha)
  · simp [flag, Function.update_of_ne (Nat.ne_of_gt hlt), hflag]
  · obtain ⟨hnew, hchained⟩ := hrest a ha
    by_cases hc : a = s.cur
    · subst a
      simpa [flag] using hchained
    · simpa [flag, hc, hnew] using hchained

theorem handle_eq (h : Ready s) {o : Obj Ty F} (ho : s.objs s.cur = some o) (type : Ty) (f : F) :
    s.handle type f = { s with
      objs := Function.update (Function.update s.objs s.allocated
        (some (.templateDispatcher s.cur type f false))) s.cur (some o.chain)
      allocated := s.allocated + 1
      temps := s.allocated :: s.temps
      cur := s.allocated
      attached := (type, f) :: s.attached } := by
  have hcur : (s.construct (.templateDispatcher s.cur type f false)).objs s.cur = some o :=
    (Function.update_of_ne (Nat.ne_of_lt h.cur_lt) ..).trans ho
  rw [State.handle, setChained_eq hcur]
  rfl

theorem handle (h : Ready s) (type : Ty) (f : F) : Ready (s.handle type f) := by
  obtain ⟨o, ho, -⟩ := h.exists_cur
  have hlt := h.cur_lt
  obtain ⟨rest, htemps, hnodup, hrest⟩ := h.temps
  rw [h.handle_eq ho, htemps]
  refine h.extend rfl (List.nodup_cons.mpr ⟨h.cur_not_mem hrest, hnodup⟩) (fun a ha => ?_)
    ⟨s.cur, false, hlt, ?_, h.chain.congr fun b hb => ?_⟩
  · rcases List.mem_cons.mp ha with rfl | hmem
    · exact ⟨Nat.ne_of_lt hlt, by simp [flag, chained_chain]⟩
    · obtain ⟨hc, hnew⟩ := h.ne_of_mem_rest hrest hmem
      exact ⟨hnew, by simpa [flag, hc] using hrest a hmem⟩
  · rw [Function.update_of_ne (Nat.ne_of_gt hlt), Function.update_self]
  · have hnew : b ≠ s.allocated := Nat.ne_of_lt (Nat.lt_of_le_of_lt hb hlt)
    by_cases hbc : b = s.cur
    · subst b
      exact Or.inr (by rw [Function.update_self, ho]; rfl)
    · exact Or.inl (by rw [Function.update_of_ne hbc, Function.update_of_ne hnew])

/-- The chain from the last object leads on from a copy of it, whatever becomes of it. -/
theorem chain_copy (h : Ready s) {o : Obj Ty F} (ho : s.objs s.cur = some o)
    (x : Option (Obj Ty F)) :
    Chain (Function.update (Function.update s.objs s.allocated (some o)) s.cur x) s.allocated
      s.attached := by
  have hlt := h.cur_lt
  have hnew : Function.update (Function.update s.objs s.allocated (some o)) s.cur x s.allocated =
      some o := by
    rw [Function.update_of_ne (Nat.ne_of_gt hlt), Function.update_self]
  have hchain := h.chain
  cases hattached : s.attached with
  | nil =>
    rw [hattached] at hchain
    obtain ⟨c, hc⟩ := hchain
    exact ⟨c, hnew.trans (ho.symm.trans hc)⟩
  | cons e l =>
    rw [hattached] at hchain
    obtain ⟨prev, c, hprev, hc, hrest⟩ := hchain
    refine ⟨prev, c, Nat.lt_trans hprev hlt, hnew.trans (ho.symm.trans hc),
      hrest.congr fun b hb => Or.inl ?_⟩
    have hbc : b < s.cur := Nat.lt_of_le_of_lt hb hprev
    rw [Function.update_of_ne (Nat.ne_of_lt hbc),
      Function.update_of_ne (Nat.ne_of_lt (Nat.lt_trans hbc hlt))]

/-- The object moved from is chained, so that its destructor does nothing. -/
theorem moveCur_eq (h : Ready s) {o : Obj Ty F} (ho : s.objs s.cur = some o) (keep : Bool) :
    s.moveCur keep = { s with
      objs := Function.update (Function.update s.objs s.allocated (some o)) s.cur
        (if keep then some o.chain else none)
      allocated := s.allocated + 1
      temps := s.allocated :: if keep then s.temps else s.temps.tail
      cur := s.allocated } := by
  have hlt := h.cur_lt
  obtain ⟨rest, htemps, -, -⟩ := h.temps
  have hcur : (s.construct o).objs s.cur = some o :=
    (Function.update_of_ne (Nat.ne_of_lt hlt) ..).trans ho
  cases keep with
  | true =>
    simp only [State.moveCur, ho, setChained_eq hcur]
    rfl
  | false =>
    have hgone : flag ({ s.construct o with
        objs := Function.update (s.construct o).objs s.cur (some o.chain) } :
        State Ty F Msg).objs s.cur = some true := by
      simp [flag, chained_chain]
    have herase : (s.allocated :: s.temps).erase s.cur = s.allocated :: s.temps.tail := by
      rw [htemps, List.erase_cons_tail (by simp [Nat.ne_of_gt hlt]), List.erase_cons_head]
      rfl
    simp only [State.moveCur, ho, setChained_eq hcur]
    rw [if_neg Bool.false_ne_true, destroy_chained hgone]
    simp only [State.remove, State.construct, herase, Function.update_idem]
    rfl

theorem moveCur (h : Ready s) (keep : Bool) : Ready (s.moveCur keep) := by
  obtain ⟨o, ho, hflag⟩ := h.exists_cur
  obtain ⟨rest, htemps, hnodup, hrest⟩ := h.temps
  have hold : ∀ x : Option (Obj Ty F), ∀ a ∈ rest,
      a ≠ s.allocated ∧ flag (Function.update s.objs s.cur x) a = some true := by
    intro x a ha
    obtain ⟨hc, hnew⟩ := h.ne_of_mem_rest hrest ha
    exact ⟨hnew, by simpa [flag, hc] using hrest a ha⟩
  rw [h.moveCur_eq ho, htemps]
  cases keep with
  | true =>
    refine h.extend hflag (List.nodup_cons.mpr ⟨h.cur_not_mem hrest, hnodup⟩) (fun a ha => ?_)
      (h.chain_copy ho _)
    rcases List.mem_cons.mp ha with rfl | hmem
    · exact ⟨Nat.ne_of_lt h.cur_lt, by simp [flag, chained_chain]⟩
    · exact hold _ a hmem
  | false => exact h.extend hflag hnodup (hold none) (h.chain_copy ho _)

/-- Only the objects and the handlers matter. -/
theorem congr (h : Ready s) {s' : State Ty F Msg} (hobjs : s'.objs = s.objs)
    (hallocated : s'.allocated = s.allocated) (htemps : s'.temps = s.temps) (hcur : s'.cur = s.cur)
    (hattached : s'.attached = s.attached) : Ready s' where
  fresh := by rw [hobjs, hallocated]; exact h.fresh
  chain := by rw [hobjs, hcur, hattached]; exact h.chain
  waiter := by rw [hobjs, hcur]; exact h.waiter
  temps := by rw [hobjs, hcur, htemps]; exact h.temps

/-- Once the last object is gone, all temporaries are chained. -/
theorem remove_cur (h : Ready s) :
    (s.remove s.cur).temps.Nodup ∧
      ∀ a ∈ (s.remove s.cur).temps, flag (s.remove s.cur).objs a = some true := by
  obtain ⟨rest, htemps, hnodup, hrest⟩ := h.temps
  have herase : (s.remove s.cur).temps = rest := by
    simp [State.remove, htemps]
  rw [herase]
  refine ⟨hnodup, fun a ha => ?_⟩
  have hne := (h.ne_of_mem_rest hrest ha).1
  simpa [flag, State.remove, hne] using hrest a ha

end Ready

/-! ## What a run does -/

/-- No handler is attached for the message, and it is no `close_queue`. -/
def Ignored (s : State Ty F Msg) (m : Msg) : Prop :=
  lastFor s.attached (typeOf m) = none ∧ typeOf m ≠ closeQueue

/-- The chain has done its work: after the messages it ignores it has popped one more, and
called the handler attached last for its type, or thrown. -/
def Done (s : State Ty F Msg) : Prop :=
  ∃ skipped m, s.popped = skipped ++ [(s.cur, m)] ∧
    (∀ e ∈ skipped, Ignored typeOf closeQueue s e.2) ∧
    ((s.thrown = false ∧ ∃ f, lastFor s.attached (typeOf m) = some f ∧ s.calls = [(f, m)]) ∨
      (s.thrown = true ∧ typeOf m = closeQueue ∧ lastFor s.attached closeQueue = none ∧
        s.calls = []))

/-- Nothing has been called or thrown. -/
def Quiet (s : State Ty F Msg) : Prop := s.calls = [] ∧ s.thrown = false

/-- Every temporary is chained. -/
def AllChained (s : State Ty F Msg) : Prop :=
  s.temps.Nodup ∧ ∀ a ∈ s.temps, flag s.objs a = some true

/-- What holds at each point of the evaluation. -/
def AtPhase (s : State Ty F Msg) : Prop :=
  match s.phase with
  | .building => Ready s ∧ Quiet s ∧ s.popped = []
  | .destroying =>
    (Ready s ∧ Quiet s ∧ s.popped = []) ∨ (AllChained s ∧ Done typeOf closeQueue s)
  | .waiting w =>
    w = s.cur ∧ Ready s ∧ Quiet s ∧ ∀ e ∈ s.popped, Ignored typeOf closeQueue s e.2
  | .dispatching w a m =>
    w = s.cur ∧ Ready s ∧ Quiet s ∧
      (∃ skipped, s.popped = skipped ++ [(s.cur, m)] ∧
        ∀ e ∈ skipped, Ignored typeOf closeQueue s e.2) ∧
      ∃ asked left, s.attached = asked ++ left ∧ Chain s.objs a left ∧
        ∀ h ∈ asked, typeOf m ≠ h.1
  | .ended => Done typeOf closeQueue s
  | .fault => False

/-- The invariant: each message sent has been popped, in order, or waits in the queue, and
only the object at the end of the chain has popped. -/
structure Inv (s : State Ty F Msg) : Prop where
  order : s.sent = s.popped.map Prod.snd ++ s.queue
  waiter : ∀ e ∈ s.popped, e.1 = s.cur
  phase : AtPhase typeOf closeQueue s

namespace Inv
variable {typeOf closeQueue} {s s' : State Ty F Msg}

theorem init : Inv typeOf closeQueue
    (machine typeOf closeQueue : Machine (State Ty F Msg) _).init where
  order := rfl
  waiter e he := absurd he List.not_mem_nil
  phase := by
    refine ⟨⟨fun a ha => ?_, ⟨false, rfl⟩, rfl, [], rfl, List.nodup_nil, fun a ha => ?_⟩,
      ⟨rfl, rfl⟩, rfl⟩
    · have hne : a ≠ 0 := Nat.ne_of_gt ha
      simp [machine, hne]
    · cases ha

theorem building (h : Inv typeOf closeQueue s) (hp : s.phase = .building) :
    Ready s ∧ Quiet s ∧ s.popped = [] := by
  have hphase := h.phase
  unfold AtPhase at hphase
  rwa [hp] at hphase

theorem ofBuilding (hp : s.phase = .building) (order : s.sent = s.popped.map Prod.snd ++ s.queue)
    (hpopped : s.popped = []) (hready : Ready s) (hquiet : Quiet s) : Inv typeOf closeQueue s where
  order := order
  waiter e he := by
    rw [hpopped] at he
    cases he
  phase := by
    unfold AtPhase
    rw [hp]
    exact ⟨hready, hquiet, hpopped⟩

/-- A message is sent. -/
theorem send (h : Inv typeOf closeQueue s) (m : Msg) :
    Inv typeOf closeQueue { s with queue := s.queue ++ [m], sent := s.sent ++ [m] } where
  order := by
    show s.sent ++ [m] = s.popped.map Prod.snd ++ (s.queue ++ [m])
    rw [h.order, List.append_assoc]
  waiter := h.waiter
  phase := by
    have hphase := h.phase
    unfold AtPhase at hphase ⊢
    cases hp : s.phase with
    | building =>
      simp only [hp] at hphase ⊢
      exact ⟨hphase.1.congr rfl rfl rfl rfl rfl, hphase.2⟩
    | destroying =>
      simp only [hp] at hphase ⊢
      exact hphase.imp_left fun hready => ⟨hready.1.congr rfl rfl rfl rfl rfl, hready.2⟩
    | waiting w =>
      simp only [hp] at hphase ⊢
      exact ⟨hphase.1, hphase.2.1.congr rfl rfl rfl rfl rfl, hphase.2.2⟩
    | dispatching w a m' =>
      simp only [hp] at hphase ⊢
      exact ⟨hphase.1, hphase.2.1.congr rfl rfl rfl rfl rfl, hphase.2.2⟩
    | ended =>
      simp only [hp] at hphase ⊢
      exact hphase
    | fault =>
      simp only [hp] at hphase

/-- A pop, or a destructor. -/
theorem next (h : Inv typeOf closeQueue s) (hstep : s.next typeOf closeQueue = some s') :
    Inv typeOf closeQueue s' := by
  obtain ⟨horder, hwaiter, hphase⟩ := h
  unfold AtPhase at hphase
  unfold State.next at hstep
  cases hp : s.phase with
  | building | ended | fault => simp [hp] at hstep
  | destroying =>
    simp only [hp] at hphase hstep
    rcases hphase with ⟨hready, hquiet, hpopped⟩ | ⟨hchained, hdone⟩
    · -- the last object of the chain goes first, and waits
      obtain ⟨rest, htemps, -, -⟩ := hready.temps
      simp only [htemps, Option.some.injEq] at hstep
      subst hstep
      rw [destroy_unchained hready.waiter]
      refine ⟨horder, hwaiter, rfl, hready.congr rfl rfl rfl rfl rfl, hquiet, fun e he => ?_⟩
      simp [State.goto, hpopped] at he
    · cases htemps : s.temps with
      | nil =>
        simp only [htemps, Option.some.injEq] at hstep
        subst hstep
        exact ⟨horder, hwaiter, hdone⟩
      | cons a rest =>
        simp only [htemps, Option.some.injEq] at hstep
        subst hstep
        obtain ⟨hnodup, hflags⟩ := hchained
        rw [htemps] at hnodup hflags
        rw [destroy_chained (hflags a List.mem_cons_self)]
        refine ⟨horder, hwaiter, ?_⟩
        unfold AtPhase
        simp only [State.remove, hp]
        refine Or.inr ⟨⟨?_, fun b hb => ?_⟩, hdone⟩
        · show (s.temps.erase a).Nodup
          rw [htemps, List.erase_cons_head]
          exact (List.nodup_cons.mp hnodup).2
        · have hb : b ∈ s.temps.erase a := hb
          rw [htemps, List.erase_cons_head] at hb
          have hba : b ≠ a := ne_of_mem_of_not_mem hb (List.nodup_cons.mp hnodup).1
          simpa [flag, hba] using hflags b (List.mem_cons_of_mem a hb)
  | waiting w =>
    simp only [hp] at hphase hstep
    obtain ⟨rfl, hready, hquiet, hignored⟩ := hphase
    cases hq : s.queue with
    | nil => simp [hq] at hstep
    | cons m q =>
      simp only [hq, Option.some.injEq] at hstep
      subst hstep
      -- a message is popped, and no handler has been asked yet
      refine ⟨?_, fun e he => ?_, rfl, hready.congr rfl rfl rfl rfl rfl, hquiet,
        ⟨s.popped, rfl, hignored⟩, [], s.attached, rfl, hready.chain, nofun⟩
      · show s.sent = (s.popped ++ [(s.cur, m)]).map Prod.snd ++ q
        simp [horder, hq]
      · rcases List.mem_append.mp he with hold | hnew
        · exact hwaiter e hold
        · rw [List.mem_singleton.mp hnew]
          rfl
  | dispatching w a m =>
    simp only [hp, Option.some.injEq] at hphase hstep
    subst hstep
    obtain ⟨rfl, hready, hquiet, ⟨skipped, hpopped, hignored⟩, asked, left, hattached, hchain,
      hasked⟩ := hphase
    have hlast : lastFor s.attached (typeOf m) = lastFor left (typeOf m) := by
      rw [hattached, lastFor_append hasked]
    cases left with
    | nil =>
      -- all have been asked: a `close_queue` ends the wait, another message is ignored
      obtain ⟨c, hc⟩ := hchain
      by_cases hclose : typeOf m = closeQueue
      · simp only [State.dispatch, hc, if_pos hclose]
        refine ⟨horder, hwaiter, Or.inr ⟨?_, skipped, m, hpopped, hignored, Or.inr ?_⟩⟩
        · exact hready.remove_cur
        · exact ⟨rfl, hclose, hclose ▸ hlast, hquiet.1⟩
      · simp only [State.dispatch, hc, if_neg hclose]
        refine ⟨horder, hwaiter, rfl, hready.congr rfl rfl rfl rfl rfl, hquiet, fun e he => ?_⟩
        have he : e ∈ s.popped := he
        rw [hpopped] at he
        rcases List.mem_append.mp he with hold | hnew
        · exact hignored e hold
        · rw [List.mem_singleton.mp hnew]
          exact ⟨hlast, hclose⟩
    | cons x left =>
      -- the handler attached last is asked first
      obtain ⟨prev, c, hlt, hx, hrest⟩ := hchain
      by_cases htype : typeOf m = x.1
      · simp only [State.dispatch, hx, if_pos htype]
        refine ⟨horder, hwaiter, Or.inr ⟨?_, skipped, m, hpopped, hignored, Or.inl ?_⟩⟩
        · exact hready.remove_cur
        · refine ⟨hquiet.2, x.2, hlast.trans (lastFor_cons_self htype), ?_⟩
          show s.calls ++ [(x.2, m)] = [(x.2, m)]
          rw [hquiet.1, List.nil_append]
      · simp only [State.dispatch, hx, if_neg htype]
        refine ⟨horder, hwaiter, rfl, hready.congr rfl rfl rfl rfl rfl, hquiet,
          ⟨skipped, hpopped, hignored⟩, asked ++ [x], left, ?_, hrest, fun y hy => ?_⟩
        · show s.attached = _
          rw [hattached, List.append_assoc]
          rfl
        · rcases List.mem_append.mp hy with hold | hnew
          · exact hasked y hold
          · rwa [List.mem_singleton.mp hnew]

theorem step (h : Inv typeOf closeQueue s) {l : Label Ty F Msg}
    (hstep : (machine typeOf closeQueue).step s l = some s') : Inv typeOf closeQueue s' := by
  cases l with
  | send m =>
    cases hstep
    exact h.send m
  | next => exact h.next hstep
  | handle type f =>
    simp only [machine] at hstep
    split at hstep
    · next hp =>
      cases hstep
      obtain ⟨hready, hquiet, hpopped⟩ := h.building hp
      obtain ⟨o, ho, -⟩ := hready.exists_cur
      have hready' := hready.handle type f
      rw [hready.handle_eq ho] at hready' ⊢
      exact .ofBuilding hp h.order hpopped hready' hquiet
    · cases hstep
  | move keep =>
    simp only [machine] at hstep
    split at hstep
    · next hp =>
      cases hstep
      obtain ⟨hready, hquiet, hpopped⟩ := h.building hp
      obtain ⟨o, ho, -⟩ := hready.exists_cur
      have hready' := hready.moveCur keep
      rw [hready.moveCur_eq ho] at hready' ⊢
      exact .ofBuilding hp h.order hpopped hready' hquiet
    · cases hstep
  | endExpr =>
    simp only [machine] at hstep
    split at hstep
    · next hp =>
      cases hstep
      obtain ⟨hready, hquiet, hpopped⟩ := h.building hp
      exact ⟨h.order, h.waiter, Or.inl ⟨hready.congr rfl rfl rfl rfl rfl, hquiet, hpopped⟩⟩
    · cases hstep

end Inv

theorem reachable_inv {s : State Ty F Msg} (h : (machine typeOf closeQueue).Reachable s) :
    Inv typeOf closeQueue s :=
  h.invariant Inv.init fun _ _ _ hs hstep => hs.step hstep

/-! ## The destructors come to an end -/

/-- How many steps of the destructors there can be before the queue is empty. -/
def weight (s : State Ty F Msg) : ℕ :=
  let after := s.queue.length * (s.cur + 2) + s.temps.length + 2
  match s.phase with
  | .destroying => if s.popped.isEmpty then after + 1 else s.temps.length + 1
  | .waiting _ => after
  | .dispatching _ a _ => after + a + 1
  | .building | .ended | .fault => 0

variable {typeOf closeQueue}

theorem Inv.weight_lt {s s' : State Ty F Msg} (h : Inv typeOf closeQueue s)
    (hstep : s.next typeOf closeQueue = some s') : weight s' < weight s := by
  obtain ⟨-, -, hphase⟩ := h
  unfold AtPhase at hphase
  unfold State.next at hstep
  cases hp : s.phase with
  | building | ended | fault => simp [hp] at hstep
  | destroying =>
    simp only [hp] at hphase hstep
    rcases hphase with ⟨hready, hquiet, hpopped⟩ | ⟨hchained, skipped, m, hpopped, -⟩
    · obtain ⟨rest, htemps, -, -⟩ := hready.temps
      simp only [htemps, Option.some.injEq] at hstep
      subst hstep
      rw [destroy_unchained hready.waiter]
      simp [weight, hp, hpopped, State.goto]
    · have hne : s.popped ≠ [] := by simp [hpopped]
      cases htemps : s.temps with
      | nil =>
        simp only [htemps, Option.some.injEq] at hstep
        subst hstep
        simp [weight, hp, hne, State.goto]
      | cons a rest =>
        simp only [htemps, Option.some.injEq] at hstep
        subst hstep
        rw [destroy_chained (hchained.2 a (htemps ▸ List.mem_cons_self))]
        simp [weight, hp, hne, State.remove, htemps]
  | waiting w =>
    simp only [hp] at hphase hstep
    obtain ⟨rfl, hready, -, -⟩ := hphase
    cases hq : s.queue with
    | nil => simp [hq] at hstep
    | cons m q =>
      simp only [hq, Option.some.injEq] at hstep
      subst hstep
      simp only [weight, hp, hq, State.goto, List.length_cons]
      -- one message less outweighs a walk along the whole chain
      have hmul : (q.length + 1) * (s.cur + 2) = q.length * (s.cur + 2) + (s.cur + 2) :=
        Nat.succ_mul ..
      omega
  | dispatching w a m =>
    simp only [hp, Option.some.injEq] at hphase hstep
    subst hstep
    obtain ⟨rfl, hready, -, ⟨skipped, hpopped, -⟩, asked, left, -, hchain, -⟩ := hphase
    have hne : s.popped ≠ [] := by simp [hpopped]
    have herase : (s.temps.erase s.cur).length ≤ s.temps.length := List.length_erase_le
    cases left with
    | nil =>
      obtain ⟨c, hc⟩ := hchain
      simp only [State.dispatch, hc]
      split
      · simp only [weight, hp, State.goto, State.remove, List.isEmpty_iff, hne, if_false]
        omega
      · simp only [weight, hp, State.goto]
        omega
    | cons x left =>
      obtain ⟨prev, c, hlt, hx, -⟩ := hchain
      simp only [State.dispatch, hx]
      split
      · simp only [weight, hp, State.goto, State.remove, List.isEmpty_iff, hne, if_false]
        omega
      · simp only [weight, hp, State.goto]
        exact Nat.add_lt_add_right (Nat.add_lt_add_left hlt _) 1

/-- After the expression the destructors always have a next step, except while they wait for
a message. -/
theorem Inv.ended_or_waiting {s : State Ty F Msg} (h : Inv typeOf closeQueue s)
    (hbuilt : s.phase ≠ .building) (hstuck : s.next typeOf closeQueue = none) :
    s.phase = .ended ∨ s.phase = .waiting s.cur ∧ s.queue = [] := by
  have hphase := h.phase
  unfold AtPhase at hphase
  unfold State.next at hstuck
  cases hp : s.phase with
  | building => exact absurd hp hbuilt
  | fault => simp only [hp] at hphase
  | ended => exact Or.inl rfl
  | dispatching w a m => simp [hp] at hstuck
  | destroying => cases htemps : s.temps <;> simp [hp, htemps] at hstuck
  | waiting w =>
    simp only [hp] at hphase
    refine Or.inr ⟨by rw [hphase.1], ?_⟩
    cases hq : s.queue with
    | nil => rfl
    | cons m q => simp [hp, hq] at hstuck

/-- The destructors do not go back to the expression. -/
theorem next_phase_ne_building {s s' : State Ty F Msg}
    (hstep : s.next typeOf closeQueue = some s') : s'.phase ≠ .building := by
  unfold State.next at hstep
  cases hp : s.phase with
  | building | ended | fault => simp [hp] at hstep
  | destroying =>
    cases htemps : s.temps with
    | nil =>
      simp only [hp, htemps, Option.some.injEq] at hstep
      simp [← hstep, State.goto]
    | cons a rest =>
      simp only [hp, htemps, Option.some.injEq] at hstep
      subst hstep
      unfold State.destroy
      split
      · split <;> simp [State.remove, State.goto, hp]
      · simp [State.goto]
  | waiting w =>
    cases hq : s.queue with
    | nil => simp [hp, hq] at hstep
    | cons m q =>
      simp only [hp, hq, Option.some.injEq] at hstep
      simp [← hstep, State.goto]
  | dispatching w a m =>
    simp only [hp, Option.some.injEq] at hstep
    subst hstep
    unfold State.dispatch
    split
    · split <;> simp [State.goto]
    · split <;> simp [State.goto]
    · simp [State.goto]

/-! ## One message, one handler -/

/-- The message a step sends. -/
def Label.message : Label Ty F Msg → Option Msg
  | .send m => some m
  | _ => none

/-- The handler a step attaches. -/
def Label.handler : Label Ty F Msg → Option (Ty × F)
  | .handle type f => some (type, f)
  | _ => none

/-- What was sent, which handlers were attached, and which object was constructed last. -/
structure Account (ls : List (Label Ty F Msg)) (s : State Ty F Msg) : Prop where
  sent : s.sent = ls.filterMap Label.message
  attached : s.attached = (ls.filterMap Label.handler).reverse
  last : s.cur + 1 = s.allocated

omit [DecidableEq Ty] in
theorem Account.congr {ls : List (Label Ty F Msg)} {s s' : State Ty F Msg} (h : Account ls s)
    (hsent : s'.sent = s.sent) (hattached : s'.attached = s.attached) (hcur : s'.cur = s.cur)
    (hallocated : s'.allocated = s.allocated) : Account ls s' :=
  ⟨hsent.trans h.sent, hattached.trans h.attached, by rw [hcur, hallocated]; exact h.last⟩

omit [DecidableEq Ty] in
theorem Account.setChained {ls : List (Label Ty F Msg)} {s : State Ty F Msg} (h : Account ls s)
    (a : Addr) : Account ls (s.setChained a) := by
  unfold State.setChained
  split <;> exact h.congr rfl rfl rfl rfl

omit [DecidableEq Ty] in
theorem Account.destroy {ls : List (Label Ty F Msg)} {s : State Ty F Msg} (h : Account ls s)
    (a : Addr) : Account ls (s.destroy a) := by
  unfold State.destroy
  split
  · split <;> exact h.congr rfl rfl rfl rfl
  · exact h.congr rfl rfl rfl rfl

theorem Account.next {ls : List (Label Ty F Msg)} {s s' : State Ty F Msg} (h : Account ls s)
    (hstep : s.next typeOf closeQueue = some s') : Account ls s' := by
  unfold State.next at hstep
  cases hp : s.phase with
  | building | ended | fault => simp [hp] at hstep
  | destroying =>
    cases htemps : s.temps with
    | nil =>
      simp only [hp, htemps, Option.some.injEq] at hstep
      subst hstep
      exact h.congr rfl rfl rfl rfl
    | cons a rest =>
      simp only [hp, htemps, Option.some.injEq] at hstep
      subst hstep
      exact h.destroy a
  | waiting w =>
    cases hq : s.queue with
    | nil => simp [hp, hq] at hstep
    | cons m q =>
      simp only [hp, hq, Option.some.injEq] at hstep
      subst hstep
      exact h.congr rfl rfl rfl rfl
  | dispatching w a m =>
    simp only [hp, Option.some.injEq] at hstep
    subst hstep
    unfold State.dispatch
    split
    · split <;> exact h.congr rfl rfl rfl rfl
    · split <;> exact h.congr rfl rfl rfl rfl
    · exact h.congr rfl rfl rfl rfl

omit [DecidableEq Ty] in
/-- A new object is the last one. -/
theorem Account.construct {ls : List (Label Ty F Msg)} {s : State Ty F Msg} (h : Account ls s)
    (o : Obj Ty F) : Account ls (s.construct o) :=
  ⟨h.sent, h.attached, rfl⟩

theorem Account.step {ls : List (Label Ty F Msg)} {s s' : State Ty F Msg} (h : Account ls s)
    {l : Label Ty F Msg} (hstep : (machine typeOf closeQueue).step s l = some s') :
    Account (ls ++ [l]) s' := by
  have hquiet : l.message = none → l.handler = none → Account (ls ++ [l]) s := by
    intro hm hh
    exact ⟨by simpa [hm] using h.sent, by simpa [hh] using h.attached, h.last⟩
  cases l with
  | send m =>
    cases hstep
    exact ⟨by simp [Label.message, h.sent], by
      show s.attached = _
      simp [Label.handler, h.attached], h.last⟩
  | next => exact (hquiet rfl rfl).next hstep
  | handle type f =>
    simp only [machine] at hstep
    split at hstep
    · cases hstep
      have hnew := (h.construct (.templateDispatcher s.cur type f false)).setChained s.cur
      refine ⟨hnew.sent.trans (by simp [Label.message]), ?_, hnew.last⟩
      show (type, f) :: s.attached = _
      simp [Label.handler, h.attached]
    · cases hstep
  | move keep =>
    simp only [machine] at hstep
    split at hstep
    · cases hstep
      unfold State.moveCur
      split
      · next o ho =>
        have hnew := ((hquiet rfl rfl).construct o).setChained s.cur
        cases keep with
        | true => exact hnew
        | false => exact hnew.destroy s.cur
      · exact (hquiet rfl rfl).congr rfl rfl rfl rfl
    · cases hstep
  | endExpr =>
    simp only [machine] at hstep
    split at hstep
    · cases hstep
      exact (hquiet rfl rfl).congr rfl rfl rfl rfl
    · cases hstep

theorem account_of_run {ls : List (Label Ty F Msg)} {s : State Ty F Msg}
    (h : (machine typeOf closeQueue).run (machine typeOf closeQueue).init ls = some s) :
    Account ls s :=
  Machine.run_induction _ ⟨rfl, rfl, rfl⟩ (fun _ _ _ _ hs hstep => hs.step hstep) h

/-- As long as the chain has not done its work, all it has popped are messages it ignores,
and perhaps one more that it is passing on. -/
theorem Inv.done_or_quiet {s : State Ty F Msg} (h : Inv typeOf closeQueue s) :
    Done typeOf closeQueue s ∨ Quiet s ∧ ∃ skipped,
      (∀ e ∈ skipped, Ignored typeOf closeQueue s e.2) ∧
        (s.popped = skipped ∨
          ∃ a m, s.phase = .dispatching s.cur a m ∧ s.popped = skipped ++ [(s.cur, m)]) := by
  have hphase := h.phase
  unfold AtPhase at hphase
  cases hp : s.phase with
  | building =>
    simp only [hp] at hphase
    exact Or.inr ⟨hphase.2.1, [], nofun, Or.inl hphase.2.2⟩
  | destroying =>
    simp only [hp] at hphase
    rcases hphase with ⟨-, hquiet, hpopped⟩ | ⟨-, hdone⟩
    · exact Or.inr ⟨hquiet, [], nofun, Or.inl hpopped⟩
    · exact Or.inl hdone
  | waiting w =>
    simp only [hp] at hphase
    exact Or.inr ⟨hphase.2.2.1, s.popped, hphase.2.2.2, Or.inl rfl⟩
  | dispatching w a m =>
    simp only [hp] at hphase
    obtain ⟨rfl, -, hquiet, ⟨skipped, hpopped, hignored⟩, -⟩ := hphase
    exact Or.inr ⟨hquiet, skipped, hignored, Or.inr ⟨a, m, rfl, hpopped⟩⟩
  | ended =>
    simp only [hp] at hphase
    exact Or.inl hphase
  | fault => simp only [hp] at hphase

/-- Without handlers all that ends the loop is `close_queue`. -/
theorem Done.thrown_of_nil {s : State Ty F Msg} (h : Done typeOf closeQueue s)
    (hnone : s.attached = []) : s.thrown = true := by
  obtain ⟨-, m, -, -, ⟨-, f, hf, -⟩ | ⟨hthrown, -⟩⟩ := h
  · rw [hnone] at hf
    cases hf
  · exact hthrown

/-- The destructors end, or wait at an empty queue. -/
theorem Inv.settles {s : State Ty F Msg} (h : Inv typeOf closeQueue s)
    (hbuilt : s.phase ≠ .building) :
    ∃ k r, (machine typeOf closeQueue).run s (List.replicate k .next) = some r ∧
      (r.phase = .ended ∨ r.phase = .waiting r.cur ∧ r.queue = []) := by
  obtain ⟨k, r, hrun, ⟨hr, hr'⟩, hstuck⟩ := Machine.exists_run_stuck
    (M := machine typeOf closeQueue) (l := .next)
    (P := fun u => Inv typeOf closeQueue u ∧ u.phase ≠ .building) weight
    (fun _ _ hu hstep => ⟨⟨hu.1.next hstep, next_phase_ne_building hstep⟩, hu.1.weight_lt hstep⟩)
    ⟨h, hbuilt⟩
  exact ⟨k, r, hrun, hr.ended_or_waiting hr' hstuck⟩

/-- **One message, one handler.**  In every run only the object constructed last has popped,
from the front and in order; nothing that is not there is used.  What it has popped before
the chain has done its work are messages it ignores.  Having ended, it has called the
handler attached last for the type of the one message popped after these, with that message,
or has thrown at a `close_queue` no handler is attached for; without handlers it has thrown.
After the expression the destructors always come to their end or to an empty queue. -/
theorem exactly_one_dispatch (ls : List (Label Ty F Msg)) {s : State Ty F Msg}
    (h : (machine typeOf closeQueue).run (machine typeOf closeQueue).init ls = some s) :
    Account ls s ∧ s.phase ≠ .fault ∧
      (∀ e ∈ s.popped, e.1 = s.cur) ∧ s.sent = s.popped.map Prod.snd ++ s.queue ∧
      (Done typeOf closeQueue s ∨ Quiet s ∧ ∃ skipped,
        (∀ e ∈ skipped, Ignored typeOf closeQueue s e.2) ∧
          (s.popped = skipped ∨
            ∃ a m, s.phase = .dispatching s.cur a m ∧ s.popped = skipped ++ [(s.cur, m)])) ∧
      (s.phase = .ended → Done typeOf closeQueue s) ∧
      (s.phase = .ended → s.attached = [] → s.thrown = true) ∧
      (s.phase ≠ .building →
        ∃ k r, (machine typeOf closeQueue).run s (List.replicate k .next) = some r ∧
          (r.phase = .ended ∨ r.phase = .waiting r.cur ∧ r.queue = [])) := by
  have hinv := reachable_inv typeOf closeQueue (Machine.reachable_of_run ls h)
  have hended : s.phase = .ended → Done typeOf closeQueue s := by
    intro hp
    have hphase := hinv.phase
    unfold AtPhase at hphase
    rwa [hp] at hphase
  refine ⟨account_of_run h, fun hp => ?_, hinv.waiter, hinv.order, hinv.done_or_quiet, hended,
    fun hp => (hended hp).thrown_of_nil, hinv.settles⟩
  have hphase := hinv.phase
  unfold AtPhase at hphase
  rwa [hp] at hphase

/-- Two handlers for the same type, and a move; of the messages `5`, `2`, `4` the first is
ignored and the second is given to the handler attached last. -/
theorem twoHandlers_exactly_one_dispatch :
    ∃ s : State ℕ Char ℕ,
      (machine (fun m : ℕ => m) 0).run (machine (fun m : ℕ => m) 0).init
        [.send 5, .handle 2 'f', .handle 2 'g', .move false, .send 2, .endExpr, .next, .next,
          .next, .next, .next, .next, .send 4, .next, .next, .next, .next] = some s ∧
      s.calls = [('g', 2)] ∧ s.queue = [4] ∧ Done (fun m : ℕ => m) 0 s := by
  have hrun : ∃ s : State ℕ Char ℕ,
      (machine (fun m : ℕ => m) 0).run (machine (fun m : ℕ => m) 0).init
        [.send 5, .handle 2 'f', .handle 2 'g', .move false, .send 2, .endExpr, .next, .next,
          .next, .next, .next, .next, .send 4, .next, .next, .next, .next] = some s ∧
      s.calls = [('g', 2)] ∧ s.queue = [4] ∧ s.phase = .ended := by
    exact ⟨_, rfl, rfl, rfl, rfl⟩
  obtain ⟨s, hs, hcalls, hqueue, hended⟩ := hrun
  exact ⟨s, hs, hcalls, hqueue, (exactly_one_dispatch _ hs).2.2.2.2.2.1 hended⟩

end Sundries.Messaging
