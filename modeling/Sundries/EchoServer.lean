import Mathlib.Data.List.Infix
import Sundries.Machine

/-!
# The echo servers

A `session` reads what the client has sent into `data_`, writes it back from there, and only then
reads again.  In `async_tcp_echo_server` a session deletes itself when an operation fails; in
`allocation` its handlers are kept in its `handler_memory`, a single block with `operator new` as
the reserve.  The bytes of `data_` that have never been read into are left out of it.
-/
namespace Sundries.Echo

/-- The operation that is under way; `write` with the ends of what is left to be written. -/
inductive Operation where
  | accept
  | read
  | write (start stop : ℕ)
  | ended
  deriving DecidableEq

/-- `received` and `sent` is all that has been read and written. -/
structure Session where
  operation : Operation
  data : List UInt8
  received : List UInt8
  sent : List UInt8
  deriving DecidableEq

/-- How an operation goes on. -/
inductive Label where
  | accepted
  | read (bytes : List UInt8)
  | wrote (n : ℕ)
  | failed

namespace Session

def new : Session := ⟨.accept, [], [], []⟩

/-- `start` -/
def start (s : Session) : Session := { s with operation := .read }

/-- `handle_read` without an error. -/
def handleRead (s : Session) (bytesTransferred : ℕ) : Session :=
  { s with operation := .write 0 bytesTransferred }

/-- `handle_write` without an error. -/
def handleWrite (s : Session) : Session := { s with operation := .read }

/-- `async_write` writes some bytes at a time. -/
def step (s : Session) : Label → Option Session
  | .accepted => if s.operation = .accept then some s.start else none
  | .read bytes =>
    if s.operation = .read ∧ 0 < bytes.length ∧ bytes.length ≤ 1024 then
      some (handleRead
        { s with
          data := bytes ++ s.data.drop bytes.length, received := s.received ++ bytes } bytes.length)
    else none
  | .wrote n =>
    match s.operation with
    | .write start stop =>
      if 0 < n ∧ start + n ≤ stop then
        let s := { s with sent := s.sent ++ ((s.data.take stop).drop start).take n }
        some (if start + n = stop then s.handleWrite
          else { s with operation := .write (start + n) stop })
      else none
    | _ => none
  | .failed => if s.operation = .ended then none else some { s with operation := .ended }

end Session

def session : Machine Session Label := ⟨.new, Session.step⟩

/-- **What a step does.** -/
inductive Session.Moves (s : Session) : Label → Session → Prop
  | accepted (hoperation : s.operation = .accept) :
      Moves s .accepted { s with operation := .read }
  | read {bytes : List UInt8} (hoperation : s.operation = .read) (hpos : 0 < bytes.length)
      (hle : bytes.length ≤ 1024) :
      Moves s (.read bytes)
        { s with
          operation := .write 0 bytes.length
          data := bytes ++ s.data.drop bytes.length
          received := s.received ++ bytes }
  | wroteAll {n start stop : ℕ} (hoperation : s.operation = .write start stop) (hpos : 0 < n)
      (hend : start + n = stop) :
      Moves s (.wrote n)
        { s with
          operation := .read, sent := s.sent ++ ((s.data.take stop).drop start).take n }
  | wroteSome {n start stop : ℕ} (hoperation : s.operation = .write start stop) (hpos : 0 < n)
      (hlt : start + n < stop) :
      Moves s (.wrote n)
        { s with
          operation := .write (start + n) stop
          sent := s.sent ++ ((s.data.take stop).drop start).take n }
  | failed (hoperation : s.operation ≠ .ended) : Moves s .failed { s with operation := .ended }

theorem Session.moves_of_step {s s' : Session} {l : Label} (hstep : s.step l = some s') :
    Session.Moves s l s' := by
  cases l with
  | accepted =>
    obtain ⟨hoperation, hstep⟩ := Option.ite_none_right_eq_some.mp hstep
    cases hstep
    exact .accepted hoperation
  | read bytes =>
    obtain ⟨⟨hoperation, hpos, hle⟩, hstep⟩ := Option.ite_none_right_eq_some.mp hstep
    cases hstep
    exact .read hoperation hpos hle
  | wrote n =>
    rw [Session.step] at hstep
    split at hstep
    · rename_i start stop hoperation
      obtain ⟨⟨hpos, hle⟩, hstep⟩ := Option.ite_none_right_eq_some.mp hstep
      split at hstep
      · rename_i hend
        cases hstep
        exact .wroteAll hoperation hpos hend
      · rename_i hend
        cases hstep
        exact .wroteSome hoperation hpos (Nat.lt_of_le_of_ne hle hend)
    · cases hstep
  | failed =>
    obtain ⟨hoperation, hstep⟩ := Option.ite_none_left_eq_some.mp hstep
    cases hstep
    exact .failed hoperation

/-- The bytes that have been read but not written back. -/
def Session.owed (s : Session) : List UInt8 :=
  match s.operation with
  | .write start stop => (s.data.take stop).drop start
  | _ => []

/-- What has been written back is what has been read, less what is still owed. -/
structure Session.Echoes (s : Session) : Prop where
  sent_isPrefix : s.sent <+: s.received
  owed : s.operation ≠ .ended → s.received = s.sent ++ s.owed
  bounds : ∀ start stop, s.operation = .write start stop →
    start < stop ∧ stop ≤ s.data.length ∧ stop ≤ 1024

/-- What has been written and what is left to be written is what was owed. -/
theorem Session.Echoes.wrote {s : Session} (h : s.Echoes) {start stop : ℕ}
    (hoperation : s.operation = .write start stop) (n : ℕ) :
    s.received = s.sent ++ ((s.data.take stop).drop start).take n ++
      (s.data.take stop).drop (start + n) := by
  have howed := h.owed (by rw [hoperation]; simp)
  rw [Session.owed, hoperation] at howed
  rw [List.append_assoc, ← List.drop_drop, List.take_append_drop]
  exact howed

theorem Session.Echoes.step {s s' : Session} (h : s.Echoes) {l : Label}
    (hstep : s.step l = some s') : s'.Echoes := by
  cases Session.moves_of_step hstep with
  | accepted hoperation =>
    refine ⟨h.sent_isPrefix, fun _ => ?_, fun _ _ heq => by cases heq⟩
    have howed := h.owed (by rw [hoperation]; simp)
    rwa [Session.owed, hoperation] at howed
  | @read bytes hoperation hpos hle =>
    have howed := h.owed (by rw [hoperation]; simp)
    rw [Session.owed, hoperation, List.append_nil] at howed
    refine ⟨h.sent_isPrefix.trans (List.prefix_append _ _), fun _ => ?_, fun _ _ heq => ?_⟩
    · simp [Session.owed, howed]
    · cases heq
      exact ⟨hpos, by simp, hle⟩
  | @wroteAll n start stop hoperation hpos hend =>
    have hsplit := h.wrote hoperation n
    rw [hend, List.drop_of_length_le (List.length_take_le _ _)] at hsplit
    exact ⟨⟨_, hsplit.symm⟩, fun _ => hsplit, fun _ _ heq => by cases heq⟩
  | @wroteSome n start stop hoperation hpos hlt =>
    have hsplit := h.wrote hoperation n
    refine ⟨⟨_, hsplit.symm⟩, fun _ => hsplit, fun _ _ heq => ?_⟩
    cases heq
    exact ⟨hlt, (h.bounds start stop hoperation).2⟩
  | failed hoperation =>
    exact ⟨h.sent_isPrefix, fun hended => absurd rfl hended, fun _ _ heq => by cases heq⟩

theorem echoes_of_reachable {s : Session} (h : session.Reachable s) : s.Echoes :=
  h.invariant ⟨List.nil_prefix, fun _ => rfl, fun _ _ heq => by cases heq⟩
    fun _ _ _ hs hstep => hs.step hstep

/-! ## The handlers' memory -/

inductive Pointer where
  | storage
  | heap (address : ℕ)
  deriving DecidableEq

/-- `handler_memory`, with what `operator new` has given and not got back, and the sizes that have
been asked of `allocate` and of `operator new`. -/
structure HandlerMemory where
  inUse : Bool
  heap : List ℕ
  allocated : List ℕ
  requested : List ℕ
  deriving DecidableEq

namespace HandlerMemory

def new : HandlerMemory := ⟨false, [], [], []⟩

/-- `allocate`; `fresh` is what `operator new` returns. -/
def allocate (m : HandlerMemory) (size fresh : ℕ) : Pointer × HandlerMemory :=
  if m.inUse = false ∧ size < 1024 then
    (.storage, { m with inUse := true, allocated := m.allocated ++ [size] })
  else
    (.heap fresh,
      { m with
        heap := fresh :: m.heap
        allocated := m.allocated ++ [size]
        requested := m.requested ++ [size] })

def deallocate (m : HandlerMemory) : Pointer → HandlerMemory
  | .storage => { m with inUse := false }
  | .heap address => { m with heap := m.heap.erase address }

/-- The part of the heap that a pointer points to. -/
def heapOf : Option Pointer → List ℕ
  | some (.heap address) => [address]
  | _ => []

/-- Only what `pointer` points to is in use, and only what does not fit has been asked of
`operator new`. -/
structure Holds (m : HandlerMemory) (pointer : Option Pointer) : Prop where
  inUse : m.inUse = decide (pointer = some .storage)
  heap : m.heap = heapOf pointer
  requested : m.requested = m.allocated.filter (1024 ≤ ·)

theorem Holds.deallocate {m : HandlerMemory} {p : Pointer} (h : m.Holds (some p)) :
    (m.deallocate p).Holds none := by
  cases p with
  | storage => exact ⟨rfl, h.heap, h.requested⟩
  | heap address => exact ⟨h.inUse, by simp [HandlerMemory.deallocate, h.heap, heapOf], h.requested⟩

theorem Holds.allocate {m : HandlerMemory} (h : m.Holds none) (size fresh : ℕ) :
    (m.allocate size fresh).2.Holds (some (m.allocate size fresh).1) := by
  by_cases hfits : size < 1024
  · rw [HandlerMemory.allocate, if_pos ⟨h.inUse, hfits⟩]
    exact ⟨rfl, h.heap, by simp [h.requested, hfits]⟩
  · rw [HandlerMemory.allocate, if_neg fun hboth => hfits hboth.2]
    exact ⟨h.inUse, by simp [h.heap, heapOf], by simp [h.requested, Nat.le_of_not_lt hfits]⟩

end HandlerMemory

/-- A `session` of `allocation`, with the memory of the handler that is waiting. -/
structure CustomSession where
  session : Session
  memory : HandlerMemory
  pointer : Option Pointer
  deriving DecidableEq

/-- Reads and writes have a handler in the session's memory. -/
def Operation.isCustom : Operation → Bool
  | .read | .write _ _ => true
  | _ => false

/-- `deallocate`, if there is a handler. -/
def CustomSession.freed (c : CustomSession) : HandlerMemory :=
  match c.pointer with
  | some p => c.memory.deallocate p
  | none => c.memory

/-- Asio guarantees that an operation has one block as long as it waits and that the block is given
back before the handler is called, and so it is between the parts of a write. -/
def CustomSession.step (c : CustomSession) (l : Label × ℕ × ℕ) : Option CustomSession :=
  (c.session.step l.1).map fun s =>
    if s.operation.isCustom then
      let (p, memory) := c.freed.allocate l.2.1 l.2.2
      ⟨s, memory, some p⟩
    else ⟨s, c.freed, none⟩

def customSession : Machine CustomSession (Label × ℕ × ℕ) :=
  ⟨⟨.new, .new, none⟩, CustomSession.step⟩

structure CustomSession.Valid (c : CustomSession) : Prop where
  reachable : Echo.session.Reachable c.session
  holds : c.memory.Holds c.pointer
  pending : c.pointer.isSome = c.session.operation.isCustom

theorem CustomSession.Valid.step {c c' : CustomSession} (h : c.Valid) {l : Label × ℕ × ℕ}
    (hstep : c.step l = some c') : c'.Valid := by
  obtain ⟨s, hs, rfl⟩ := Option.map_eq_some_iff.mp hstep
  have hreachable := h.reachable.step hs
  have hfreed : c.freed.Holds none := by
    have hholds := h.holds
    rw [CustomSession.freed]
    cases hpointer : c.pointer with
    | none =>
      rw [hpointer] at hholds
      exact hholds
    | some p =>
      rw [hpointer] at hholds
      exact hholds.deallocate
  by_cases hcustom : s.operation.isCustom = true
  · simp only [if_pos hcustom]
    exact ⟨hreachable, hfreed.allocate _ _, hcustom.symm⟩
  · simp only [if_neg hcustom]
    exact ⟨hreachable, hfreed, (Bool.not_eq_true _ ▸ hcustom : s.operation.isCustom = false).symm⟩

theorem valid_of_reachable {c : CustomSession} (h : customSession.Reachable c) : c.Valid :=
  h.invariant ⟨Machine.Reachable.init, ⟨rfl, rfl, rfl⟩, rfl⟩ fun _ _ _ hc hstep => hc.step hstep

/-! ## The servers -/

section Server
variable {S L : Type*} {M : Machine S L} {accepting : S → Bool} {ss : List S}

/-- `server`: there is a session to be accepted, and a new one as soon as it has been handled. -/
def server (M : Machine S L) (accepting : S → Bool) : Machine (List S) (ℕ × L) where
  init := [M.init]
  step ss l :=
    ss[l.1]?.bind fun s => (M.step s l.2).map fun s' =>
      if accepting s then ss.set l.1 s' ++ [M.init] else ss.set l.1 s'

theorem reachable_of_mem (h : (server M accepting).Reachable ss) : ∀ s ∈ ss, M.Reachable s := by
  refine h.invariant (P := fun ss => ∀ s ∈ ss, M.Reachable s) (fun s hs => ?_) ?_
  · rw [List.mem_singleton.mp hs]
    exact Machine.Reachable.init
  · rintro ss ⟨i, l⟩ ss' hss hstep
    obtain ⟨s, hs, hstep⟩ := Option.bind_eq_some_iff.mp hstep
    obtain ⟨s', hs', rfl⟩ := Option.map_eq_some_iff.mp hstep
    have hset : ∀ x ∈ ss.set i s', M.Reachable x := fun x hx => by
      rcases List.mem_or_eq_of_mem_set hx with hx | rfl
      · exact hss x hx
      · exact (hss s (List.mem_of_getElem? hs)).step hs'
    intro x hx
    split at hx
    · rcases List.mem_append.mp hx with hx | hx
      · exact hset x hx
      · rw [List.mem_singleton.mp hx]
        exact Machine.Reachable.init
    · exact hset x hx

/-- There is always one session to be accepted. -/
theorem countP_accepting (hinit : accepting M.init = true)
    (hstep : ∀ s l s', M.step s l = some s' → accepting s' = false)
    (h : (server M accepting).Reachable ss) : ss.countP accepting = 1 := by
  refine h.invariant (P := fun ss => ss.countP accepting = 1) (by simp [server, hinit]) ?_
  rintro ss ⟨i, l⟩ ss' hss hnext
  obtain ⟨s, hs, hnext⟩ := Option.bind_eq_some_iff.mp hnext
  obtain ⟨s', hs', rfl⟩ := Option.map_eq_some_iff.mp hnext
  obtain ⟨hi, rfl⟩ := List.getElem?_eq_some_iff.mp hs
  have hfalse := hstep _ l s' hs'
  split
  · rename_i haccepting
    simp only [List.countP_append, List.countP_set hi, haccepting, hfalse, hss]
    simp [hinit]
  · rename_i haccepting
    simp only [List.countP_set hi, haccepting, hfalse, hss]
    simp

end Server

def Session.accepting (s : Session) : Bool := s.operation = .accept

theorem Session.not_accepting_of_step {s s' : Session} {l : Label} (h : s.step l = some s') :
    s'.accepting = false := by
  cases Session.moves_of_step h <;> rfl

/-- **What is read is echoed.**  In every run of `async_tcp_echo_server` one session is waiting to
be accepted; each client has got back a beginning of what has been read from it, all of it before
more is read, and at most a buffer is missing as long as nothing has failed. -/
theorem clients_echoed {ss : List Session} (h : (server session Session.accepting).Reachable ss) :
    ss.countP Session.accepting = 1 ∧ ∀ s ∈ ss, s.sent <+: s.received ∧
      (s.operation = .read → s.sent = s.received) ∧
      (s.operation ≠ .ended → s.received.length ≤ s.sent.length + 1024) := by
  refine ⟨countP_accepting rfl (fun _ _ _ => Session.not_accepting_of_step) h, fun s hs => ?_⟩
  have hechoes := echoes_of_reachable (reachable_of_mem h s hs)
  refine ⟨hechoes.sent_isPrefix, fun hread => ?_, fun hended => ?_⟩
  · have howed := hechoes.owed (by rw [hread]; simp)
    rw [howed, Session.owed, hread]
    exact (List.append_nil _).symm
  · have hle : s.owed.length ≤ 1024 := by
      rw [Session.owed]
      split
      · rename_i start stop hwrite
        have hbound := (hechoes.bounds start stop hwrite).2.2
        rw [List.length_drop, List.length_take]
        omega
      · exact Nat.zero_le _
    rw [hechoes.owed hended, List.length_append]
    exact Nat.add_le_add_left hle _

/-- Two bytes are written back one by one, and the client goes. -/
def oneClient : List (ℕ × Label) :=
  [(0, .accepted), (0, .read [104, 105]), (1, .accepted), (0, .wrote 1), (0, .wrote 1),
    (0, .failed)]

theorem oneClient_echoed : ∃ ss, (server session Session.accepting).run
    (server session Session.accepting).init oneClient = some ss ∧
      ss.map Session.sent = [[104, 105], [], []] ∧ ss.countP Session.accepting = 1 ∧
        ∀ s ∈ ss, s.sent <+: s.received := by
  obtain ⟨ss, hrun⟩ : ∃ ss, (server session Session.accepting).run
    (server session Session.accepting).init oneClient = some ss := ⟨_, rfl⟩
  obtain ⟨hone, hechoed⟩ := clients_echoed (Machine.reachable_of_run oneClient hrun)
  refine ⟨ss, hrun, ?_, hone, fun s hs => (hechoed s hs).1⟩
  cases hrun
  rfl

/-- **The block serves every handler that fits.**  In every run of the server of `allocation`, with
handlers of any size, `operator new` is asked for exactly those of 1024 bytes and more, and what is
in use, of the block and of the heap, is the memory of the one handler that a session waits with. -/
theorem handlers_served {cs : List CustomSession}
    (h : (server customSession fun c => c.session.accepting).Reachable cs) :
    ∀ c ∈ cs, c.memory.requested = c.memory.allocated.filter (1024 ≤ ·) ∧
      (c.pointer.isSome ↔ c.session.operation.isCustom) ∧
      (c.memory.inUse = true ↔ c.pointer = some .storage) ∧
      c.memory.heap = HandlerMemory.heapOf c.pointer ∧ c.session.sent <+: c.session.received := by
  intro c hc
  have hvalid := valid_of_reachable (reachable_of_mem h c hc)
  refine ⟨hvalid.holds.requested, by rw [hvalid.pending], ?_, hvalid.holds.heap,
    (echoes_of_reachable hvalid.reachable).sent_isPrefix⟩
  rw [hvalid.holds.inUse, decide_eq_true_iff]

/-- The handler of the write is too large for the block. -/
def largeHandler : List (ℕ × Label × ℕ × ℕ) :=
  [(0, .accepted, 200, 0), (0, .read [104], 2000, 64), (0, .wrote 1, 200, 0)]

theorem largeHandler_served : ∃ cs, (server customSession fun c => c.session.accepting).run
    (server customSession fun c => c.session.accepting).init largeHandler = some cs ∧
      cs.map (fun c => c.memory.requested) = [[2000], []] ∧
        ∀ c ∈ cs, c.memory.requested = c.memory.allocated.filter (1024 ≤ ·) := by
  obtain ⟨cs, hrun⟩ : ∃ cs, (server customSession fun c => c.session.accepting).run
    (server customSession fun c => c.session.accepting).init largeHandler = some cs := ⟨_, rfl⟩
  refine ⟨cs, hrun, ?_, fun c hc =>
    (handlers_served (Machine.reachable_of_run largeHandler hrun) c hc).1⟩
  cases hrun
  rfl

end Sundries.Echo
