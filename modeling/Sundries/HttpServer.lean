import Sundries.HttpReply
import Sundries.Machine
import Sundries.RequestParser

/-!
# The first HTTP server

`server`, `connection` and `connection_manager` as the handlers that one `io_context` runs one
after the other: a label is the completion of an asynchronous operation.  What a socket does
is as it is documented: an operation that was begun on an open socket succeeds or fails, with
`operation_aborted` only if the socket has been closed in the meantime; one begun on a closed
socket fails with another error.

`handle` is `request_handler_.handle_request` with a new `reply`.
-/
namespace Sundries.Http.Server

/-- An `error_code` that is not success. -/
inductive Error where
  | operationAborted | other
  deriving DecidableEq

/-- The completion handlers of a connection. -/
inductive Handler where
  | read | write
  deriving DecidableEq

/-- An asynchronous operation under way, and whether the socket was open when it was begun. -/
structure Operation where
  handler : Handler
  onOpen : Bool
  deriving DecidableEq

/-- A `connection`, with all that it has received and the replies it has begun to send. -/
structure Connection where
  socketOpen : Bool
  parser : State × Request
  operation : Option Operation
  received : List Char
  begun : List Reply
  deriving DecidableEq

namespace Connection

/-- An asynchronous operation is begun. -/
def begin (c : Connection) (h : Handler) : Connection :=
  { c with operation := some ⟨h, c.socketOpen⟩ }

/-- A connection that has been started. -/
def start (major minor : Int32) : Connection :=
  ⟨true, (.methodStart, .new major minor), some ⟨.read, true⟩, [], []⟩

/-- `connection::stop` -/
def stop (c : Connection) : Connection := { c with socketOpen := false }

/-- The operation has completed. -/
def complete (c : Connection) : Connection := { c with operation := none }

/-- `connection::handle_read` without an error. -/
def handleRead (handle : Request → Reply) (c : Connection) (bytes : List Char) : Connection :=
  let result := Http.parser.scan c.parser bytes
  let c := { c with parser := result.2.1, received := c.received ++ bytes }
  match result.1 with
  | .accept => { c with begun := c.begun ++ [handle result.2.1.2] }.begin .write
  | .reject => { c with begun := c.begun ++ [Reply.stockReply .badRequest] }.begin .write
  | .more => c.begin .read

/-- The operation can complete so; `none` is success. -/
def completes (c : Connection) (h : Handler) (e : Option Error) : Bool :=
  match c.operation with
  | none => false
  | some op =>
    op.handler = h && match e with
      | none => op.onOpen
      | some .operationAborted => op.onOpen && !c.socketOpen
      | some .other => true

end Connection

/-- The server: `managed` is `connections_` of the connection manager. -/
structure System where
  acceptorOpen : Bool
  accepting : Bool
  awaitingSignal : Bool
  connections : List Connection
  managed : List ℕ
  deriving DecidableEq

namespace System

/-- `connection_manager::stop` -/
def stop (s : System) (i : ℕ) : System :=
  { s with
    managed := s.managed.erase i
    connections := s.connections.modify i Connection.stop }

/-- `connection_manager::stop_all` -/
def stopAll (s : System) : System :=
  { s with
    managed := []
    connections := s.managed.foldl (fun cs i => cs.modify i Connection.stop) s.connections }

/-- `connection_manager::start` of a new connection. -/
def start (s : System) (major minor : Int32) : System :=
  { s with
    managed := s.managed ++ [s.connections.length]
    connections := s.connections ++ [.start major minor] }

/-- The connection `i` is exchanged. -/
def put (s : System) (i : ℕ) (c : Connection) : System :=
  { s with connections := s.connections.set i c }

end System

/-- The handlers.  A new `request` has some version numbers in it. -/
inductive Label where
  | accept (ok : Bool) (major minor : Int32)
  | read (i : ℕ) (bytes : List Char)
  | readError (i : ℕ) (e : Error)
  | write (i : ℕ) (e : Option Error)
  | signal
  deriving DecidableEq

def step (handle : Request → Reply) (s : System) : Label → Option System
  | .accept ok major minor =>
    if !s.accepting then none
    -- `handle_accept`: the server has been stopped
    else if !s.acceptorOpen then some { s with accepting := false }
    -- `start_accept` follows in both cases
    else if ok then some (s.start major minor)
    else some s
  | .read i bytes =>
    s.connections[i]?.bind fun c =>
      if c.completes .read none && !bytes.isEmpty && bytes.length ≤ 8192 then
        some (s.put i (c.handleRead handle bytes))
      else none
  | .readError i e =>
    s.connections[i]?.bind fun c =>
      if c.completes .read (some e) then
        some (if e ≠ .operationAborted then (s.put i c.complete).stop i else s.put i c.complete)
      else none
  | .write i e =>
    s.connections[i]?.bind fun c =>
      if c.completes .write e then
        some (if e ≠ some .operationAborted then (s.put i c.complete).stop i
          else s.put i c.complete)
      else none
  -- `server::handle_stop`
  | .signal =>
    if s.awaitingSignal then
      some { s with acceptorOpen := false, awaitingSignal := false }.stopAll
    else none

/-- The server after its constructor. -/
def server (handle : Request → Reply) : Machine System Label where
  init := ⟨true, true, true, [], []⟩
  step := step handle

variable {handle : Request → Reply}

/-- **What a handler does.** -/
inductive Moves (handle : Request → Reply) (s : System) : Label → System → Prop
  | closed {ok : Bool} {major minor : Int32} (haccepting : s.accepting = true)
      (hclosed : s.acceptorOpen = false) :
      Moves handle s (.accept ok major minor) { s with accepting := false }
  | started {major minor : Int32} (haccepting : s.accepting = true) (hopen : s.acceptorOpen = true) :
      Moves handle s (.accept true major minor) (s.start major minor)
  | refused {major minor : Int32} (haccepting : s.accepting = true) (hopen : s.acceptorOpen = true) :
      Moves handle s (.accept false major minor) s
  | read {i : ℕ} {bytes : List Char} {c : Connection} (hc : s.connections[i]? = some c)
      (hop : c.operation = some ⟨.read, true⟩) :
      Moves handle s (.read i bytes) (s.put i (c.handleRead handle bytes))
  | aborted {i : ℕ} {c : Connection} {l : Label} (hl : l = .readError i .operationAborted ∨
        l = .write i (some .operationAborted)) (hc : s.connections[i]? = some c)
      (hop : c.operation.isSome) (hclosed : c.socketOpen = false) :
      Moves handle s l (s.put i c.complete)
  | ended {i : ℕ} {c : Connection} {l : Label} (hl : l = .readError i .other ∨
        ∃ e, e ≠ some .operationAborted ∧ l = .write i e) (hc : s.connections[i]? = some c)
      (hop : c.operation.isSome) :
      Moves handle s l ((s.put i c.complete).stop i)
  | signal (hsignal : s.awaitingSignal = true) :
      Moves handle s .signal { s with acceptorOpen := false, awaitingSignal := false }.stopAll

theorem completes_iff {c : Connection} {h : Handler} {e : Option Error} :
    c.completes h e = true ↔ ∃ b, c.operation = some ⟨h, b⟩ ∧ (e = none → b = true) ∧
      (e = some .operationAborted → b = true ∧ c.socketOpen = false) := by
  rw [Connection.completes]
  cases hop : c.operation with
  | none => simp
  | some op =>
    obtain ⟨h', b⟩ := op
    cases e with
    | none => simp
    | some e => cases e <;> simp [and_assoc]

theorem moves_of_step {s s' : System} {l : Label} (h : step handle s l = some s') :
    Moves handle s l s' := by
  cases l with
  | accept ok major minor =>
    simp only [step] at h
    split at h
    · cases h
    · rename_i haccepting
      have haccepting : s.accepting = true := by simpa using haccepting
      split at h
      · rename_i hclosed
        cases h
        exact .closed haccepting (by simpa using hclosed)
      · rename_i hopen
        have hopen : s.acceptorOpen = true := by simpa using hopen
        split at h <;> cases h
        · rename_i hok
          subst hok
          exact .started haccepting hopen
        · rename_i hok
          rw [Bool.not_eq_true] at hok
          subst hok
          exact .refused haccepting hopen
  | read i bytes =>
    obtain ⟨c, hc, h⟩ := Option.bind_eq_some_iff.mp h
    obtain ⟨hcompletes, h⟩ := Option.ite_none_right_eq_some.mp h
    cases h
    simp only [Bool.and_eq_true] at hcompletes
    obtain ⟨b, hop, hb, -⟩ := completes_iff.mp hcompletes.1.1
    exact .read hc (by rw [hop, hb rfl])
  | readError i e =>
    obtain ⟨c, hc, h⟩ := Option.bind_eq_some_iff.mp h
    obtain ⟨hcompletes, h⟩ := Option.ite_none_right_eq_some.mp h
    cases h
    obtain ⟨b, hop, -, haborted⟩ := completes_iff.mp hcompletes
    cases e with
    | operationAborted => exact .aborted (.inl rfl) hc (by simp [hop]) (haborted rfl).2
    | other => exact .ended (.inl rfl) hc (by simp [hop])
  | write i e =>
    obtain ⟨c, hc, h⟩ := Option.bind_eq_some_iff.mp h
    obtain ⟨hcompletes, h⟩ := Option.ite_none_right_eq_some.mp h
    cases h
    obtain ⟨b, hop, -, haborted⟩ := completes_iff.mp hcompletes
    split
    · rename_i he
      exact .ended (.inr ⟨e, he, rfl⟩) hc (by simp [hop])
    · rename_i he
      rw [not_not] at he
      subst he
      exact .aborted (.inr rfl) hc (by simp [hop]) (haborted rfl).2
  | signal =>
    obtain ⟨hsignal, h⟩ := Option.ite_none_right_eq_some.mp h
    cases h
    exact .signal hsignal

/-! ## What holds in every state -/

/-- The replies that are begun when the parser has come to a verdict. -/
def replies (handle : Request → Reply) : Verdict → Request → List Reply
  | .more, _ => []
  | .accept, r => [handle r]
  | .reject, _ => [.stockReply .badRequest]

/-- The parser has seen what has been received, the reply is the one it calls for, and the
connection reads on exactly while more is wanted. -/
structure Connection.Valid (handle : Request → Reply) (c : Connection) : Prop where
  answers : ∃ v major minor rest, parse major minor c.received = (v, c.parser, rest) ∧
    c.begun = replies handle v c.parser.2 ∧
    ∀ op, c.operation = some op → (op.handler = .read ↔ v = .more)
  busy : c.socketOpen = true → c.operation.isSome

structure Valid (handle : Request → Reply) (s : System) : Prop where
  connections : ∀ (i : ℕ) (c : Connection), s.connections[i]? = some c → c.Valid handle
  managed : ∀ i, i ∈ s.managed ↔ ∃ c, s.connections[i]? = some c ∧ c.socketOpen = true
  nodup : s.managed.Nodup
  accepting : s.acceptorOpen = true → s.accepting = true
  stopped : s.acceptorOpen = false → s.managed = []
  signal : s.awaitingSignal = s.acceptorOpen
  /-- Until the server is stopped nothing is begun on a closed socket. -/
  working : s.acceptorOpen = true → ∀ (i : ℕ) (c : Connection), s.connections[i]? = some c →
    ∀ op, c.operation = some op → op.onOpen = true ∧ c.socketOpen = true

theorem Connection.Valid.start (major minor : Int32) : (Connection.start major minor).Valid handle where
  answers := by
    refine ⟨.more, major, minor, [], rfl, rfl, ?_⟩
    intro op hop
    cases hop
    exact ⟨fun _ => rfl, fun _ => rfl⟩
  busy _ := rfl

theorem Connection.Valid.complete {c : Connection} (h : c.Valid handle) :
    c.complete.stop.Valid handle where
  answers := by
    obtain ⟨v, major, minor, rest, hparse, hbegun, -⟩ := h.answers
    exact ⟨v, major, minor, rest, hparse, hbegun, nofun⟩
  busy := nofun

theorem Connection.Valid.read {c : Connection} (h : c.Valid handle)
    (hop : c.operation = some ⟨.read, true⟩) (bytes : List Char) :
    (c.handleRead handle bytes).Valid handle := by
  obtain ⟨v, major, minor, rest, hparse, hbegun, hhandler⟩ := h.answers
  obtain rfl : v = .more := (hhandler _ hop).mp rfl
  have hnext := Scanner.scan_append hparse bytes
  rw [Connection.handleRead]
  obtain ⟨w, p, rest', hw⟩ : ∃ w p rest, Http.parser.scan c.parser bytes = (w, p, rest) :=
    ⟨_, _, _, rfl⟩
  rw [hw] at hnext
  rw [hw]
  have hnil : c.begun = [] := hbegun
  cases w with
  | more =>
    refine ⟨⟨.more, major, minor, rest', hnext, hnil, fun op hop => ?_⟩, fun _ => rfl⟩
    cases hop
    exact ⟨fun _ => rfl, fun _ => rfl⟩
  | accept =>
    refine ⟨⟨.accept, major, minor, rest', hnext, ?_, fun op hop => ?_⟩, fun _ => rfl⟩
    · simp [Connection.begin, hnil, replies]
    · cases hop
      exact ⟨nofun, nofun⟩
  | reject =>
    refine ⟨⟨.reject, major, minor, rest', hnext, ?_, fun op hop => ?_⟩, fun _ => rfl⟩
    · simp [Connection.begin, hnil, replies]
    · cases hop
      exact ⟨nofun, nofun⟩

@[simp] theorem handleRead_socketOpen (c : Connection) (bytes : List Char) :
    (c.handleRead handle bytes).socketOpen = c.socketOpen := by
  rw [Connection.handleRead]
  split <;> rfl

/-- What follows a read is begun on the socket as it is. -/
theorem onOpen_handleRead {c : Connection} {bytes : List Char} {op : Operation}
    (hop : (c.handleRead handle bytes).operation = some op) : op.onOpen = c.socketOpen := by
  rw [Connection.handleRead] at hop
  split at hop <;> cases hop <;> rfl

/-- A connection is exchanged for another one. -/
theorem getElem?_put {s : System} {i : ℕ} {c : Connection} (hc : s.connections[i]? = some c)
    (c' : Connection) (j : ℕ) :
    (s.put i c').connections[j]? = if i = j then some c' else s.connections[j]? := by
  have hlt := (List.getElem?_eq_some_iff.mp hc).1
  rw [System.put, List.getElem?_set, if_pos hlt]

theorem Valid.put {s : System} (h : Valid handle s) {i : ℕ} {c c' : Connection}
    (hc : s.connections[i]? = some c) (hopen : c'.socketOpen = c.socketOpen)
    (hbegun : ∀ op, c'.operation = some op → op.onOpen = c.socketOpen) (hop : c.operation.isSome)
    (hvalid : c'.Valid handle) : Valid handle (s.put i c') where
  connections := by
    intro j d hd
    rw [getElem?_put hc] at hd
    split at hd
    · cases hd
      exact hvalid
    · exact h.connections j d hd
  managed := by
    intro j
    refine (h.managed j).trans ?_
    rw [getElem?_put hc]
    split
    · subst j
      simp [hc, hopen]
    · rfl
  nodup := h.nodup
  accepting := h.accepting
  stopped := h.stopped
  signal := h.signal
  working haccepts j d hd op hd' := by
    rw [getElem?_put hc] at hd
    split at hd
    · cases hd
      obtain ⟨op', hop⟩ := Option.isSome_iff_exists.mp hop
      have hsocket := (h.working haccepts i c hc op' hop).2
      exact ⟨(hbegun op hd').trans hsocket, hopen.trans hsocket⟩
    · exact h.working haccepts j d hd op hd'

/-- The operation of the connection `i` has completed, and the connection is stopped. -/
theorem getElem?_stop_put {s : System} {i : ℕ} {c : Connection} (hc : s.connections[i]? = some c)
    (c' : Connection) (j : ℕ) :
    ((s.put i c').stop i).connections[j]? = if i = j then some c'.stop else s.connections[j]? := by
  rw [System.stop, List.getElem?_modify, getElem?_put hc]
  split <;> simp_all

theorem Valid.stop {s : System} (h : Valid handle s) {i : ℕ} {c : Connection}
    (hc : s.connections[i]? = some c) : Valid handle ((s.put i c.complete).stop i) where
  connections := by
    intro j d hd
    rw [getElem?_stop_put hc] at hd
    split at hd
    · cases hd
      exact (h.connections i c hc).complete
    · exact h.connections j d hd
  managed := by
    intro j
    rw [getElem?_stop_put hc]
    refine (h.nodup.mem_erase_iff).trans ?_
    rw [h.managed]
    split
    · rename_i hij
      subst j
      simp [Connection.stop]
    · rename_i hij
      simp [Ne.symm hij]
  nodup := h.nodup.erase i
  accepting := h.accepting
  stopped hclosed := by
    show s.managed.erase i = []
    rw [h.stopped hclosed]
    rfl
  signal := h.signal
  working haccepts j d hd op hop := by
    rw [getElem?_stop_put hc] at hd
    split at hd
    · cases hd
      cases hop
    · exact h.working haccepts j d hd op hop

theorem getElem?_stopAll (s : System) (j : ℕ) :
    s.stopAll.connections[j]? =
      if j ∈ s.managed then s.connections[j]?.map Connection.stop else s.connections[j]? := by
  suffices key : ∀ (is : List ℕ) (cs : List Connection),
      (is.foldl (fun cs i => cs.modify i Connection.stop) cs)[j]? =
        if j ∈ is then cs[j]?.map Connection.stop else cs[j]? from key s.managed s.connections
  intro is
  induction is with
  | nil => simp
  | cons i is ih =>
    intro cs
    rw [List.foldl_cons, ih, List.getElem?_modify]
    by_cases hij : i = j
    · subst hij
      cases cs[i]? <;> simp [Connection.stop]
    · simp [hij, Ne.symm hij]

/-- `stop_all` closes every socket. -/
theorem socketOpen_stopAll {s : System} (h : Valid handle s) {i : ℕ} {c : Connection}
    (hc : s.stopAll.connections[i]? = some c) : c.socketOpen = false := by
  rw [getElem?_stopAll] at hc
  split at hc
  · obtain ⟨d, -, rfl⟩ := Option.map_eq_some_iff.mp hc
    rfl
  · rename_i hi
    by_contra hopen
    exact hi ((h.managed i).mpr ⟨c, hc, by simpa using hopen⟩)

theorem getElem?_start (s : System) (major minor : Int32) (j : ℕ) :
    (s.start major minor).connections[j]? =
      if j = s.connections.length then some (.start major minor) else s.connections[j]? := by
  show (s.connections ++ [Connection.start major minor])[j]? = _
  rcases Nat.lt_trichotomy j s.connections.length with hj | rfl | hj
  · rw [List.getElem?_append_left hj, if_neg (Nat.ne_of_lt hj)]
  · simp
  · have hlength : (s.connections ++ [Connection.start major minor]).length ≤ j := by
      simp only [List.length_append, List.length_singleton]
      omega
    rw [if_neg (Nat.ne_of_gt hj), List.getElem?_eq_none hlength,
      List.getElem?_eq_none (Nat.le_of_lt hj)]

theorem Valid.stopAll {s : System} (h : Valid handle s) :
    Valid handle { s with acceptorOpen := false, awaitingSignal := false }.stopAll where
  connections := by
    intro i c hc
    have hclosed : c.socketOpen = false := socketOpen_stopAll h hc
    have hc := (getElem?_stopAll s i).symm.trans hc
    split at hc
    · obtain ⟨d, hd, rfl⟩ := Option.map_eq_some_iff.mp hc
      exact ⟨(h.connections i d hd).answers, nofun⟩
    · exact h.connections i c hc
  managed := by
    refine fun i => ⟨nofun, ?_⟩
    rintro ⟨c, hc, hopen⟩
    have hclosed : c.socketOpen = false := socketOpen_stopAll h hc
    rw [hclosed] at hopen
    cases hopen
  nodup := List.nodup_nil
  accepting := nofun
  stopped _ := rfl
  signal := rfl
  working haccepts := by cases haccepts

theorem Valid.start {s : System} (h : Valid handle s) (hopen : s.acceptorOpen = true)
    (major minor : Int32) : Valid handle (s.start major minor) where
  connections := by
    intro i c hc
    rw [getElem?_start] at hc
    split at hc
    · cases hc
      exact .start major minor
    · exact h.connections i c hc
  managed := by
    intro i
    rw [getElem?_start]
    refine List.mem_append.trans ?_
    rw [List.mem_singleton, h.managed]
    split
    · rename_i hi
      simp [hi, Connection.start]
    · rename_i hi
      simp [hi]
  nodup := by
    refine List.nodup_append.mpr ⟨h.nodup, by simp, ?_⟩
    intro i hi j hj
    obtain ⟨c, hc, -⟩ := (h.managed i).mp hi
    rw [List.mem_singleton.mp hj]
    exact Nat.ne_of_lt (List.getElem?_eq_some_iff.mp hc).1
  accepting := h.accepting
  stopped hclosed := by
    rw [show s.acceptorOpen = false from hclosed] at hopen
    cases hopen
  signal := h.signal
  working haccepts i c hc op hop := by
    rw [getElem?_start] at hc
    split at hc
    · cases hc
      cases hop
      exact ⟨rfl, rfl⟩
    · exact h.working haccepts i c hc op hop

theorem valid_step {s s' : System} {l : Label} (h : Valid handle s)
    (hstep : (server handle).step s l = some s') : Valid handle s' := by
  cases moves_of_step hstep with
  | closed haccepting hclosed =>
    exact { h with accepting := fun hopen => by rw [hclosed] at hopen; cases hopen }
  | started haccepting hopen => exact h.start hopen _ _
  | refused haccepting hopen => exact h
  | read hc hop =>
    exact h.put hc (handleRead_socketOpen _ _) (fun _ => onOpen_handleRead) (by simp [hop])
      ((h.connections _ _ hc).read hop _)
  | @aborted i c l hl hc hop hclosed =>
    have hstop : c.complete.stop = c.complete := by
      cases c
      cases hclosed
      rfl
    exact h.put hc rfl (fun _ hnone => by cases hnone) hop (hstop ▸ (h.connections i c hc).complete)
  | ended hl hc hop => exact h.stop hc
  | signal hsignal => exact h.stopAll

theorem valid_of_reachable {s : System} (h : (server handle).Reachable s) : Valid handle s :=
  h.invariant
    { connections := nofun
      managed := fun _ => ⟨nofun, fun ⟨_, hc, _⟩ => nomatch hc⟩
      nodup := List.nodup_nil
      accepting := fun _ => rfl
      stopped := nofun
      signal := rfl
      working := fun _ _ _ hc => nomatch hc }
    fun _ _ _ => valid_step

/-! ## The replies -/

/-- What the server begins to send a client for what it has received: nothing as long as a request
can come of it, what the handler makes of the request, or the stock reply for a bad one. -/
inductive Answered (handle : Request → Reply) : List Char → List Reply → Prop
  | waiting {received : List Char} {t : RequestText} {later : List Char} (hlater : later ≠ [])
      (ht : received ++ later = t.render) : Answered handle received []
  | handled (t : RequestText) (rest : List Char) :
      Answered handle (t.render ++ rest) [handle t.request]
  | bad {received : List Char}
      (hbad : ∀ t : RequestText, ¬ t.render <+: received ∧ ¬ received <+: t.render) :
      Answered handle received [.stockReply .badRequest]

theorem Connection.Valid.answered {c : Connection} (h : c.Valid handle) :
    Answered handle c.received c.begun := by
  obtain ⟨v, major, minor, rest, hparse, hbegun, -⟩ := h.answers
  rw [hbegun]
  cases v with
  | more =>
    obtain ⟨t, later, hlater, ht⟩ := (parse_eq_more_iff major minor c.received).mp (by rw [hparse])
    exact .waiting hlater ht
  | accept =>
    obtain ⟨t, ht, hp⟩ := (parse_eq_accept_iff major minor).mp hparse
    rw [ht, hp]
    exact .handled t rest
  | reject => exact .bad ((parse_eq_reject_iff major minor c.received).mp (by rw [hparse]))

/-- The reply to what is just a request. -/
theorem answered_render {t : RequestText} {begun : List Reply}
    (h : Answered handle t.render begun) : begun = [handle t.request] := by
  generalize hreceived : t.render = received at h
  have hwhole := scan_render t 0 0 []
  rw [List.append_nil, hreceived] at hwhole
  cases h with
  | waiting hlater ht =>
    have hmore := (parse_eq_more_iff 0 0 received).mpr ⟨_, _, hlater, ht⟩
    rw [hwhole] at hmore
    cases hmore
  | handled u rest =>
    rw [scan_render] at hwhole
    have hrequest : u.request = t.request := congrArg (fun x => x.2.1.2) hwhole
    rw [hrequest]
  | bad hbad => exact absurd ⟨[], by rw [hreceived, List.append_nil]⟩ (hbad t).1

/-- Two clients, one of whose requests comes in two pieces; the other one is cut off. -/
def twoClients : List Label :=
  [.accept true 0 0, .read 0 "GET / HT".toList, .accept true 0 0, .read 1 "GE".toList,
    .read 0 "TP/1.0\r\n\r\n".toList, .signal, .readError 1 .operationAborted, .write 0 none]

/-- How many handlers an operation still leads to after the sockets are closed: what an operation
that was begun before brings in is parsed, and the one that follows fails. -/
def handlersOf (c : Connection) : ℕ :=
  match c.operation with
  | none => 0
  | some op => if op.onOpen then 2 else 1

/-- A bound on the handlers that are still to run. -/
def outstanding (s : System) : ℕ :=
  s.accepting.toNat + Machine.total handlersOf s.connections

/-- The server has been stopped with `n` connections. -/
structure Stopped (handle : Request → Reply) (n : ℕ) (s : System) : Prop where
  valid : Valid handle s
  closed : s.acceptorOpen = false
  count : s.connections.length = n

theorem Stopped.socketOpen {n : ℕ} {s : System} (h : Stopped handle n s) {i : ℕ} {c : Connection}
    (hc : s.connections[i]? = some c) : c.socketOpen = false := by
  by_contra hopen
  have hi := (h.valid.managed i).mpr ⟨c, hc, by simpa using hopen⟩
  rw [h.valid.stopped h.closed] at hi
  cases hi

theorem connections_stop_put {s : System} {i : ℕ} {c : Connection}
    (hc : s.connections[i]? = some c) (c' : Connection) :
    ((s.put i c').stop i).connections = s.connections.set i c'.stop := by
  refine List.ext_getElem? fun j => ?_
  rw [getElem?_stop_put hc, List.getElem?_set, if_pos (List.getElem?_eq_some_iff.mp hc).1]

theorem Stopped.step {n : ℕ} {s s' : System} {l : Label} (h : Stopped handle n s)
    (hstep : (server handle).step s l = some s') :
    Stopped handle n s' ∧ outstanding s' < outstanding s := by
  have hvalid := valid_step h.valid hstep
  have hclosed := h.closed
  cases moves_of_step hstep with
  | closed haccepting _ =>
    refine ⟨⟨hvalid, h.closed, h.count⟩, ?_⟩
    simp [outstanding, haccepting]
  | started _ hopen | refused _ hopen => simp [hclosed] at hopen
  | signal hsignal =>
    rw [h.valid.signal] at hsignal
    simp [hclosed] at hsignal
  | @read i bytes c hc hop =>
    refine ⟨⟨hvalid, h.closed, by simpa [System.put] using h.count⟩, ?_⟩
    have htotal := Machine.total_set handlersOf hc (c.handleRead handle bytes)
    have hbefore : handlersOf c = 2 := by simp [handlersOf, hop]
    have hafter : handlersOf (c.handleRead handle bytes) = 1 := by
      have hsocket := h.socketOpen hc
      rw [Connection.handleRead]
      split <;> simp [handlersOf, Connection.begin, hsocket]
    simp only [outstanding, System.put]
    omega
  | @aborted i c l hl hc hop _ =>
    refine ⟨⟨hvalid, h.closed, by simpa [System.put] using h.count⟩, ?_⟩
    have htotal := Machine.total_set handlersOf hc c.complete
    have hbefore : 0 < handlersOf c := by
      obtain ⟨op, hop⟩ := Option.isSome_iff_exists.mp hop
      simp only [handlersOf, hop]
      split <;> simp
    have hafter : handlersOf c.complete = 0 := rfl
    simp only [outstanding, System.put]
    omega
  | @ended i c l hl hc hop =>
    refine ⟨⟨hvalid, h.closed, by rw [connections_stop_put hc]; simpa using h.count⟩, ?_⟩
    have htotal := Machine.total_set handlersOf hc c.complete.stop
    have hbefore : 0 < handlersOf c := by
      obtain ⟨op, hop⟩ := Option.isSome_iff_exists.mp hop
      simp only [handlersOf, hop]
      split <;> simp
    have hafter : handlersOf c.complete.stop = 0 := rfl
    have haccepting : ((s.put i c.complete).stop i).accepting = s.accepting := rfl
    rw [outstanding, connections_stop_put hc, haccepting, outstanding]
    omega

/-- Nothing is outstanding when nothing can complete. -/
theorem Stopped.idle {n : ℕ} {s : System} (h : Stopped handle n s)
    (hstuck : ∀ l, (server handle).step s l = none) :
    s.accepting = false ∧ ∀ c ∈ s.connections, c.operation = none := by
  constructor
  · by_contra haccepting
    have := hstuck (.accept false 0 0)
    simp [server, Server.step, haccepting, h.closed] at this
  · intro c hc
    obtain ⟨i, hi⟩ := List.mem_iff_getElem?.mp hc
    by_contra hop
    obtain ⟨op, hop⟩ := Option.ne_none_iff_exists'.mp hop
    cases hhandler : op.handler with
    | read =>
      have hcompletes : c.completes .read (some .other) = true := by
        simp [Connection.completes, hop, hhandler]
      have := hstuck (.readError i .other)
      simp [server, Server.step, hi, hcompletes] at this
    | write =>
      have hcompletes : c.completes .write (some .other) = true := by
        simp [Connection.completes, hop, hhandler]
      have := hstuck (.write i (some .other))
      simp [server, Server.step, hi, hcompletes] at this

end Sundries.Http.Server
