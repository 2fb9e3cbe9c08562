import Sundries.Machine
import Sundries.PingReply

/-!
# The pinger

`pinger` as the handlers that its `io_context` runs one after the other, with a clock that goes on
between them.  A wait for the timer is over when its time has come or it has been cancelled; the
handlers look at no error.  A failed receive comes without bytes, and when `send_to` fails the
program is left by an exception.
-/
namespace Sundries.Ping

def second : ℕ := 1000 * millisecond

/-- The packet that `start_send` sends. -/
def request (identifier sequenceNumber : UInt16) : List UInt8 :=
  let echoRequest := IcmpHeader.new.setType IcmpHeader.echoRequest
  let echoRequest := echoRequest.setCode 0
  let echoRequest := echoRequest.setIdentifier identifier
  let echoRequest := echoRequest.setSequenceNumber sequenceNumber
  (echoRequest.computeChecksum hello).rep ++ hello

/-- What the timer is waited for. -/
inductive Handler where
  | handleTimeout | startSend
  deriving DecidableEq

/-- A request, with all that has been received and printed until the next one, each with its time. -/
structure Request where
  sentAt : ℕ
  sequenceNumber : UInt16
  packet : List UInt8
  received : List (ℕ × List UInt8)
  printed : List (ℕ × Line)
  deriving DecidableEq

/-- `pinger`; `expiry` and `cancelled` are of its timer, `now` is the clock, and `requests` are all
requests, the last one first. -/
structure Pinger where
  running : Bool
  now : ℕ
  sequenceNumber : UInt16
  timeSent : ℕ
  numReplies : ℕ
  handler : Handler
  expiry : ℕ
  cancelled : Bool
  requests : List Request
  deriving DecidableEq

namespace Pinger

/-- The last request is changed. -/
def onLast (p : Pinger) (f : Request → Request) : Pinger :=
  match p.requests with
  | [] => p
  | r :: rs => { p with requests := f r :: rs }

def print (p : Pinger) (l : Line) : Pinger :=
  p.onLast fun r => { r with printed := r.printed ++ [(p.now, l)] }

/-- `start_send`; `ok` says whether `send_to` succeeds. -/
def startSend (identifier : UInt16) (p : Pinger) (ok : Bool) : Pinger :=
  let n := p.sequenceNumber + 1
  let p := { p with sequenceNumber := n, timeSent := p.now }
  if ok then
    { p with
      requests := ⟨p.now, n, request identifier n, [], []⟩ :: p.requests
      numReplies := 0
      expiry := p.timeSent + 5 * second
      handler := .handleTimeout
      cancelled := false }
  else { p with running := false }

def handleTimeout (p : Pinger) : Pinger :=
  let p := if p.numReplies = 0 then p.print .timedOut else p
  { p with expiry := p.timeSent + second, handler := .startSend, cancelled := false }

def handleReceive (identifier : UInt16) (p : Pinger) (packet : List UInt8) : Pinger :=
  let p := p.onLast fun r => { r with received := r.received ++ [(p.now, packet)] }
  match answer identifier p.sequenceNumber packet (p.now - p.timeSent) with
  | some l =>
    let first := p.numReplies = 0
    { p with numReplies := p.numReplies + 1, cancelled := p.cancelled || first }.print l
  | none => p

end Pinger

inductive Label where
  | tick (n : ℕ)
  | timer (ok : Bool)
  | receive (packet : List UInt8)

def step (identifier : UInt16) (p : Pinger) : Label → Option Pinger
  | .tick n => some { p with now := p.now + n }
  | .timer ok =>
    if p.running && (p.cancelled || p.expiry ≤ p.now) then
      match p.handler with
      | .handleTimeout => some p.handleTimeout
      | .startSend => some (p.startSend identifier ok)
    else none
  | .receive packet =>
    if p.running && packet.length ≤ 65536 then some (p.handleReceive identifier packet) else none

/-- The pinger after its constructor, which has sent the first request at `t`. -/
def pinger (identifier : UInt16) (t : ℕ) : Machine Pinger Label where
  init := Pinger.startSend identifier ⟨true, t, 0, 0, 0, .startSend, 0, false, []⟩ true
  step := step identifier

/-! ## What is reported of a request -/

/-- The lines that the packets received call for. -/
def Request.answers (identifier : UInt16) (r : Request) : List (ℕ × Line) :=
  r.received.filterMap fun (t, packet) =>
    (answer identifier r.sequenceNumber packet (t - r.sentAt)).map fun l => (t, l)

/-- Every reply is printed, and a timeout before them only if five seconds have gone by without
one. -/
structure Request.Reports (identifier : UInt16) (r : Request) : Prop where
  packet : r.packet = request identifier r.sequenceNumber
  printed : r.printed = r.answers identifier ∨ ∃ t, r.sentAt + 5 * second ≤ t ∧
    r.printed = (t, .timedOut) :: r.answers identifier ∧ ∀ l ∈ r.answers identifier, t ≤ l.1

/-- The next request is sent after something has been reported of the one before, and not within
a second. -/
structure Next (older newer : Request) : Prop where
  reported : older.printed ≠ []
  apart : older.sentAt + second ≤ newer.sentAt
  number : newer.sequenceNumber = older.sequenceNumber + 1

/-- The last request is `r`, the ones before are `rs`. -/
structure Pinger.Valid (identifier : UInt16) (p : Pinger) (r : Request) (rs : List Request) :
    Prop where
  requests : p.requests = r :: rs
  reports : ∀ q ∈ r :: rs, q.Reports identifier
  next : ∀ (i : ℕ) (older newer : Request), (r :: rs)[i]? = some newer →
    (r :: rs)[i + 1]? = some older → Next older newer
  sent : r.sentAt ≤ p.now
  past : ∀ l ∈ r.printed, l.1 ≤ p.now
  current : p.running = true → p.sequenceNumber = r.sequenceNumber ∧ p.timeSent = r.sentAt ∧
    p.numReplies = (r.answers identifier).length
  timeout : p.running = true → p.handler = .handleTimeout → p.expiry = r.sentAt + 5 * second ∧
    r.printed = r.answers identifier ∧ (p.cancelled = true ↔ r.answers identifier ≠ [])
  send : p.running = true → p.handler = .startSend → p.expiry = r.sentAt + second ∧
    r.printed ≠ [] ∧ (p.cancelled = true → r.sentAt + second ≤ p.now)

/-- The last request with one more packet. -/
theorem answers_receive (identifier : UInt16) (r : Request) (t : ℕ) (packet : List UInt8) :
    Request.answers identifier { r with received := r.received ++ [(t, packet)] } =
      r.answers identifier ++
        ((answer identifier r.sequenceNumber packet (t - r.sentAt)).map
          fun l => (t, l)).toList := by
  simp only [Request.answers, List.filterMap_append]
  congr 1

namespace Pinger.Valid
variable {identifier : UInt16} {p : Pinger} {r r' : Request} {rs : List Request}

/-- The last request is exchanged. -/
theorem reports_cons (h : p.Valid identifier r rs) (hr' : r'.Reports identifier) :
    ∀ q ∈ r' :: rs, q.Reports identifier := by
  intro q hq
  rcases List.mem_cons.mp hq with rfl | hq
  · exact hr'
  · exact h.reports q (List.mem_cons_of_mem r hq)

theorem next_cons (h : p.Valid identifier r rs) (hsent : r'.sentAt = r.sentAt)
    (hnumber : r'.sequenceNumber = r.sequenceNumber) (i : ℕ) (older newer : Request)
    (hnewer : (r' :: rs)[i]? = some newer) (holder : (r' :: rs)[i + 1]? = some older) :
    Next older newer := by
  cases i with
  | zero =>
    cases hnewer
    have hnext := h.next 0 older r rfl holder
    exact ⟨hnext.reported, hsent ▸ hnext.apart, hnumber ▸ hnext.number⟩
  | succ i => exact h.next (i + 1) older newer hnewer holder

theorem tick (h : p.Valid identifier r rs) (n : ℕ) :
    Valid identifier { p with now := p.now + n } r rs :=
  { h with
    sent := Nat.le_add_right_of_le h.sent
    past := fun l hl => Nat.le_add_right_of_le (h.past l hl)
    send := fun hrunning hhandler =>
      ⟨(h.send hrunning hhandler).1, (h.send hrunning hhandler).2.1, fun hcancelled =>
        Nat.le_add_right_of_le ((h.send hrunning hhandler).2.2 hcancelled)⟩ }

theorem handleTimeout (h : p.Valid identifier r rs) (hrunning : p.running = true)
    (hhandler : p.handler = .handleTimeout) (htimer : p.cancelled = true ∨ p.expiry ≤ p.now) :
    ∃ r', p.handleTimeout.Valid identifier r' rs := by
  obtain ⟨hnumber, hsent, hreplies⟩ := h.current hrunning
  obtain ⟨hexpiry, hprinted, hcancelled⟩ := h.timeout hrunning hhandler
  by_cases hnone : p.numReplies = 0
  · -- nobody has answered, so the timer has not been cancelled
    have hnil : r.answers identifier = [] := List.eq_nil_of_length_eq_zero (hreplies ▸ hnone)
    have hlate : r.sentAt + 5 * second ≤ p.now := by
      rcases htimer with hon | hlate
      · exact absurd hnil (hcancelled.mp hon)
      · exact hexpiry ▸ hlate
    have hp : p.handleTimeout = { p with
        requests := { r with printed := [(p.now, .timedOut)] } :: rs
        expiry := p.timeSent + second, handler := .startSend, cancelled := false } := by
      simp [Pinger.handleTimeout, hnone, Pinger.print, Pinger.onLast, h.requests, hprinted, hnil]
    rw [hp]
    refine ⟨{ r with printed := [(p.now, .timedOut)] }, rfl, h.reports_cons ?_,
      h.next_cons rfl rfl, h.sent, ?_, h.current, nofun,
      fun _ _ => ⟨by rw [hsent], by simp, nofun⟩⟩
    · refine ⟨(h.reports r List.mem_cons_self).packet, .inr ⟨p.now, hlate, ?_, ?_⟩⟩
      · exact congrArg _ hnil.symm
      · intro l hl
        exact absurd (hnil ▸ hl) List.not_mem_nil
    · intro l hl
      cases List.mem_singleton.mp hl
      exact Nat.le_refl _
  · have hp : p.handleTimeout = { p with
        expiry := p.timeSent + second, handler := .startSend, cancelled := false } := by
      simp [Pinger.handleTimeout, hnone]
    rw [hp]
    refine ⟨r, h.requests, h.reports, h.next, h.sent, h.past, h.current, nofun,
      fun _ _ => ⟨by rw [hsent], ?_, nofun⟩⟩
    rw [hprinted]
    intro hnil
    rw [hnil] at hreplies
    exact hnone hreplies

theorem startSend (h : p.Valid identifier r rs) (hrunning : p.running = true)
    (hhandler : p.handler = .startSend) (htimer : p.cancelled = true ∨ p.expiry ≤ p.now)
    (ok : Bool) : ∃ r' rs', (p.startSend identifier ok).Valid identifier r' rs' := by
  obtain ⟨hnumber, hsent, -⟩ := h.current hrunning
  obtain ⟨hexpiry, hprinted, hcancelled⟩ := h.send hrunning hhandler
  cases ok with
  | false =>
    exact ⟨r, rs, h.requests, h.reports, h.next, h.sent, h.past, nofun, nofun, nofun⟩
  | true =>
    have hapart : r.sentAt + second ≤ p.now := by
      rcases htimer with hon | hlate
      · exact hcancelled hon
      · exact hexpiry ▸ hlate
    refine ⟨⟨p.now, p.sequenceNumber + 1, request identifier (p.sequenceNumber + 1), [], []⟩,
      r :: rs, congrArg _ h.requests, ?_, ?_, Nat.le_refl _, nofun, fun _ => ⟨rfl, rfl, rfl⟩,
      fun _ _ => ⟨rfl, rfl, ⟨nofun, fun hne => absurd rfl hne⟩⟩, nofun⟩
    · intro q hq
      rcases List.mem_cons.mp hq with rfl | hq
      · exact ⟨rfl, .inl rfl⟩
      · exact h.reports q hq
    · intro i older newer hnewer holder
      cases i with
      | zero =>
        cases hnewer
        cases holder
        exact ⟨hprinted, hapart, by rw [hnumber]⟩
      | succ i => exact h.next i older newer hnewer holder

theorem handleReceive (h : p.Valid identifier r rs) (hrunning : p.running = true)
    (packet : List UInt8) : ∃ r', (p.handleReceive identifier packet).Valid identifier r' rs := by
  obtain ⟨hnumber, hsent, hreplies⟩ := h.current hrunning
  have hanswers := answers_receive identifier r p.now packet
  have hreports := h.reports r List.mem_cons_self
  cases hanswer : answer identifier r.sequenceNumber packet (p.now - r.sentAt) with
  | none =>
    have hp : p.handleReceive identifier packet = { p with
        requests := { r with received := r.received ++ [(p.now, packet)] } :: rs } := by
      simp [Pinger.handleReceive, Pinger.onLast, h.requests, hnumber, hsent, hanswer]
    rw [hanswer, Option.map_none, Option.toList_none, List.append_nil] at hanswers
    rw [hp]
    refine ⟨{ r with received := r.received ++ [(p.now, packet)] }, rfl, h.reports_cons ?_,
      h.next_cons rfl rfl, h.sent, h.past, ?_, ?_, h.send⟩
    · refine ⟨hreports.packet, ?_⟩
      rw [hanswers]
      exact hreports.printed
    · rw [hanswers]
      exact h.current
    · rw [hanswers]
      exact h.timeout
  | some l =>
    have hp : p.handleReceive identifier packet = { p with
        numReplies := p.numReplies + 1
        cancelled := p.cancelled || decide (p.numReplies = 0)
        requests := ⟨r.sentAt, r.sequenceNumber, r.packet, r.received ++ [(p.now, packet)],
          r.printed ++ [(p.now, l)]⟩ :: rs } := by
      simp [Pinger.handleReceive, Pinger.onLast, Pinger.print, h.requests, hnumber, hsent, hanswer]
    rw [hanswer, Option.map_some, Option.toList_some] at hanswers
    rw [hp]
    refine ⟨_, rfl, h.reports_cons ⟨hreports.packet, ?_⟩, h.next_cons rfl rfl, h.sent, ?_,
      fun _ => ⟨hnumber, hsent, ?_⟩, fun _ hhandler => ?_, fun _ hhandler => ?_⟩
    · rcases hreports.printed with heq | ⟨t, hlate, heq, hle⟩
      · exact .inl ((congrArg (· ++ [(p.now, l)]) heq).trans hanswers.symm)
      · refine .inr ⟨t, hlate, ?_, fun x hx => ?_⟩
        · exact (congrArg (· ++ [(p.now, l)]) heq).trans (congrArg _ hanswers.symm)
        · rcases List.mem_append.mp (hanswers ▸ hx) with hx | hx
          · exact hle x hx
          · cases List.mem_singleton.mp hx
            exact h.past (t, .timedOut) (heq ▸ List.mem_cons_self)
    · intro x hx
      rcases List.mem_append.mp hx with hx | hx
      · exact h.past x hx
      · cases List.mem_singleton.mp hx
        exact Nat.le_refl _
    · have hlength := congrArg List.length hanswers
      rw [List.length_append, ← hreplies] at hlength
      exact hlength.symm
    · obtain ⟨hexpiry, hprinted, hcancelled⟩ := h.timeout hrunning hhandler
      refine ⟨hexpiry, (congrArg (· ++ [(p.now, l)]) hprinted).trans hanswers.symm, fun _ => ?_,
        fun _ => ?_⟩
      · intro hnil
        exact absurd (hanswers.symm.trans hnil) (by simp)
      · -- it is the first reply, or the timer has been cancelled by the first one
        by_cases hfirst : p.numReplies = 0
        · simp [hfirst]
        · have hne : r.answers identifier ≠ [] := by
            intro hnil
            rw [hnil] at hreplies
            exact hfirst hreplies
          simp [hcancelled.mpr hne]
    · obtain ⟨hexpiry, hprinted, hcancelled⟩ := h.send hrunning hhandler
      refine ⟨hexpiry, by simp, fun hon => ?_⟩
      rcases Bool.or_eq_true_iff.mp hon with hon | hfirst
      · exact hcancelled hon
      · -- nobody had answered before, so the timeout has been reported
        have hnil : r.answers identifier = [] :=
          List.eq_nil_of_length_eq_zero (hreplies ▸ of_decide_eq_true hfirst)
        rcases hreports.printed with heq | ⟨t, hlate, heq, -⟩
        · exact absurd (heq.trans hnil) hprinted
        · have hpast := h.past (t, .timedOut) (heq ▸ List.mem_cons_self)
          simp only at hpast
          simp only [second] at *
          omega

theorem step (h : p.Valid identifier r rs) {l : Label} {p' : Pinger}
    (hstep : Ping.step identifier p l = some p') : ∃ r' rs', p'.Valid identifier r' rs' := by
  cases l with
  | tick n =>
    cases hstep
    exact ⟨r, rs, h.tick n⟩
  | timer ok =>
    obtain ⟨henabled, hstep⟩ := Option.ite_none_right_eq_some.mp hstep
    rw [Bool.and_eq_true, Bool.or_eq_true, decide_eq_true_iff] at henabled
    cases hhandler : p.handler with
    | handleTimeout =>
      rw [hhandler] at hstep
      cases hstep
      obtain ⟨r', hr'⟩ := h.handleTimeout henabled.1 hhandler henabled.2
      exact ⟨r', rs, hr'⟩
    | startSend =>
      rw [hhandler] at hstep
      cases hstep
      exact h.startSend henabled.1 hhandler henabled.2 ok
  | receive packet =>
    obtain ⟨henabled, hstep⟩ := Option.ite_none_right_eq_some.mp hstep
    cases hstep
    obtain ⟨r', hr'⟩ := h.handleReceive (Bool.and_eq_true_iff.mp henabled).1 packet
    exact ⟨r', rs, hr'⟩

theorem init (identifier : UInt16) (t : ℕ) :
    ∃ r rs, (pinger identifier t).init.Valid identifier r rs := by
  refine ⟨⟨t, 1, request identifier 1, [], []⟩, [], rfl, fun q hq => ?_, nofun, Nat.le_refl _,
    nofun, fun _ => ⟨rfl, rfl, rfl⟩, fun _ _ => ⟨rfl, rfl, nofun, fun hne => absurd rfl hne⟩, nofun⟩
  cases List.mem_singleton.mp hq
  exact ⟨rfl, .inl rfl⟩

end Pinger.Valid

/-- A reply to the first request, none in time to the second and a late one. -/
def lateReply : List Label :=
  let packet : UInt8 → List UInt8 := fun n => [0x45, 0, 0, 28, 0, 0, 0, 0, 64, 1, 0, 0, 127, 0, 0,
    1, 127, 0, 0, 1, 0, 0, 0, 0, 0, 7, 0, n]
  [.tick 30, .receive (packet 1), .timer true, .tick second, .timer true, .receive (packet 1),
    .tick (5 * second), .timer true, .receive (packet 2), .timer true]

end Sundries.Ping
