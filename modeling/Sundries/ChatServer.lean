import Sundries.Chat
import Sundries.Machine

/-!
# The chat server

`chat_server`, its `chat_room` and the `chat_session`s as the handlers that one `io_context` runs
one after the other: a label is the completion of an asynchronous operation, or bytes that
arrive.  The destructor of a session, which runs when no operation is left, is not modelled.
-/
namespace Sundries.Chat

/-- `max_recent_msgs` -/
def maxRecentMsgs : ℕ := 100

/-- A `chat_session`.  `joined` and `departed` are how many messages the room had had when the
session joined it and left it, `received` all that came from its client, and `sent` all that went
to it by the writes whose handlers have run. -/
structure Session where
  reader : Reader framing
  writer : Writer
  joined : ℕ
  departed : Option ℕ
  received : List Char
  sent : List Char

/-- `participants_` are the sessions that have not departed; `log` are all messages that the room
has been given, each with the session it came from. -/
structure Server where
  sessions : List Session
  recentMsgs : List Message
  log : List (ℕ × Message)

namespace Session

/-- `chat_room::leave`, after `n` messages. -/
def leave (x : Session) (n : ℕ) : Session := { x with departed := some (x.departed.getD n) }

/-- `deliver`, if the session is in the room. -/
def deliver (x : Session) (m : Message) : Session :=
  if x.departed.isNone then { x with writer := x.writer.deliver m } else x

/-- All that may have gone to the client: an `async_write` sends before its handler runs. -/
def outgoing (x : Session) : List Char := x.sent ++ x.writer.underWay

/-- More arrives from the client. -/
def receive (x : Session) (bytes : List Char) : Session :=
  { x with reader := x.reader.receive bytes, received := x.received ++ bytes }

/-- `handle_read_header` without an error. -/
def handleReadHeader (x : Session) (n : ℕ) : Option Session :=
  x.reader.readHeader.map fun r =>
    if r.ended then { x with reader := r }.leave n else { x with reader := r }

/-- `handle_read_header` and `handle_read_body` with an error. -/
def failRead (x : Session) (n : ℕ) : Option Session :=
  if x.reader.ended then none else some ({ x with reader := x.reader.stop }.leave n)

/-- `handle_write`; with an error, some of the message may have been sent. -/
def handleWrite (x : Session) (n : ℕ) : Option ℕ → Option Session
  | none => x.writer.handleWrite.map fun (m, w) => { x with writer := w, sent := x.sent ++ m.data }
  | some k => x.writer.failWrite.map fun (m, w) =>
      { x with writer := w, sent := x.sent ++ m.data.take k }.leave n

end Session

/-- `while (recent_msgs_.size() > max_recent_msgs) recent_msgs_.pop_front();` -/
def trim : List Message → List Message
  | [] => []
  | m :: ms => if maxRecentMsgs < (m :: ms).length then trim ms else m :: ms

namespace Server

/-- `chat_session::start`: the new session joins the room. -/
def join (s : Server) : Server :=
  { s with
    sessions := s.sessions ++
      [⟨.start framing, s.recentMsgs.foldl Writer.deliver .start, s.log.length, none, [], []⟩] }

/-- `chat_room::deliver` -/
def deliver (s : Server) (i : ℕ) (m : Message) : Server where
  sessions := s.sessions.map fun x => x.deliver m
  recentMsgs := trim (s.recentMsgs ++ [m])
  log := s.log ++ [(i, m)]

/-- A handler of the session `i`. -/
def onSession (s : Server) (i : ℕ) (handler : Session → Option Session) : Option Server :=
  s.sessions[i]?.bind fun x =>
    (handler x).map fun x' => { s with sessions := s.sessions.set i x' }

/-- `handle_read_body` without an error. -/
def handleReadBody (s : Server) (i : ℕ) : Option Server :=
  s.sessions[i]?.bind fun x =>
    x.reader.readBody.map fun (m, r) =>
      { s with sessions := s.sessions.set i { x with reader := r } }.deliver i m

end Server

inductive Label where
  | accept (ok : Bool)
  | receive (i : ℕ) (bytes : List Char)
  | readHeader (i : ℕ)
  | readBody (i : ℕ)
  | readError (i : ℕ)
  | write (i : ℕ) (failed : Option ℕ)
  deriving DecidableEq

def Server.step (s : Server) : Label → Option Server
  -- `start_accept` follows in both cases
  | .accept ok => some (if ok then s.join else s)
  | .receive i bytes => s.onSession i fun x => some (x.receive bytes)
  | .readHeader i => s.onSession i fun x => x.handleReadHeader s.log.length
  | .readBody i => s.handleReadBody i
  | .readError i => s.onSession i fun x => x.failRead s.log.length
  | .write i failed => s.onSession i fun x => x.handleWrite s.log.length failed

def server : Machine Server Label where
  init := ⟨[], [], []⟩
  step := Server.step

/-! ## What holds in every state -/

/-- What the room has been told by the session `i`. -/
def sentBy (i : ℕ) (log : List (ℕ × Message)) : List Message :=
  (log.filter fun p => p.1 = i).map Prod.snd

/-- What a session is to be told: the messages while it is in the room, and the recent ones when
it joins. -/
def Session.heard (x : Session) (log : List (ℕ × Message)) : List Message :=
  ((log.take (x.departed.getD log.length)).drop (x.joined - maxRecentMsgs)).map Prod.snd

/-- A session that has said `ms`. -/
structure Session.Valid (x : Session) (log : List (ℕ × Message)) (ms : List Message) : Prop where
  reads : x.reader.Follows x.received ms
  sends : x.writer.Sends x.sent (x.heard log)
  joined : x.joined ≤ log.length
  departed : ∀ n ∈ x.departed, n ≤ log.length
  busy : x.departed = none → x.writer.Busy

structure Server.Valid (s : Server) : Prop where
  recent : s.recentMsgs = (s.log.drop (s.log.length - maxRecentMsgs)).map Prod.snd
  senders : ∀ p ∈ s.log, p.1 < s.sessions.length
  sessions : ∀ (i : ℕ) (x : Session), s.sessions[i]? = some x → x.Valid s.log (sentBy i s.log)

theorem trim_eq (ms : List Message) : trim ms = ms.drop (ms.length - maxRecentMsgs) := by
  induction ms with
  | nil => rfl
  | cons m ms ih =>
    rw [trim]
    split
    · rename_i hlt
      rw [List.length_cons] at hlt
      rw [ih, List.length_cons, Nat.succ_sub (by omega), List.drop_succ_cons]
    · rename_i hge
      rw [Nat.sub_eq_zero_of_le (by omega), List.drop_zero]

theorem sentBy_concat (i j : ℕ) (m : Message) (log : List (ℕ × Message)) :
    sentBy i (log ++ [(j, m)]) = if j = i then sentBy i log ++ [m] else sentBy i log := by
  by_cases heq : j = i <;> simp [sentBy, List.filter_append, heq]

/-! ### A session -/

section Session
variable {x : Session} {log : List (ℕ × Message)} {ms : List Message}

@[simp] theorem heard_leave (x : Session) (log : List (ℕ × Message)) :
    (x.leave log.length).heard log = x.heard log := by
  rw [Session.heard, Session.heard, Session.leave]
  cases x.departed <;> rfl

theorem Session.Valid.leave (h : x.Valid log ms) : (x.leave log.length).Valid log ms where
  reads := h.reads
  sends := by
    rw [heard_leave]
    exact h.sends
  joined := h.joined
  departed := by
    intro n hn
    cases Option.mem_some.mp hn
    cases hx : x.departed with
    | none => exact le_rfl
    | some n => exact h.departed n hx
  busy := nofun

theorem Session.Valid.receive (h : x.Valid log ms) (bytes : List Char) :
    (x.receive bytes).Valid log ms :=
  { h with reads := h.reads.receive bytes }

theorem Session.Valid.handleReadHeader (h : x.Valid log ms) {x' : Session}
    (hx : x.handleReadHeader log.length = some x') : x'.Valid log ms := by
  obtain ⟨r, hr, rfl⟩ := Option.map_eq_some_iff.mp hx
  have hnext : Session.Valid { x with reader := r } log ms :=
    { h with reads := h.reads.readHeader hr }
  split
  · exact hnext.leave
  · exact hnext

theorem Session.Valid.failRead (h : x.Valid log ms) {x' : Session}
    (hx : x.failRead log.length = some x') : x'.Valid log ms := by
  obtain ⟨-, hx⟩ := Option.ite_none_left_eq_some.mp hx
  cases hx
  have hnext : Session.Valid { x with reader := x.reader.stop } log ms :=
    { h with reads := h.reads.stop }
  exact hnext.leave

theorem Session.Valid.handleWrite (h : x.Valid log ms) {x' : Session} {failed : Option ℕ}
    (hx : x.handleWrite log.length failed = some x') : x'.Valid log ms := by
  cases failed with
  | none =>
    obtain ⟨⟨m, w⟩, hw, rfl⟩ := Option.map_eq_some_iff.mp hx
    obtain ⟨hsends, hbusy⟩ := h.sends.handleWrite hw
    exact { h with sends := hsends, busy := fun _ => hbusy }
  | some k =>
    obtain ⟨⟨m, w⟩, hw, rfl⟩ := Option.map_eq_some_iff.mp hx
    have hsends : w.Sends (x.sent ++ m.data.take k) ((x.leave log.length).heard log) := by
      rw [heard_leave]
      exact h.sends.failWrite hw k
    exact ⟨h.reads, hsends, h.joined, h.leave.departed, nofun⟩

/-- The session has said one more message. -/
theorem Session.Valid.readBody (h : x.Valid log ms) {m : Message} {r : Reader framing}
    (hr : x.reader.readBody = some (m, r)) :
    Session.Valid { x with reader := r } log (ms ++ [m]) :=
  { h with reads := h.reads.readBody hr }

theorem heard_concat (h : x.Valid log ms) (p : ℕ × Message) :
    x.heard (log ++ [p]) = if x.departed = none then x.heard log ++ [p.2] else x.heard log := by
  have hjoined := h.joined
  rw [Session.heard, Session.heard]
  cases hdeparted : x.departed with
  | none =>
    rw [if_pos rfl, Option.getD_none, Option.getD_none, List.take_length, List.take_length,
      List.drop_append_of_le_length (by omega), List.map_append, List.map_singleton]
  | some n =>
    have hn := h.departed n hdeparted
    rw [if_neg (by simp), Option.getD_some, Option.getD_some, List.take_append_of_le_length hn]

/-- The room is given a message. -/
theorem Session.Valid.deliver (h : x.Valid log ms) (p : ℕ × Message) :
    (x.deliver p.2).Valid (log ++ [p]) ms := by
  have hheard := heard_concat h p
  have hjoined : x.joined ≤ (log ++ [p]).length := Nat.le_trans h.joined (by simp)
  have hdeparted : ∀ n ∈ x.departed, n ≤ (log ++ [p]).length :=
    fun n hn => Nat.le_trans (h.departed n hn) (by simp)
  by_cases hin : x.departed = none
  · have hsends := h.sends.deliver p.2
    rw [if_pos hin] at hheard
    rw [← hheard] at hsends
    rw [Session.deliver, if_pos (by simp [hin])]
    exact ⟨h.reads, hsends, hjoined, hdeparted, fun _ => (h.busy hin).deliver p.2⟩
  · have hsends := h.sends
    rw [if_neg hin] at hheard
    rw [← hheard] at hsends
    rw [Session.deliver, if_neg (by simpa using hin)]
    exact ⟨h.reads, hsends, hjoined, hdeparted, h.busy⟩

end Session

/-! ### The server -/

theorem foldl_deliver {w : Writer} {sent : List Char} {ms : List Message}
    (h : w.Sends sent ms) (hbusy : w.Busy) (rs : List Message) :
    (rs.foldl Writer.deliver w).Sends sent (ms ++ rs) ∧ (rs.foldl Writer.deliver w).Busy := by
  induction rs generalizing w ms with
  | nil => exact ⟨by rwa [List.append_nil], hbusy⟩
  | cons r rs ih =>
    have hnext := ih (h.deliver r) (hbusy.deliver r)
    rwa [List.append_assoc] at hnext

theorem Server.Valid.init : server.init.Valid := ⟨rfl, nofun, nofun⟩

theorem Server.Valid.join {s : Server} (h : s.Valid) : s.join.Valid where
  recent := h.recent
  senders := by
    intro p hp
    have := h.senders p hp
    simp only [Server.join, List.length_append, List.length_singleton]
    omega
  sessions := by
    intro i x hx
    rcases Nat.lt_trichotomy i s.sessions.length with hlt | rfl | hgt
    · rw [Server.join, List.getElem?_append_left hlt] at hx
      exact h.sessions i x hx
    · -- nobody has spoken for the new session
      have hnone : sentBy s.sessions.length s.log = [] := by
        rw [sentBy, List.map_eq_nil_iff, List.filter_eq_nil_iff]
        intro p hp
        simpa using Nat.ne_of_lt (h.senders p hp)
      simp only [Server.join, List.getElem?_concat_length, Option.some.injEq] at hx
      subst x
      obtain ⟨hsends, hbusy⟩ := foldl_deliver .start .start s.recentMsgs
      refine ⟨?_, ?_, le_rfl, nofun, fun _ => hbusy⟩
      · rw [Server.join, hnone]
        exact .start
      · simpa [Server.join, Session.heard, ← h.recent] using hsends
    · rw [Server.join, List.getElem?_eq_none (by simp; omega)] at hx
      cases hx

theorem onSession_cases {s s' : Server} {i : ℕ} {handler : Session → Option Session}
    (h : s.onSession i handler = some s') :
    ∃ x x', s.sessions[i]? = some x ∧ handler x = some x' ∧
      s' = { s with sessions := s.sessions.set i x' } := by
  obtain ⟨x, hx, h⟩ := Option.bind_eq_some_iff.mp h
  obtain ⟨x', hx', rfl⟩ := Option.map_eq_some_iff.mp h
  exact ⟨x, x', hx, hx', rfl⟩

theorem Server.Valid.onSession {s s' : Server} (h : s.Valid) {i : ℕ}
    {handler : Session → Option Session} (hs : s.onSession i handler = some s')
    (hkeeps : ∀ x x' ms, handler x = some x' → x.Valid s.log ms → x'.Valid s.log ms) :
    s'.Valid := by
  obtain ⟨x, x', hx, hx', rfl⟩ := onSession_cases hs
  refine ⟨h.recent, by simpa using h.senders, fun j y hy => ?_⟩
  rw [List.getElem?_set] at hy
  split at hy
  · rename_i hij
    subst hij
    rw [if_pos (List.getElem?_eq_some_iff.mp hx).1] at hy
    cases hy
    exact hkeeps x x' _ hx' (h.sessions i x hx)
  · exact h.sessions j y hy

theorem handleReadBody_cases {s s' : Server} {i : ℕ} (h : s.handleReadBody i = some s') :
    ∃ x m r, s.sessions[i]? = some x ∧ x.reader.readBody = some (m, r) ∧
      s' = { s with sessions := s.sessions.set i { x with reader := r } }.deliver i m := by
  obtain ⟨x, hx, h⟩ := Option.bind_eq_some_iff.mp h
  obtain ⟨⟨m, r⟩, hr, rfl⟩ := Option.map_eq_some_iff.mp h
  exact ⟨x, m, r, hx, hr, rfl⟩

theorem Server.Valid.handleReadBody {s s' : Server} (h : s.Valid) {i : ℕ}
    (hs : s.handleReadBody i = some s') : s'.Valid := by
  obtain ⟨x, m, r, hx, hr, rfl⟩ := handleReadBody_cases hs
  have hlt := (List.getElem?_eq_some_iff.mp hx).1
  refine ⟨?_, ?_, fun j y hy => ?_⟩
  · have hrecent : s.recentMsgs ++ [m] =
        ((s.log ++ [(i, m)]).drop (s.log.length - maxRecentMsgs)).map Prod.snd := by
      rw [h.recent, List.drop_append_of_le_length (Nat.sub_le ..), List.map_append,
        List.map_singleton]
    have hstart : s.log.length - maxRecentMsgs +
        (((s.log ++ [(i, m)]).drop (s.log.length - maxRecentMsgs)).length - maxRecentMsgs) =
          (s.log ++ [(i, m)]).length - maxRecentMsgs := by
      simp only [List.length_drop, List.length_append, List.length_singleton]
      omega
    simp only [Server.deliver]
    rw [trim_eq, hrecent, ← List.map_drop, List.drop_drop, List.length_map, hstart]
  · intro p hp
    simp only [Server.deliver, List.length_map, List.length_set]
    rcases List.mem_append.mp hp with hp | hp
    · exact h.senders p hp
    · cases List.mem_singleton.mp hp
      exact hlt
  · simp only [Server.deliver, List.getElem?_map, Option.map_eq_some_iff, List.getElem?_set] at hy
    obtain ⟨z, hz, rfl⟩ := hy
    rw [Server.deliver, sentBy_concat]
    split at hz
    · rename_i hij
      subst hij
      cases hz
      rw [if_pos rfl]
      exact ((h.sessions i x hx).readBody hr).deliver (i, m)
    · rename_i hij
      rw [if_neg hij]
      exact (h.sessions j z hz).deliver (i, m)

theorem Server.Valid.step {s s' : Server} (h : s.Valid) {l : Label}
    (hs : server.step s l = some s') : s'.Valid := by
  cases l with
  | accept ok =>
    cases hs
    cases ok with
    | false => exact h
    | true => exact h.join
  | receive i bytes =>
    refine h.onSession hs fun x x' ms hx hvalid => ?_
    cases hx
    exact hvalid.receive bytes
  | readHeader i => exact h.onSession hs fun x x' ms hx hvalid => hvalid.handleReadHeader hx
  | readBody i => exact h.handleReadBody hs
  | readError i => exact h.onSession hs fun x x' ms hx hvalid => hvalid.failRead hx
  | write i failed => exact h.onSession hs fun x x' ms hx hvalid => hvalid.handleWrite hx

theorem valid_of_reachable {s : Server} (h : server.Reachable s) : s.Valid :=
  h.invariant .init fun _ _ _ hvalid hs => hvalid.step hs

/-- **The room broadcasts.**  After every run the room has been given, by each session, the messages
whose frames its client has sent, one after the other and, once the session has to wait, all of
them; and what has gone to a client, the write under way included, is one stretch of what the room
has been given, from the recent messages on, with what is still queued as long as the session is
in the room. -/
theorem room_broadcasts {s : Server} (h : server.Reachable s) :
    s.recentMsgs = (s.log.drop (s.log.length - maxRecentMsgs)).map Prod.snd ∧
    ∀ (i : ℕ) (x : Session), s.sessions[i]? = some x →
      (Frame.bytes (sentBy i s.log) <+: x.received ∧
        (x.reader.Waits → ∀ ms : List Message, Frame.bytes ms <+: x.received →
          ms <+: sentBy i s.log)) ∧
      x.outgoing <+: Frame.bytes (x.heard s.log) ∧
      (x.departed = none → x.writer.Busy ∧
        x.sent ++ Frame.bytes x.writer.writeMsgs = Frame.bytes (x.heard s.log)) := by
  have hvalid := valid_of_reachable h
  refine ⟨hvalid.recent, fun i x hx => ?_⟩
  have hsession := hvalid.sessions i x hx
  refine ⟨⟨hsession.reads.begun, fun hwaits ms => hsession.reads.complete hwaits⟩,
    hsession.sends.underWay, fun hin => ?_⟩
  have hbusy := hsession.busy hin
  exact ⟨hbusy, hsession.sends.rest hbusy⟩

/-- A client sends a message, another one comes and the first one goes. -/
def lateGuest : List Label :=
  [.accept true, .receive 0 "   2hi 9".toList, .readHeader 0, .readBody 0, .accept true,
    .write 1 none, .receive 0 "99x".toList, .readHeader 0, .write 0 (some 3)]

theorem lateGuest_told : ∃ s, server.run server.init lateGuest = some s ∧
    ∀ x, s.sessions[1]? = some x →
      Frame.bytes (sentBy 1 s.log) <+: x.received ∧
        x.outgoing <+: Frame.bytes (x.heard s.log) := by
  obtain ⟨s, hs⟩ : ∃ s, server.run server.init lateGuest = some s := by
    apply Option.isSome_iff_exists.mp
    decide +kernel
  have hall := room_broadcasts (Machine.reachable_of_run lateGuest hs)
  exact ⟨s, hs, fun x hx => ⟨(hall.2 1 x hx).1.1, (hall.2 1 x hx).2.1⟩⟩

end Sundries.Chat
