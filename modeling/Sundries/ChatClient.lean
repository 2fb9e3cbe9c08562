import Sundries.ChatServer

/-!
# The chat clients and the server together

Any number of clients, each with its standard input, and the server.  Of a client, the thread of
`main` reads lines and posts handlers to the thread that runs the `io_context`.  A connection is two
streams of bytes that arrive in the order in which they have been sent, any number at a time; what
an `async_write` sends can arrive before its handler runs.  The client is modelled from `handle_connect` on: a write that fails before it closes the socket and
nothing is ever sent.
-/
namespace Sundries.Chat

/-- What `main` posts. -/
inductive Post where
  | write (m : Message)
  | close

/-- A `chat_client` and its `main`.  `line` of standard input has been read up to `rest`;
`readOnOpen` and `writeOnOpen` say whether the socket was open when the operation under way was
begun, `sent` is all that the writes have sent whose handlers have run, and `cout` all that has been
printed. -/
structure Client where
  input : List Char
  rest : List Char
  looping : Bool
  posts : List Post
  socketOpen : Bool
  reader : Reader framing
  readOnOpen : Bool
  writer : Writer
  writeOnOpen : Bool
  received : List Char
  sent : List Char
  cout : List Char

/-- `max_body_length + 1` characters are room for a line. -/
def getline (s : List Char) : Option (List Char × List Char) := Istream.getlineInto maxBodyLength s

theorem length_of_getline {s line rest : List Char} (h : getline s = some (line, rest)) :
    rest.length < s.length :=
  Istream.length_of_getline (Option.filter_eq_some_iff.mp h).1

/-- The messages of the lines of a text, up to one that is too long. -/
def messagesOf (s : List Char) : List Message :=
  match hline : getline s with
  | none => []
  | some (line, rest) =>
    have := length_of_getline hline
    messageOf line :: messagesOf rest
termination_by s.length

theorem messagesOf_of_some {s line rest : List Char} (h : getline s = some (line, rest)) :
    messagesOf s = messageOf line :: messagesOf rest := by
  rw [messagesOf]
  split
  · rename_i hline
    rw [h] at hline
    cases hline
  · rename_i hline
    rw [h] at hline
    cases hline
    rfl

/-- What `handle_read_body` prints. -/
def printed (m : Message) : List Char := m.body ++ ['\n']

namespace Client

/-- A client whose connection has been made; the first read is under way. -/
def start (input : List Char) : Client :=
  ⟨input, input, true, [], true, .start framing, true, .start, true, [], [], []⟩

/-- One more round of the loop in `main`. -/
def loop (c : Client) : Option Client :=
  if c.looping then
    match getline c.rest with
    | some (line, rest) => some { c with rest := rest, posts := c.posts ++ [.write (messageOf line)] }
    | none => some { c with looping := false, posts := c.posts ++ [.close] }
  else none

/-- `do_close` -/
def doClose (c : Client) : Client := { c with socketOpen := false }

/-- `do_write` -/
def doWrite (c : Client) (m : Message) : Client :=
  { c with
    writer := c.writer.deliver m
    writeOnOpen := if c.writer.writeMsgs.isEmpty then c.socketOpen else c.writeOnOpen }

/-- All that may have gone to the server: an `async_write` on an open socket sends before its handler
runs. -/
def outgoing (c : Client) : List Char :=
  c.sent ++ if c.writeOnOpen then c.writer.underWay else []

/-- The first handler that has been posted. -/
def runPost (c : Client) : Option Client :=
  match c.posts with
  | [] => none
  | .write m :: posts => some ({ c with posts := posts }.doWrite m)
  | .close :: posts => some { c with posts := posts }.doClose

/-- `handle_write`; with an error, some of the message may have been sent. -/
def handleWrite (c : Client) : Option ℕ → Option Client
  | none =>
    if c.writeOnOpen then
      c.writer.handleWrite.map fun (m, w) =>
        { c with writer := w, writeOnOpen := c.socketOpen, sent := c.sent ++ m.data }
    else none
  | some k =>
    c.writer.failWrite.map fun (m, w) =>
      { c with
        writer := w
        sent := c.sent ++ m.data.take (if c.writeOnOpen then k else 0) }.doClose

/-- `handle_read_header` without an error. -/
def handleReadHeader (c : Client) : Option Client :=
  if c.readOnOpen then
    c.reader.readHeader.map fun r =>
      if r.ended then { c with reader := r }.doClose
      else { c with reader := r, readOnOpen := c.socketOpen }
  else none

/-- `handle_read_body` without an error. -/
def handleReadBody (c : Client) : Option Client :=
  if c.readOnOpen then
    c.reader.readBody.map fun (m, r) =>
      { c with reader := r, readOnOpen := c.socketOpen, cout := c.cout ++ printed m }
  else none

/-- `handle_read_header` and `handle_read_body` with an error. -/
def failRead (c : Client) : Option Client :=
  if c.reader.ended then none else some { c with reader := c.reader.stop }.doClose

/-- More arrives from the server. -/
def receive (c : Client) (bytes : List Char) : Client :=
  { c with reader := c.reader.receive bytes, received := c.received ++ bytes }

end Client

inductive Action where
  | loop
  | runPost
  | write (failed : Option ℕ)
  | readHeader
  | readBody
  | readError

def Client.step (c : Client) : Action → Option Client
  | .loop => c.loop
  | .runPost => c.runPost
  | .write failed => c.handleWrite failed
  | .readHeader => c.handleReadHeader
  | .readBody => c.handleReadBody
  | .readError => c.failRead

/-- The connection of the client `i` is accepted as the session `i`. -/
structure System where
  server : Server
  clients : List Client

/-- `toServer` and `toClient`: so many bytes arrive at the other end of a connection. -/
inductive Event where
  | connect (input : List Char)
  | client (i : ℕ) (a : Action)
  | server (l : Label)
  | toServer (i n : ℕ)
  | toClient (i n : ℕ)

namespace System

/-- A session can begin only for a client that has connected, what it receives is for `toServer` to
say, and a write that fails has sent at least what has arrived. -/
def allows (s : System) : Label → Bool
  | .accept ok => !ok || s.server.sessions.length < s.clients.length
  | .receive _ _ => false
  | .write i (some k) => s.clients[i]?.all fun c => s.server.sessions[i]?.all fun x =>
      c.received.length ≤ x.sent.length + k
  | _ => true

/-- A write of a client that fails has sent at least what has arrived, too. -/
def allowsClient (s : System) (i : ℕ) : Action → Bool
  | .write (some k) => s.clients[i]?.all fun c => s.server.sessions[i]?.all fun x =>
      x.received.length ≤ c.sent.length + k
  | _ => true

def step (s : System) : Event → Option System
  | .connect input => some { s with clients := s.clients ++ [.start input] }
  | .client i a =>
    if s.allowsClient i a then
      s.clients[i]?.bind fun c =>
        (c.step a).map fun c' => { s with clients := s.clients.set i c' }
    else none
  | .server l =>
    if s.allows l then (s.server.step l).map fun server => { s with server := server } else none
  | .toServer i n =>
    s.clients[i]?.bind fun c => s.server.sessions[i]?.bind fun x =>
      let bytes := (c.outgoing.drop x.received.length).take n
      (s.server.step (.receive i bytes)).map fun server => { s with server := server }
  | .toClient i n =>
    s.clients[i]?.bind fun c => s.server.sessions[i]?.map fun x =>
      let bytes := (x.outgoing.drop c.received.length).take n
      { s with clients := s.clients.set i (c.receive bytes) }

end System

def system : Machine System Event where
  init := ⟨server.init, []⟩
  step := System.step

/-! ## A client -/

theorem Writer.Sends.outgoing {c : Client} {ms : List Message} (h : c.writer.Sends c.sent ms) :
    c.outgoing <+: Frame.bytes ms := by
  rw [Client.outgoing]
  split
  · exact h.underWay
  · rw [List.append_nil]
    exact h.begun

/-- The messages that are posted and not yet in the queue. -/
def written (posts : List Post) : List Message :=
  posts.filterMap fun
    | .write m => some m
    | .close => none

/-- What a client writes are the lines it has read, what it prints are the bodies of the messages
that it has received. -/
structure Client.Valid (c : Client) : Prop where
  writes : ∃ ms, c.writer.Sends c.sent ms ∧
    ms ++ written c.posts ++ messagesOf c.rest = messagesOf c.input
  prints : ∃ ms, c.reader.Follows c.received ms ∧ c.cout = ms.flatMap printed

theorem Client.Valid.start (input : List Char) : (Client.start input).Valid where
  writes := ⟨[], .start, rfl⟩
  prints := ⟨[], .start, rfl⟩

namespace Client.Valid
variable {c c' : Client}

theorem doClose (h : c.Valid) : c.doClose.Valid := ⟨h.writes, h.prints⟩

theorem loop (h : c.Valid) (hc : c.loop = some c') : c'.Valid := by
  obtain ⟨-, hc⟩ := Option.ite_none_right_eq_some.mp hc
  obtain ⟨ms, hsends, hall⟩ := h.writes
  split at hc <;> cases hc
  · rename_i line rest hline
    refine ⟨⟨ms, hsends, ?_⟩, h.prints⟩
    rw [← hall, messagesOf_of_some hline]
    simp [written]
  · refine ⟨⟨ms, hsends, ?_⟩, h.prints⟩
    rw [← hall]
    simp [written]

theorem runPost (h : c.Valid) (hc : c.runPost = some c') : c'.Valid := by
  obtain ⟨ms, hsends, hall⟩ := h.writes
  rw [Client.runPost] at hc
  split at hc <;> cases hc
  · rename_i m posts hposts
    refine ⟨⟨ms ++ [m], hsends.deliver m, ?_⟩, h.prints⟩
    rw [hposts] at hall
    simpa [written, Client.doWrite] using hall
  · rename_i posts hposts
    refine ⟨⟨ms, hsends, ?_⟩, h.prints⟩
    rw [hposts] at hall
    simpa [written, Client.doClose] using hall

theorem handleWrite (h : c.Valid) {failed : Option ℕ} (hc : c.handleWrite failed = some c') :
    c'.Valid := by
  obtain ⟨ms, hsends, hall⟩ := h.writes
  cases failed with
  | none =>
    obtain ⟨-, hc⟩ := Option.ite_none_right_eq_some.mp hc
    obtain ⟨⟨m, w⟩, hw, rfl⟩ := Option.map_eq_some_iff.mp hc
    exact ⟨⟨ms, (hsends.handleWrite hw).1, hall⟩, h.prints⟩
  | some k =>
    obtain ⟨⟨m, w⟩, hw, rfl⟩ := Option.map_eq_some_iff.mp hc
    exact ⟨⟨ms, hsends.failWrite hw _, hall⟩, h.prints⟩

theorem handleReadHeader (h : c.Valid) (hc : c.handleReadHeader = some c') : c'.Valid := by
  obtain ⟨ms, hfollows, hcout⟩ := h.prints
  obtain ⟨-, hc⟩ := Option.ite_none_right_eq_some.mp hc
  obtain ⟨r, hr, rfl⟩ := Option.map_eq_some_iff.mp hc
  have hread := hfollows.readHeader hr
  split
  · exact ⟨h.writes, ms, hread, hcout⟩
  · exact ⟨h.writes, ms, hread, hcout⟩

theorem handleReadBody (h : c.Valid) (hc : c.handleReadBody = some c') : c'.Valid := by
  obtain ⟨ms, hfollows, hcout⟩ := h.prints
  obtain ⟨-, hc⟩ := Option.ite_none_right_eq_some.mp hc
  obtain ⟨⟨m, r⟩, hr, rfl⟩ := Option.map_eq_some_iff.mp hc
  exact ⟨h.writes, ms ++ [m], hfollows.readBody hr, by simp [hcout]⟩

theorem failRead (h : c.Valid) (hc : c.failRead = some c') : c'.Valid := by
  obtain ⟨ms, hfollows, hcout⟩ := h.prints
  obtain ⟨-, hc⟩ := Option.ite_none_left_eq_some.mp hc
  cases hc
  exact ⟨h.writes, ms, hfollows.stop, hcout⟩

theorem receive (h : c.Valid) (bytes : List Char) : (c.receive bytes).Valid := by
  obtain ⟨ms, hfollows, hcout⟩ := h.prints
  exact ⟨h.writes, ms, hfollows.receive bytes, hcout⟩

theorem step (h : c.Valid) {a : Action} (hc : c.step a = some c') : c'.Valid := by
  cases a with
  | loop => exact h.loop hc
  | runPost => exact h.runPost hc
  | write failed => exact h.handleWrite hc
  | readHeader => exact h.handleReadHeader hc
  | readBody => exact h.handleReadBody hc
  | readError => exact h.failRead hc

end Client.Valid

/-! ## The connections -/

/-- A beginning of `p ++ q` that is no longer than `p` and `k` more. -/
theorem isPrefix_append_take {l p q : List Char} {k : ℕ} (h : l <+: p ++ q)
    (hk : l.length ≤ p.length + k) : l <+: p ++ q.take k := by
  rw [← List.take_length_add_append]
  exact List.prefix_take_iff.mpr ⟨h, hk⟩

theorem doWrite_outgoing (c : Client) (m : Message) : c.outgoing <+: (c.doWrite m).outgoing := by
  by_cases hempty : c.writer.writeMsgs.isEmpty = true
  · have hnone : c.writer.underWay = [] := by
      rw [Writer.underWay, List.isEmpty_iff.mp hempty]
      cases c.writer.writing <;> rfl
    rw [Client.outgoing, hnone, ite_self, List.append_nil]
    exact List.prefix_append ..
  · have hopen : (c.doWrite m).writeOnOpen = c.writeOnOpen := if_neg hempty
    rw [Client.outgoing, Client.outgoing, hopen]
    refine (List.prefix_append_right_inj c.sent).mpr ?_
    split
    · exact c.writer.underWay_deliver m
    · exact List.prefix_rfl

/-- **What a step of a client does to its connection.**  What has arrived of its bytes remains a
beginning of all that may have gone. -/
theorem client_step {c c' : Client} {a : Action} (h : c.step a = some c') {arrived : List Char}
    (harrived : arrived <+: c.outgoing)
    (hfailed : ∀ k, a = .write (some k) → arrived.length ≤ c.sent.length + k) :
    c'.received = c.received ∧ arrived <+: c'.outgoing := by
  cases a with
  | loop =>
    obtain ⟨-, h⟩ := Option.ite_none_right_eq_some.mp h
    split at h <;> cases h <;> exact ⟨rfl, harrived⟩
  | runPost =>
    rw [Client.step, Client.runPost] at h
    split at h <;> cases h
    · exact ⟨rfl, harrived.trans (doWrite_outgoing _ _)⟩
    · exact ⟨rfl, harrived⟩
  | write failed =>
    cases failed with
    | none =>
      obtain ⟨hopen, h⟩ := Option.ite_none_right_eq_some.mp h
      obtain ⟨⟨m, w⟩, hw, rfl⟩ := Option.map_eq_some_iff.mp h
      obtain ⟨hwriting, hmsgs, -⟩ := Writer.handleWrite_cases hw
      rw [Client.outgoing, if_pos hopen, Writer.underWay_of_writing hwriting hmsgs] at harrived
      exact ⟨rfl, harrived.trans (List.prefix_append ..)⟩
    | some k =>
      obtain ⟨⟨m, w⟩, hw, rfl⟩ := Option.map_eq_some_iff.mp h
      obtain ⟨hwriting, -, -, ms, hmsgs⟩ := Writer.failWrite_cases hw
      refine ⟨rfl, List.IsPrefix.trans ?_ (List.prefix_append ..)⟩
      rw [Client.outgoing, Writer.underWay_of_writing hwriting hmsgs] at harrived
      split at harrived
      · rename_i hopen
        simp only [Client.doClose, if_pos hopen]
        exact isPrefix_append_take harrived (hfailed k rfl)
      · rw [List.append_nil] at harrived
        exact harrived.trans (List.prefix_append ..)
  | readHeader =>
    obtain ⟨-, h⟩ := Option.ite_none_right_eq_some.mp h
    obtain ⟨r, -, rfl⟩ := Option.map_eq_some_iff.mp h
    split <;> exact ⟨rfl, harrived⟩
  | readBody =>
    obtain ⟨-, h⟩ := Option.ite_none_right_eq_some.mp h
    obtain ⟨⟨m, r⟩, -, rfl⟩ := Option.map_eq_some_iff.mp h
    exact ⟨rfl, harrived⟩
  | readError =>
    obtain ⟨-, h⟩ := Option.ite_none_left_eq_some.mp h
    cases h
    exact ⟨rfl, harrived⟩

/-- A session has received nothing more, and what has arrived of its bytes remains a beginning of
all that may have gone. -/
def Continues (arrived : List Char) (x x' : Session) : Prop :=
  x'.received = x.received ∧ (arrived <+: x.outgoing → arrived <+: x'.outgoing)

theorem Continues.of_eq {arrived : List Char} {x x' : Session} (hreceived : x'.received = x.received)
    (houtgoing : x.outgoing <+: x'.outgoing) : Continues arrived x x' :=
  ⟨hreceived, fun h => h.trans houtgoing⟩

theorem onSession_continues {s s' : Server} {i : ℕ} {handler : Session → Option Session}
    (h : s.onSession i handler = some s') {j : ℕ} {arrived : List Char}
    (hx : ∀ x x', i = j → s.sessions[j]? = some x → handler x = some x' → Continues arrived x x')
    {x' : Session} (hx' : s'.sessions[j]? = some x') :
    ∃ x, s.sessions[j]? = some x ∧ Continues arrived x x' := by
  obtain ⟨x, y, hi, hy, rfl⟩ := onSession_cases h
  rw [List.getElem?_set] at hx'
  split at hx'
  · rename_i hij
    subst hij
    rw [if_pos (List.getElem?_eq_some_iff.mp hi).1] at hx'
    cases hx'
    exact ⟨x, hi, hx x _ rfl hi hy⟩
  · exact ⟨x', hx', rfl, id⟩

theorem deliver_continues (arrived : List Char) (x : Session) (m : Message) :
    Continues arrived x (x.deliver m) := by
  rw [Session.deliver]
  split
  · refine .of_eq rfl ?_
    simp only [Session.outgoing, List.prefix_append_right_inj]
    exact x.writer.underWay_deliver m
  · exact .of_eq rfl List.prefix_rfl

theorem handleReadBody_continues {s s' : Server} {i : ℕ} (h : s.handleReadBody i = some s')
    (arrived : List Char) {j : ℕ} {x' : Session} (hx' : s'.sessions[j]? = some x') :
    ∃ x, s.sessions[j]? = some x ∧ Continues arrived x x' := by
  obtain ⟨x, m, r, hi, -, rfl⟩ := handleReadBody_cases h
  simp only [Server.deliver, List.getElem?_map, Option.map_eq_some_iff, List.getElem?_set] at hx'
  obtain ⟨y, hy, rfl⟩ := hx'
  split at hy
  · rename_i hij
    subst hij
    rw [if_pos (List.getElem?_eq_some_iff.mp hi).1] at hy
    cases hy
    exact ⟨x, hi, deliver_continues arrived { x with reader := r } m⟩
  · exact ⟨y, hy, deliver_continues arrived y m⟩

theorem handleWrite_continues {x x' : Session} {n : ℕ} {failed : Option ℕ} {arrived : List Char}
    (h : x.handleWrite n failed = some x')
    (hfailed : ∀ k, failed = some k → arrived.length ≤ x.sent.length + k) :
    Continues arrived x x' := by
  cases failed with
  | none =>
    obtain ⟨⟨m, w⟩, hw, rfl⟩ := Option.map_eq_some_iff.mp h
    obtain ⟨hwriting, hmsgs, -⟩ := Writer.handleWrite_cases hw
    refine .of_eq rfl ?_
    rw [Session.outgoing, Writer.underWay_of_writing hwriting hmsgs]
    exact List.prefix_append ..
  | some k =>
    obtain ⟨⟨m, w⟩, hw, rfl⟩ := Option.map_eq_some_iff.mp h
    obtain ⟨hwriting, -, -, ms, hmsgs⟩ := Writer.failWrite_cases hw
    refine ⟨rfl, fun harrived => ?_⟩
    rw [Session.outgoing, Writer.underWay_of_writing hwriting hmsgs] at harrived
    exact (isPrefix_append_take harrived (hfailed k rfl)).trans (List.prefix_append ..)

/-- **What a step of the server does to the connections**, if it is not that bytes arrive. -/
theorem server_step {s s' : Server} {l : Label} (h : s.step l = some s')
    (hl : ∀ i bytes, l ≠ .receive i bytes) {j : ℕ} {arrived : List Char}
    (hfailed : ∀ k x, l = .write j (some k) → s.sessions[j]? = some x →
      arrived.length ≤ x.sent.length + k)
    {x' : Session} (hx' : s'.sessions[j]? = some x') :
    (∃ x, s.sessions[j]? = some x ∧ Continues arrived x x') ∨
      (j = s.sessions.length ∧ x'.received = []) := by
  cases l with
  | accept ok =>
    cases h
    cases ok with
    | false => exact .inl ⟨x', hx', rfl, id⟩
    | true =>
      simp only [if_true, Server.join] at hx'
      rcases Nat.lt_trichotomy j s.sessions.length with hlt | rfl | hgt
      · rw [List.getElem?_append_left hlt] at hx'
        exact .inl ⟨x', hx', rfl, id⟩
      · simp only [List.getElem?_concat_length, Option.some.injEq] at hx'
        subst x'
        exact .inr ⟨rfl, rfl⟩
      · rw [List.getElem?_eq_none (by simp; omega)] at hx'
        cases hx'
  | receive i bytes => exact absurd rfl (hl i bytes)
  | readHeader i =>
    refine .inl (onSession_continues h (fun x y _ _ hy => ?_) hx')
    obtain ⟨r, -, rfl⟩ := Option.map_eq_some_iff.mp hy
    split <;> exact ⟨rfl, id⟩
  | readBody i => exact .inl (handleReadBody_continues h arrived hx')
  | readError i =>
    refine .inl (onSession_continues h (fun x y _ _ hy => ?_) hx')
    obtain ⟨-, hy⟩ := Option.ite_none_left_eq_some.mp hy
    cases hy
    exact ⟨rfl, id⟩
  | write i failed =>
    refine .inl (onSession_continues h (fun x y hij hx hy => ?_) hx')
    subst hij
    exact handleWrite_continues hy fun k hk => hfailed k x (by rw [hk]) hx

theorem server_step_length {s s' : Server} {l : Label} (h : s.step l = some s') :
    s'.sessions.length = s.sessions.length + if l = .accept true then 1 else 0 := by
  cases l with
  | accept ok =>
    cases h
    cases ok <;> simp [Server.join]
  | readBody i =>
    obtain ⟨x, m, r, -, -, rfl⟩ := handleReadBody_cases h
    simp [Server.deliver]
  | receive i bytes | readHeader i | readError i | write i failed =>
    obtain ⟨x, y, -, -, rfl⟩ := onSession_cases h
    simp

/-- Every connection carries what has gone into it, in the order in which it has gone. -/
structure System.Valid (s : System) : Prop where
  server : s.server.Valid
  clients : ∀ (i : ℕ) (c : Client), s.clients[i]? = some c → c.Valid
  accepted : s.server.sessions.length ≤ s.clients.length
  upstream : ∀ (i : ℕ) (c : Client) (x : Session), s.clients[i]? = some c →
    s.server.sessions[i]? = some x → x.received <+: c.outgoing
  downstream : ∀ (i : ℕ) (c : Client) (x : Session), s.clients[i]? = some c →
    s.server.sessions[i]? = some x → c.received <+: x.outgoing
  unaccepted : ∀ (i : ℕ) (c : Client), s.clients[i]? = some c →
    s.server.sessions.length ≤ i → c.received = []

theorem System.Valid.init : system.init.Valid := by
  have hnone : ∀ (i : ℕ) (c : Client), system.init.clients[i]? ≠ some c := by
    rintro i c ⟨⟩
  exact ⟨.init, fun i c hc => absurd hc (hnone i c), le_rfl,
    fun i c x hc => absurd hc (hnone i c), fun i c x hc => absurd hc (hnone i c),
    fun i c hc => absurd hc (hnone i c)⟩

/-- Some more of a stream arrives. -/
theorem append_isPrefix {l m : List Char} (h : l <+: m) (n : ℕ) :
    l ++ (m.drop l.length).take n <+: m := by
  obtain ⟨rest, rfl⟩ := h
  rw [List.drop_left, List.prefix_append_right_inj]
  exact List.take_prefix ..

namespace System.Valid
variable {s : System}

/-- A client connects. -/
theorem connect (h : s.Valid) (input : List Char) :
    Valid { s with clients := s.clients ++ [.start input] } := by
  have hcases : ∀ (i : ℕ) (c : Client), (s.clients ++ [Client.start input])[i]? = some c →
      s.clients[i]? = some c ∨ (i = s.clients.length ∧ c = .start input) := by
    intro i c hc
    rcases Nat.lt_trichotomy i s.clients.length with hlt | rfl | hgt
    · rw [List.getElem?_append_left hlt] at hc
      exact .inl hc
    · rw [List.getElem?_concat_length] at hc
      cases hc
      exact .inr ⟨rfl, rfl⟩
    · rw [List.getElem?_eq_none (by simp; omega)] at hc
      cases hc
  -- the new client is not accepted yet
  have hno : s.server.sessions[s.clients.length]? = none := List.getElem?_eq_none h.accepted
  refine ⟨h.server, fun i c hc => ?_, ?_, fun i c x hc hx => ?_, fun i c x hc hx => ?_,
    fun i c hc hle => ?_⟩
  · obtain hc | ⟨rfl, rfl⟩ := hcases i c hc
    · exact h.clients i c hc
    · exact .start input
  · have := h.accepted
    simp only [List.length_append, List.length_singleton]
    omega
  · obtain hc | ⟨rfl, rfl⟩ := hcases i c hc
    · exact h.upstream i c x hc hx
    · exact absurd hx (by simp [hno])
  · obtain hc | ⟨rfl, rfl⟩ := hcases i c hc
    · exact h.downstream i c x hc hx
    · exact List.nil_prefix
  · obtain hc | ⟨rfl, rfl⟩ := hcases i c hc
    · exact h.unaccepted i c hc hle
    · rfl

/-- A client is exchanged for one from which no less has gone than has arrived, and to which has
come what has gone from its session. -/
theorem setClient (h : s.Valid) {i : ℕ} {c c' : Client} (hc : s.clients[i]? = some c)
    (hvalid : c'.Valid)
    (hsent : ∀ x, s.server.sessions[i]? = some x → x.received <+: c'.outgoing)
    (hreceived : c'.received = c.received ∨
      ∃ x, s.server.sessions[i]? = some x ∧ c'.received <+: x.outgoing) :
    Valid { s with clients := s.clients.set i c' } := by
  have hcases : ∀ (j : ℕ) (d : Client), (s.clients.set i c')[j]? = some d →
      (j = i ∧ d = c') ∨ s.clients[j]? = some d := by
    intro j d hd
    rw [List.getElem?_set] at hd
    split at hd
    · rename_i hij
      rw [if_pos (List.getElem?_eq_some_iff.mp hc).1] at hd
      cases hd
      exact .inl ⟨hij.symm, rfl⟩
    · exact .inr hd
  refine ⟨h.server, fun j d hd => ?_, by simpa using h.accepted, fun j d x hd hx => ?_,
    fun j d x hd hx => ?_, fun j d hd hle => ?_⟩
  · obtain ⟨rfl, rfl⟩ | hd := hcases j d hd
    · exact hvalid
    · exact h.clients j d hd
  · obtain ⟨rfl, rfl⟩ | hd := hcases j d hd
    · exact hsent x hx
    · exact h.upstream j d x hd hx
  · obtain ⟨rfl, rfl⟩ | hd := hcases j d hd
    · obtain heq | ⟨y, hy, hle⟩ := hreceived
      · rw [heq]
        exact h.downstream j c x hc hx
      · cases hx.symm.trans hy
        exact hle
    · exact h.downstream j d x hd hx
  · obtain ⟨rfl, rfl⟩ | hd := hcases j d hd
    · obtain heq | ⟨y, hy, -⟩ := hreceived
      · rw [heq]
        exact h.unaccepted j c hc hle
      · rw [List.getElem?_eq_none hle] at hy
        cases hy
    · exact h.unaccepted j d hd hle

theorem client (h : s.Valid) {i : ℕ} {c c' : Client} {a : Action}
    (hallows : s.allowsClient i a = true) (hc : s.clients[i]? = some c)
    (hstep : c.step a = some c') : Valid { s with clients := s.clients.set i c' } := by
  have hreceived := (client_step hstep List.nil_prefix fun _ _ => Nat.zero_le _).1
  refine h.setClient hc ((h.clients i c hc).step hstep) (fun x hx => ?_) (.inl hreceived)
  refine (client_step hstep (h.upstream i c x hc hx) fun k hk => ?_).2
  subst hk
  simpa [allowsClient, hc, hx] using hallows

/-- Bytes arrive at a client. -/
theorem toClient (h : s.Valid) {i : ℕ} {c : Client} {x : Session}
    (hc : s.clients[i]? = some c) (hx : s.server.sessions[i]? = some x) (n : ℕ) :
    Valid { s with clients :=
      s.clients.set i (c.receive ((x.outgoing.drop c.received.length).take n)) } :=
  h.setClient hc ((h.clients i c hc).receive _) (fun y hy => h.upstream i c y hc hy)
    (.inr ⟨x, hx, append_isPrefix (h.downstream i c x hc hx) n⟩)

/-- A handler of the server. -/
theorem serverStep (h : s.Valid) {l : Label} (hallows : s.allows l = true) {server : Server}
    (hstep : s.server.step l = some server) : Valid { s with server := server } := by
  have hl : ∀ i bytes, l ≠ .receive i bytes := by
    rintro i bytes rfl
    cases hallows
  have hfailed : ∀ (i : ℕ) (c : Client), s.clients[i]? = some c → ∀ k x, l = .write i (some k) →
      s.server.sessions[i]? = some x → c.received.length ≤ x.sent.length + k := by
    rintro i c hc k x rfl hx
    simpa [allows, hc, hx] using hallows
  have hlength := server_step_length hstep
  refine ⟨h.server.step hstep, h.clients, ?_, fun i c x hc hx => ?_, fun i c x hc hx => ?_,
    fun i c hc hle => h.unaccepted i c hc (by simp only at hle; omega)⟩
  · simp only [hlength]
    have := h.accepted
    split
    · rename_i hl
      subst hl
      exact of_decide_eq_true hallows
    · exact this
  · obtain ⟨y, hy, hreceived, -⟩ | ⟨-, hreceived⟩ := server_step hstep hl (hfailed i c hc) hx
    · rw [hreceived]
      exact h.upstream i c y hc hy
    · rw [hreceived]
      exact List.nil_prefix
  · obtain ⟨y, hy, -, hkeeps⟩ | ⟨rfl, -⟩ := server_step hstep hl (hfailed i c hc) hx
    · exact hkeeps (h.downstream i c y hc hy)
    · rw [h.unaccepted _ c hc le_rfl]
      exact List.nil_prefix

/-- Bytes arrive at the server. -/
theorem toServer (h : s.Valid) {i : ℕ} {c : Client} {x : Session} (hc : s.clients[i]? = some c)
    (hx : s.server.sessions[i]? = some x) (n : ℕ) {server : Server}
    (hstep : s.server.step (.receive i ((c.outgoing.drop x.received.length).take n)) =
      some server) :
    Valid { s with server := server } := by
  have hvalid := h.server.step (l := .receive i _) hstep
  obtain ⟨y, x', hy, hx', rfl⟩ := onSession_cases hstep
  cases hx.symm.trans hy
  cases hx'
  have hcases : ∀ (j : ℕ) (z : Session), (s.server.sessions.set i (x.receive
      ((c.outgoing.drop x.received.length).take n)))[j]? = some z →
      (j = i ∧ z = x.receive ((c.outgoing.drop x.received.length).take n)) ∨
        s.server.sessions[j]? = some z := by
    intro j z hz
    rw [List.getElem?_set] at hz
    split at hz
    · rename_i hij
      rw [if_pos (List.getElem?_eq_some_iff.mp hx).1] at hz
      cases hz
      exact .inl ⟨hij.symm, rfl⟩
    · exact .inr hz
  refine ⟨hvalid, h.clients, by simpa using h.accepted, fun j d z hd hz => ?_,
    fun j d z hd hz => ?_, fun j d hd hle => h.unaccepted j d hd (by simpa using hle)⟩
  · obtain ⟨rfl, rfl⟩ | hz := hcases j z hz
    · cases hc.symm.trans hd
      exact append_isPrefix (h.upstream j c x hc hx) n
    · exact h.upstream j d z hd hz
  · obtain ⟨rfl, rfl⟩ | hz := hcases j z hz
    · exact h.downstream j d x hd hx
    · exact h.downstream j d z hd hz

theorem step (h : s.Valid) {e : Event} {s' : System} (hs : system.step s e = some s') :
    s'.Valid := by
  cases e with
  | connect input =>
    cases hs
    exact h.connect input
  | client i a =>
    obtain ⟨hallows, hs⟩ := Option.ite_none_right_eq_some.mp hs
    obtain ⟨c, hc, hs⟩ := Option.bind_eq_some_iff.mp hs
    obtain ⟨c', hstep, rfl⟩ := Option.map_eq_some_iff.mp hs
    exact h.client hallows hc hstep
  | server l =>
    obtain ⟨hallows, hs⟩ := Option.ite_none_right_eq_some.mp hs
    obtain ⟨server, hstep, rfl⟩ := Option.map_eq_some_iff.mp hs
    exact h.serverStep hallows hstep
  | toServer i n =>
    obtain ⟨c, hc, hs⟩ := Option.bind_eq_some_iff.mp hs
    obtain ⟨x, hx, hs⟩ := Option.bind_eq_some_iff.mp hs
    obtain ⟨server, hstep, rfl⟩ := Option.map_eq_some_iff.mp hs
    exact h.toServer hc hx n hstep
  | toClient i n =>
    obtain ⟨c, hc, hs⟩ := Option.bind_eq_some_iff.mp hs
    obtain ⟨x, hx, rfl⟩ := Option.map_eq_some_iff.mp hs
    exact h.toClient hc hx n

end System.Valid

/-- **What the clients show.**  After every run the messages of a session are the first lines that
its user has typed, in their order, and what a client has printed are the bodies of a stretch
of the messages of the room that begins with the recent ones when it joined; if it is still in
the room, nothing is under way and the client waits, it has printed them all. -/
theorem clients_show {s : System} (h : system.Reachable s) :
    (∀ p ∈ s.server.log, p.1 < s.clients.length) ∧
    (∀ (i : ℕ) (c : Client), s.clients[i]? = some c →
      sentBy i s.server.log <+: messagesOf c.input) ∧
    ∀ (i : ℕ) (c : Client), s.clients[i]? = some c →
      (s.server.sessions[i]? = none → c.cout = []) ∧
      ∀ x, s.server.sessions[i]? = some x → ∃ ms : List Message,
        c.cout = ms.flatMap printed ∧ ms <+: x.heard s.server.log ∧
          (x.departed = none → x.writer.writeMsgs = [] → c.received = x.sent →
            c.reader.Waits → ms = x.heard s.server.log) := by
  have hvalid : s.Valid := h.invariant .init fun _ _ _ hs hstep => hs.step hstep
  refine ⟨fun p hp => ?_, fun i c hc => ?_, fun i c hc => ?_⟩
  · exact Nat.lt_of_lt_of_le (hvalid.server.senders p hp) hvalid.accepted
  · have hlines : Frame.bytes (sentBy i s.server.log) <+: Frame.bytes (messagesOf c.input) := by
      obtain ⟨ms, hsends, hall⟩ := (hvalid.clients i c hc).writes
      rcases hx : s.server.sessions[i]? with _ | x
      · -- nobody has spoken for a client that is not accepted
        have hnone : sentBy i s.server.log = [] := by
          rw [sentBy, List.map_eq_nil_iff, List.filter_eq_nil_iff]
          intro p hp
          have := hvalid.server.senders p hp
          have := List.getElem?_eq_none_iff.mp hx
          simp
          omega
        rw [hnone]
        exact List.nil_prefix
      · calc Frame.bytes (sentBy i s.server.log)
            <+: x.received := (hvalid.server.sessions i x hx).reads.begun
          _ <+: c.outgoing := hvalid.upstream i c x hc hx
          _ <+: Frame.bytes ms := hsends.outgoing
          _ <+: Frame.bytes (messagesOf c.input) := by
            rw [← hall, List.append_assoc, Frame.bytes_append]
            exact List.prefix_append ..
    exact Frame.isPrefix_of_bytes hlines
  · obtain ⟨ms, hfollows, hcout⟩ := (hvalid.clients i c hc).prints
    have hbegun := hfollows.begun
    refine ⟨fun hx => ?_, fun x hx => ?_⟩
    · rw [hvalid.unaccepted i c hc (List.getElem?_eq_none_iff.mp hx), ← Frame.bytes_nil] at hbegun
      rw [hcout, List.prefix_nil.mp (Frame.isPrefix_of_bytes hbegun)]
      rfl
    · have hsession := hvalid.server.sessions i x hx
      have hms : ms <+: x.heard s.server.log := Frame.isPrefix_of_bytes
        ((hbegun.trans (hvalid.downstream i c x hc hx)).trans hsession.sends.underWay)
      refine ⟨ms, hcout, hms, fun hin hidle harrived hwaits => ?_⟩
      have hrest := hsession.sends.rest (hsession.busy hin)
      rw [hidle, Frame.bytes_nil, List.append_nil, ← harrived] at hrest
      have hall : x.heard s.server.log <+: ms :=
        hfollows.complete hwaits ⟨[], by rw [hrest, List.append_nil]⟩
      exact hms.eq_of_length_le hall.length_le

/-- A line is typed before the second client is accepted; both times the message is read before the
handler of its write runs. -/
def greeting : List Event :=
  [.connect "hi\n".toList, .connect [], .server (.accept true), .client 0 .loop,
    .client 0 .runPost, .toServer 0 5, .server (.readHeader 0), .server (.accept false),
    .toServer 0 5, .server (.readBody 0), .client 0 (.write none), .server (.accept true),
    .toClient 1 6, .client 1 .readHeader, .client 1 .readBody, .server (.write 1 none),
    .client 0 .loop, .client 0 .runPost, .client 0 .readError]

theorem greeting_shown : ∃ s, system.run system.init greeting = some s ∧
    s.clients.map Client.cout = [[], "hi\n".toList] ∧
    ∀ c x, s.clients[1]? = some c → s.server.sessions[1]? = some x →
      ∃ ms : List Message, c.cout = ms.flatMap printed ∧ ms <+: x.heard s.server.log := by
  obtain ⟨s, hs, hcout⟩ : ∃ s, system.run system.init greeting = some s ∧
      s.clients.map Client.cout = [[], "hi\n".toList] := by
    have hrun : (system.run system.init greeting).map (fun s => s.clients.map Client.cout) =
        some [[], "hi\n".toList] := by decide +kernel
    exact Option.map_eq_some_iff.mp hrun
  refine ⟨s, hs, hcout, fun c x hc hx => ?_⟩
  have hall := clients_show (Machine.reachable_of_run greeting hs)
  obtain ⟨ms, hms, hheard, -⟩ := (hall.2.2 1 c hc).2 x hx
  exact ⟨ms, hms, hheard⟩

end Sundries.Chat
