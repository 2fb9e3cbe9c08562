import Sundries.CoroutineRequestParser
import Sundries.HttpReply
import Sundries.Machine

/-!
# The fourth HTTP server

The whole server is one coroutine.  It accepts a connection and forks: the parent goes on to accept
the next one, the child, a copy of it, reads the request and writes the reply.  A label is the
completion of the operation a coroutine waits for; if it fails, the coroutine is not entered again
and is gone.
-/
namespace Sundries.Http.Server4

/-- Where a server coroutine goes on. -/
inductive Point where
  | accepted | received | written | gone
  deriving DecidableEq

/-- A `server` object: whether it is a child, its socket and its parser with the request; with all
it has received and the replies it has begun to write. -/
structure Coroutine where
  child : Bool
  point : Point
  socket : ℕ
  parser : Parser
  received : List Char
  begun : List Reply
  deriving DecidableEq

structure System where
  coroutines : List Coroutine
  sockets : ℕ
  stopped : Bool
  deriving DecidableEq

inductive Label where
  | accepted (i : ℕ) (req : Request)
  | received (i : ℕ) (bytes : List Char)
  | written (i : ℕ)
  | failed (i : ℕ)
  | stop
  deriving DecidableEq

section
variable (lexicalCast : List Char → Option ℕ) (handle : Request → Reply)

/-- The code from the fork on, for the child: `request_.reset(new request)` leaves some version
numbers. -/
def Coroutine.toChild (c : Coroutine) (req : Request) : Coroutine :=
  { c with child := true, point := .received, parser := { c.parser with req := req } }

/-- The code from the read on. -/
def Coroutine.read (c : Coroutine) (bytes : List Char) : Coroutine :=
  let result := (Server4.parser lexicalCast).scan c.parser bytes
  let c := { c with parser := result.2.1, received := c.received ++ bytes }
  match result.1 with
  | .more => { c with point := .received }
  | .accept => { c with point := .written, begun := c.begun ++ [handle result.2.1.req] }
  | .reject => { c with point := .written, begun := c.begun ++ [Reply.stockReply .badRequest] }

def step (s : System) : Label → Option System
  | .accepted i req =>
    s.coroutines[i]?.bind fun c =>
      if !s.stopped && c.point = .accepted then
        -- the parent gets a new socket, the child keeps the one that was accepted
        some { s with
          coroutines := s.coroutines.set i { c with socket := s.sockets } ++ [c.toChild req]
          sockets := s.sockets + 1 }
      else none
  | .received i bytes =>
    s.coroutines[i]?.bind fun c =>
      if !s.stopped && c.point = .received && !bytes.isEmpty && bytes.length ≤ 8192 then
        some { s with coroutines := s.coroutines.set i (c.read lexicalCast handle bytes) }
      else none
  | .written i =>
    s.coroutines[i]?.bind fun c =>
      if !s.stopped && c.point = .written then
        some { s with coroutines := s.coroutines.set i { c with point := .gone } }
      else none
  | .failed i =>
    s.coroutines[i]?.bind fun c =>
      if !s.stopped && c.point ≠ .gone then
        some { s with coroutines := s.coroutines.set i { c with point := .gone } }
      else none
  -- `io_context::stop`
  | .stop => if !s.stopped then some { s with stopped := true } else none

/-- The server after its first call: it waits for a connection on its first socket. -/
def server (n : ℕ) (req : Request) : Machine System Label where
  init := ⟨[⟨false, .accepted, 0, ⟨.start, n, req⟩, [], []⟩], 1, false⟩
  step := step lexicalCast handle

end

variable {lexicalCast : List Char → Option ℕ} {handle : Request → Reply} {n : ℕ} {req : Request}

/-- **What a completion does.** -/
inductive Moves (lexicalCast : List Char → Option ℕ) (handle : Request → Reply) (s : System) :
    Label → System → Prop
  | accepted {i : ℕ} {req : Request} {c : Coroutine} (hc : s.coroutines[i]? = some c)
      (hpoint : c.point = .accepted) :
      Moves lexicalCast handle s (.accepted i req)
        { s with
          coroutines := s.coroutines.set i { c with socket := s.sockets } ++ [c.toChild req]
          sockets := s.sockets + 1 }
  | received {i : ℕ} {bytes : List Char} {c : Coroutine} (hc : s.coroutines[i]? = some c)
      (hpoint : c.point = .received) :
      Moves lexicalCast handle s (.received i bytes)
        { s with coroutines := s.coroutines.set i (c.read lexicalCast handle bytes) }
  | gone {i : ℕ} {c : Coroutine} {l : Label} (hl : l = .written i ∧ c.point = .written ∨
        l = .failed i) (hc : s.coroutines[i]? = some c) :
      Moves lexicalCast handle s l
        { s with coroutines := s.coroutines.set i { c with point := .gone } }
  | stop : Moves lexicalCast handle s .stop { s with stopped := true }

theorem moves_of_step {s s' : System} {l : Label}
    (h : step lexicalCast handle s l = some s') : Moves lexicalCast handle s l s' := by
  cases l with
  | accepted i req =>
    obtain ⟨c, hc, h⟩ := Option.bind_eq_some_iff.mp h
    obtain ⟨hcond, h⟩ := Option.ite_none_right_eq_some.mp h
    cases h
    exact .accepted hc (by simpa using (Bool.and_eq_true_iff.mp hcond).2)
  | received i bytes =>
    obtain ⟨c, hc, h⟩ := Option.bind_eq_some_iff.mp h
    obtain ⟨hcond, h⟩ := Option.ite_none_right_eq_some.mp h
    cases h
    simp only [Bool.and_eq_true, decide_eq_true_eq] at hcond
    exact .received hc hcond.1.1.2
  | written i =>
    obtain ⟨c, hc, h⟩ := Option.bind_eq_some_iff.mp h
    obtain ⟨hcond, h⟩ := Option.ite_none_right_eq_some.mp h
    cases h
    exact .gone (.inl ⟨rfl, by simpa using (Bool.and_eq_true_iff.mp hcond).2⟩) hc
  | failed i =>
    obtain ⟨c, hc, h⟩ := Option.bind_eq_some_iff.mp h
    obtain ⟨hcond, h⟩ := Option.ite_none_right_eq_some.mp h
    cases h
    exact .gone (.inr rfl) hc
  | stop =>
    obtain ⟨hcond, h⟩ := Option.ite_none_right_eq_some.mp h
    cases h
    exact .stop

/-! ## What holds in every state -/

/-- The replies that are begun when the parser has come to a verdict. -/
def replies (handle : Request → Reply) : Verdict → Request → List Reply
  | .more, _ => []
  | .accept, r => [handle r]
  | .reject, _ => [.stockReply .badRequest]

/-- A child has parsed what it has received, and reads on exactly while more is wanted. -/
structure Reads (lexicalCast : List Char → Option ℕ) (handle : Request → Reply) (c : Coroutine) :
    Prop where
  child : c.child = true
  point : c.point ≠ .accepted
  answers : ∃ v n req rest, parse lexicalCast n req c.received = (v, c.parser, rest) ∧
    c.begun = replies handle v c.parser.req ∧ (c.point = .received → v = .more)

/-- The parent has not touched the parser. -/
structure Accepts (c : Coroutine) : Prop where
  parent : c.child = false
  point : c.point = .accepted ∨ c.point = .gone
  parser : c.parser.resume = .start
  received : c.received = []
  begun : c.begun = []

/-- The first coroutine is the parent, the others are its children, and each has its own socket. -/
structure Valid (lexicalCast : List Char → Option ℕ) (handle : Request → Reply) (s : System) :
    Prop where
  family : ∃ parent children, s.coroutines = parent :: children ∧ Accepts parent ∧
    ∀ c ∈ children, Reads lexicalCast handle c
  fresh : ∀ i ∈ s.coroutines.map Coroutine.socket, i < s.sockets
  nodup : (s.coroutines.map Coroutine.socket).Nodup

theorem Accepts.toChild {c : Coroutine} (h : Accepts c) (req : Request) :
    Reads lexicalCast handle (c.toChild req) where
  child := rfl
  point := nofun
  answers := by
    obtain ⟨child, point, socket, ⟨resume, n, req'⟩, received, begun⟩ := c
    obtain ⟨-, -, hresume, hreceived, hbegun⟩ := h
    cases hresume
    cases hreceived
    cases hbegun
    exact ⟨.more, n, req, [], rfl, rfl, fun _ => rfl⟩

theorem Reads.read {c : Coroutine} (h : Reads lexicalCast handle c) (hpoint : c.point = .received)
    (bytes : List Char) : Reads lexicalCast handle (c.read lexicalCast handle bytes) := by
  obtain ⟨v, n, req, rest, hparse, hbegun, hmore⟩ := h.answers
  obtain rfl : v = .more := hmore hpoint
  have hnext := Scanner.scan_append hparse bytes
  have hnil : c.begun = [] := hbegun
  obtain ⟨w, p, rest', hw⟩ : ∃ w p rest,
      (parser lexicalCast).scan c.parser bytes = (w, p, rest) := ⟨_, _, _, rfl⟩
  rw [hw] at hnext
  rw [Coroutine.read, hw]
  cases w with
  | more => exact ⟨h.child, nofun, .more, n, req, rest', hnext, hnil, fun _ => rfl⟩
  | accept =>
    exact ⟨h.child, nofun, .accept, n, req, rest', hnext, by simp [hnil, replies], nofun⟩
  | reject =>
    exact ⟨h.child, nofun, .reject, n, req, rest', hnext, by simp [hnil, replies], nofun⟩

theorem Accepts.gone {c : Coroutine} (h : Accepts c) : Accepts { c with point := .gone } :=
  { h with point := .inr rfl }

theorem Reads.gone {c : Coroutine} (h : Reads lexicalCast handle c) :
    Reads lexicalCast handle { c with point := .gone } where
  child := h.child
  point := nofun
  answers := by
    obtain ⟨v, n, req, rest, hparse, hbegun, -⟩ := h.answers
    exact ⟨v, n, req, rest, hparse, hbegun, nofun⟩

@[simp] theorem read_socket (c : Coroutine) (bytes : List Char) :
    (c.read lexicalCast handle bytes).socket = c.socket := by
  rw [Coroutine.read]
  split <;> rfl

theorem map_socket_set {cs : List Coroutine} {i : ℕ} {c c' : Coroutine} (hc : cs[i]? = some c)
    (h : c'.socket = c.socket) : (cs.set i c').map Coroutine.socket = cs.map Coroutine.socket := by
  rw [List.map_set, h]
  refine List.ext_getElem? fun j => ?_
  rw [List.getElem?_set]
  split
  · subst j
    have hlt := (List.getElem?_eq_some_iff.mp hc).1
    rw [List.getElem?_map, hc]
    simp [hlt]
  · rfl

/-- A child is exchanged. -/
theorem Valid.set {s : System} (h : Valid lexicalCast handle s) {i : ℕ} {c c' : Coroutine}
    (hc : s.coroutines[i]? = some c) (hsocket : c'.socket = c.socket)
    (haccepts : Accepts c → Accepts c')
    (hreads : Reads lexicalCast handle c → Reads lexicalCast handle c') :
    Valid lexicalCast handle { s with coroutines := s.coroutines.set i c' } where
  family := by
    obtain ⟨parent, children, hfamily, hparent, hchildren⟩ := h.family
    rw [hfamily] at hc
    cases i with
    | zero =>
      cases hc
      exact ⟨c', children, by simp [hfamily], haccepts hparent, hchildren⟩
    | succ j =>
      refine ⟨parent, children.set j c', by simp [hfamily], hparent, fun d hd => ?_⟩
      rcases List.mem_or_eq_of_mem_set hd with hd | rfl
      · exact hchildren d hd
      · exact hreads (hchildren c (List.mem_of_getElem? hc))
  fresh := by
    rw [map_socket_set hc hsocket]
    exact h.fresh
  nodup := by
    rw [map_socket_set hc hsocket]
    exact h.nodup

/-- Only the parent waits for a connection. -/
theorem Valid.zero_of_accepted {s : System} (h : Valid lexicalCast handle s) {i : ℕ}
    {c : Coroutine} (hc : s.coroutines[i]? = some c) (hpoint : c.point = .accepted) : i = 0 := by
  obtain ⟨parent, children, hfamily, -, hchildren⟩ := h.family
  rw [hfamily] at hc
  cases i with
  | zero => rfl
  | succ j => exact absurd hpoint (hchildren c (List.mem_of_getElem? hc)).point

theorem valid_step {s s' : System} {l : Label} (h : Valid lexicalCast handle s)
    (hstep : step lexicalCast handle s l = some s') : Valid lexicalCast handle s' := by
  cases moves_of_step hstep with
  | @accepted i req c hc hpoint =>
    obtain rfl := h.zero_of_accepted hc hpoint
    obtain ⟨parent, children, hfamily, hparent, hchildren⟩ := h.family
    have hparent' : parent = c := by
      rw [hfamily] at hc
      exact Option.some.inj hc
    subst hparent'
    have hnodup := h.nodup
    have hfresh := h.fresh
    rw [hfamily, List.map_cons] at hnodup hfresh
    rw [List.nodup_cons] at hnodup
    refine ⟨⟨{ parent with socket := s.sockets }, children ++ [parent.toChild req], ?_, ?_, ?_⟩,
      ?_, ?_⟩
    · simp [hfamily]
    · exact { hparent with }
    · intro d hd
      rcases List.mem_append.mp hd with hd | hd
      · exact hchildren d hd
      · rw [List.mem_singleton.mp hd]
        exact hparent.toChild req
    · intro j hj
      simp only [hfamily, List.set_cons_zero, List.map_append, List.map_cons, List.cons_append,
        List.map_nil, List.mem_cons, List.mem_append, List.not_mem_nil, or_false] at hj
      rcases hj with rfl | hj | rfl
      · exact Nat.lt_succ_self _
      · exact Nat.lt_succ_of_lt (hfresh j (List.mem_cons_of_mem _ hj))
      · exact Nat.lt_succ_of_lt (hfresh _ List.mem_cons_self)
    · show ((s.coroutines.set 0 { parent with socket := s.sockets } ++
        [parent.toChild req]).map Coroutine.socket).Nodup
      simp only [hfamily, List.set_cons_zero, List.map_append, List.map_cons, List.cons_append,
        List.map_nil]
      refine List.nodup_cons.mpr ⟨fun hmem => ?_, List.nodup_append.mpr
        ⟨hnodup.2, by simp, fun j hj k hk => ?_⟩⟩
      · rcases List.mem_append.mp hmem with hmem | hmem
        · exact Nat.lt_irrefl _ (hfresh _ (List.mem_cons_of_mem _ hmem))
        · have hparent := hfresh _ List.mem_cons_self
          rw [List.mem_singleton.mp hmem] at hparent
          exact Nat.lt_irrefl _ hparent
      · rw [List.mem_singleton.mp hk]
        rintro rfl
        exact hnodup.1 hj
  | received hc hpoint =>
    refine h.set hc (read_socket _ _) (fun hparent => ?_) (fun hreads => hreads.read hpoint _)
    rcases hparent.point with hp | hp <;> rw [hpoint] at hp <;> cases hp
  | gone hl hc => exact h.set hc rfl Accepts.gone Reads.gone
  | stop => exact ⟨h.family, h.fresh, h.nodup⟩

theorem valid_init (n : ℕ) (req : Request) :
    Valid lexicalCast handle (server lexicalCast handle n req).init where
  family := ⟨_, [], rfl, ⟨rfl, .inl rfl, rfl, rfl, rfl⟩, List.forall_mem_nil _⟩
  fresh i hi := by
    rw [List.mem_singleton.mp hi]
    exact Nat.one_pos
  nodup := by simp [server]

/-! ## The replies -/

/-- What the server begins to send a client for what it has received. -/
inductive Answered (lexicalCast : List Char → Option ℕ) (handle : Request → Reply) :
    List Char → List Reply → Prop
  | waiting {received : List Char} {t : RequestText} {later : List Char} (hstrict : Strict t)
      (hlater : later ≠ []) (ht : received ++ later = t.render) :
      Answered lexicalCast handle received []
  | missing {t : RequestText} {content : List Char} {m : ℕ} (hstrict : Strict t)
      (hlength : contentLength lexicalCast t.request.headers = some m)
      (hlt : content.length < m) : Answered lexicalCast handle (t.render ++ content) []
  | handled {t : RequestText} {content : List Char} (rest : List Char) (hstrict : Strict t)
      (hlength : contentLength lexicalCast t.request.headers = some content.length) :
      Answered lexicalCast handle (t.render ++ content ++ rest) [handle ⟨t.request, content⟩]
  | bad {received : List Char} (hbad : ∀ t : RequestText, Strict t → ∀ later,
        (later ≠ [] → received ++ later ≠ t.render) ∧
        (received = t.render ++ later → contentLength lexicalCast t.request.headers = none)) :
      Answered lexicalCast handle received [.stockReply .badRequest]

theorem bad_of_reject {received : List Char}
    (h : (parse lexicalCast n req received).1 = .reject) (t : RequestText) (hstrict : Strict t)
    (later : List Char) : (later ≠ [] → received ++ later ≠ t.render) ∧
      (received = t.render ++ later → contentLength lexicalCast t.request.headers = none) := by
  constructor
  · intro hlater ht
    rw [(parse_more_iff lexicalCast n req).mpr (.inl ⟨t, later, hstrict, hlater, ht⟩)] at h
    cases h
  · rintro rfl
    by_contra hlength
    obtain ⟨m, hm⟩ := Option.ne_none_iff_exists'.mp hlength
    have hparse : parse lexicalCast n req (t.render ++ later) = _ :=
      parse_of_length lexicalCast n req (strict_scan_render hstrict later) hm
    rw [hparse] at h
    split at h <;> cases h

theorem Reads.answered {c : Coroutine} (h : Reads lexicalCast handle c) :
    Answered lexicalCast handle c.received c.begun := by
  obtain ⟨v, n, req, rest, hparse, hbegun, -⟩ := h.answers
  rw [hbegun]
  cases v with
  | more =>
    rcases (parse_more_iff lexicalCast n req).mp (by rw [hparse]) with
      ⟨t, later, hstrict, hlater, ht⟩ | ⟨t, content, m, hstrict, hlength, hlt, ht⟩
    · exact .waiting hstrict hlater ht
    · rw [ht]
      exact .missing hstrict hlength hlt
  | accept =>
    obtain ⟨t, content, hstrict, hlength, ht, hp⟩ :=
      (parse_accept_iff lexicalCast n req).mp hparse
    rw [ht, hp]
    exact .handled rest hstrict hlength
  | reject => exact .bad (bad_of_reject (by rw [hparse]))

/-- The first coroutine waits for connections until an accept fails. -/
theorem accepting_step {s s' : System} {l : Label} (h : Valid lexicalCast handle s)
    (hstep : step lexicalCast handle s l = some s') {parent parent' : Coroutine}
    (hp : s.coroutines[0]? = some parent) (hp' : s'.coroutines[0]? = some parent') :
    parent'.point = .accepted ↔ parent.point = .accepted ∧ l ≠ .failed 0 := by
  have hwaits : parent.point = .accepted ∨ parent.point = .gone := by
    obtain ⟨c, children, hfamily, hparent, -⟩ := h.family
    rw [hfamily] at hp
    cases hp
    exact hparent.point
  cases moves_of_step hstep with
  | accepted hc hpoint =>
    obtain rfl := h.zero_of_accepted hc hpoint
    cases hp.symm.trans hc
    have hlt := (List.getElem?_eq_some_iff.mp hc).1
    have hparent' : some parent' = some { parent with socket := s.sockets } := by
      rw [← hp', List.getElem?_append_left (by simpa using hlt), List.getElem?_set_self hlt]
    cases hparent'
    simp [hpoint]
  | @received i bytes c hc hpoint =>
    cases i with
    | zero =>
      cases hp.symm.trans hc
      rcases hwaits with hw | hw <;> rw [hpoint] at hw <;> cases hw
    | succ j =>
      rw [List.getElem?_set_ne (Nat.succ_ne_zero j), hp] at hp'
      cases hp'
      simp
  | @gone i c l hl hc =>
    cases i with
    | zero =>
      cases hp.symm.trans hc
      have hlt := (List.getElem?_eq_some_iff.mp hc).1
      rw [List.getElem?_set_self hlt] at hp'
      cases hp'
      rcases hl with ⟨-, hw⟩ | rfl
      · rcases hwaits with hw' | hw' <;> rw [hw] at hw' <;> cases hw'
      · simp
    | succ j =>
      rw [List.getElem?_set_ne (Nat.succ_ne_zero j), hp] at hp'
      cases hp'
      have hne : l ≠ .failed 0 := by
        rcases hl with ⟨rfl, -⟩ | rfl <;> simp
      simp [hne]
  | stop =>
    cases hp.symm.trans hp'
    simp

/-- **The forks answer their clients.**  In every run the first coroutine only accepts, and it does
so as long as no accept fails; every other one is a child with a socket of its own, which has begun
to send exactly one reply as soon as what it has received decides it, and none before. -/
theorem forks_answered {ls : List Label} {s : System}
    (h : (server lexicalCast handle n req).run (server lexicalCast handle n req).init ls = some s) :
    ∃ parent children, s.coroutines = parent :: children ∧
      (parent.point = .accepted ↔ Label.failed 0 ∉ ls) ∧ parent.begun = [] ∧
      (∀ c ∈ children, Answered lexicalCast handle c.received c.begun) ∧
      (s.coroutines.map Coroutine.socket).Nodup := by
  suffices key : Valid lexicalCast handle s ∧ ∀ c, s.coroutines[0]? = some c →
      (c.point = .accepted ↔ Label.failed 0 ∉ ls) by
    obtain ⟨hvalid, hpoint⟩ := key
    obtain ⟨parent, children, hfamily, hparent, hchildren⟩ := hvalid.family
    exact ⟨parent, children, hfamily, hpoint parent (by rw [hfamily]; rfl), hparent.begun,
      fun c hc => (hchildren c hc).answered, hvalid.nodup⟩
  refine (server lexicalCast handle n req).run_induction
    (P := fun ls s => Valid lexicalCast handle s ∧ ∀ c, s.coroutines[0]? = some c →
      (c.point = .accepted ↔ Label.failed 0 ∉ ls)) ⟨valid_init n req, ?_⟩ ?_ h
  · intro c hc
    cases hc
    simp
  · rintro ls u l u' ⟨hvalid, hpoint⟩ hstep
    refine ⟨valid_step hvalid hstep, fun c hc => ?_⟩
    obtain ⟨parent, children, hfamily, -, -⟩ := hvalid.family
    have hp : u.coroutines[0]? = some parent := by rw [hfamily]; rfl
    rw [accepting_step hvalid hstep hp hc, hpoint parent hp, List.mem_append,
      List.mem_singleton, not_or, ne_comm]

/-- A child is forked, and its request comes with two characters of content. -/
def oneChild : List Label :=
  [.accepted 0 ⟨.new 0 0, []⟩, .received 1 "PUT /a HTTP/1.0\r\ncontent-length: 2".toList,
    .received 1 "\r\n\r\nhello".toList, .written 1]

theorem oneChild_answered : ∃ s,
    (server (fun _ => some 2) (fun _ => .stockReply .created) 0 ⟨.new 0 0, []⟩).run
      (server (fun _ => some 2) (fun _ => .stockReply .created) 0 ⟨.new 0 0, []⟩).init oneChild =
        some s ∧
    ∃ parent children, s.coroutines = parent :: children ∧
      (parent.point = .accepted ↔ Label.failed 0 ∉ oneChild) ∧ parent.begun = [] ∧
      (∀ c ∈ children, Answered (fun _ => some 2) (fun _ => .stockReply .created) c.received
        c.begun) ∧ (s.coroutines.map Coroutine.socket).Nodup := by
  obtain ⟨s, hs⟩ : ∃ s,
      (server (fun _ => some 2) (fun _ => .stockReply .created) 0 ⟨.new 0 0, []⟩).run
        (server (fun _ => some 2) (fun _ => .stockReply .created) 0 ⟨.new 0 0, []⟩).init
        oneChild = some s := by
    apply Option.isSome_iff_exists.mp
    decide +kernel
  exact ⟨s, hs, forks_answered hs⟩

end Sundries.Http.Server4
