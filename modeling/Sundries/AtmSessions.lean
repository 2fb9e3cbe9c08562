import Sundries.AtmReplies

/-!
# Sessions at the `atm`

As long as no `cancel_pressed` is handled while a reply of the bank is due, the `atm` and the
bank stay in step: the reply the `atm` takes next answers its own last request, so it serves
only who has typed the right pin, and pays out what the bank has debited.  A cancel breaks this:
the reply comes later and is taken for the one to the next request.
-/
namespace Sundries.ATM

/-- The request whose reply the state waits for. -/
def Atm.pending (a : Atm) : Option Msg :=
  match a.state with
  | .verifyingPin => some (.verifyPin a.account a.pin)
  | .processWithdrawal => some (.withdraw a.account a.withdrawalAmount)
  | .processBalance => some (.getBalance a.account)
  | _ => none

/-- The states behind a verified pin. -/
def AtmState.admitted : AtmState → Bool
  | .waitForAction | .processWithdrawal | .processBalance => true
  | _ => false

/-- The step does not handle a `cancel_pressed` while a reply is due. -/
def Patient (s : System) (l : Label) : Prop :=
  ¬ (l = .atm ∧ s.atm.outbox = [] ∧ s.atm.pc = .wait ∧ s.atm.pending ≠ none ∧
    (s.queue .atm).waiting.head? = some .cancelPressed)

instance (s : System) (l : Label) : Decidable (Patient s l) :=
  inferInstanceAs (Decidable (¬ _))

/-- Money a message tells the hardware to issue. -/
def Msg.issues : Msg → ℕ
  | .issueMoney amount => amount
  | _ => 0

/-- The money issued so far, also what a handler has still to tell the hardware. -/
def System.issued (s : System) : ℕ :=
  Machine.total Msg.issues
    ((s.queue .hardware).sent ++ (s.atm.outbox.filter fun e => e.1 = .hardware).map Prod.snd)

/-! ## What the steps do to requests and money -/

theorem asked_receive {s : System} {m : Msg} {rest : List Msg} (hout : s.atm.outbox = [])
    {a : Atm} {new : List (Party × Msg)} (ha : a.outbox = new) :
    ({ s.pop .atm m rest with atm := a } : System).asked =
      s.asked ++ requests ((new.filter fun e => e.1 = .bank).map Prod.snd) := by
  simp [System.asked, hout, ha, requests_append]

theorem issued_receive {s : System} {m : Msg} {rest : List Msg} (hout : s.atm.outbox = [])
    {a : Atm} {new : List (Party × Msg)} (ha : a.outbox = new) :
    ({ s.pop .atm m rest with atm := a } : System).issued =
      s.issued +
        Machine.total Msg.issues ((new.filter fun e => e.1 = .hardware).map Prod.snd) := by
  simp [System.issued, hout, ha, Machine.total_append]

theorem heard_receive {s : System} {m : Msg} {rest : List Msg} (a : Atm) :
    ({ s.pop .atm m rest with atm := a } : System).heard = s.heard ++ replies [m] := by
  simp [System.heard, replies_append]

/-- A message handed over to a queue has been counted before. -/
theorem asked_send {s : System} {p : Party} {m : Msg} {rest : List (Party × Msg)}
    (hout : s.atm.outbox = (p, m) :: rest) (hp : p ≠ .atm) :
    ({ s.push p m with atm := { s.atm with outbox := rest } } : System).asked = s.asked := by
  cases p with
  | atm => exact absurd rfl hp
  | bank => simp [System.asked, hout]
  | hardware => simp [System.asked, hout]

theorem issued_send {s : System} {p : Party} {m : Msg} {rest : List (Party × Msg)}
    (hout : s.atm.outbox = (p, m) :: rest) (hp : p ≠ .atm) :
    ({ s.push p m with atm := { s.atm with outbox := rest } } : System).issued = s.issued := by
  cases p with
  | atm => exact absurd rfl hp
  | bank => simp [System.issued, hout]
  | hardware => simp [System.issued, hout]

/-- Requests, replies heard and money are the same, and so is what the `atm` knows of its
session. -/
structure Same (s s' : System) : Prop where
  asked : s'.asked = s.asked
  heard : s'.heard = s.heard
  issued : s'.issued = s.issued
  state : s'.atm.state = s.atm.state ∨
    s.atm.state = .doneProcessing ∧ s'.atm.state = .waitingForCard
  pin : s'.atm.pin = s.atm.pin
  account : s'.atm.account = s.atm.account
  amount : s'.atm.withdrawalAmount = s.atm.withdrawalAmount

namespace Same
variable {s s' : System}

theorem pending (h : Same s s') : s'.atm.pending = s.atm.pending := by
  rcases h.state with hstate | ⟨hdone, hcard⟩
  · simp only [Atm.pending, hstate, h.pin, h.account, h.amount]
  · simp only [Atm.pending, hdone, hcard]

theorem admitted (h : Same s s') : s'.atm.state.admitted = s.atm.state.admitted := by
  rcases h.state with hstate | ⟨hdone, hcard⟩
  · rw [hstate]
  · rw [hdone, hcard]
    rfl

/-- A message that is neither a request nor money reaches a queue. -/
theorem push {p : Party} {m : Msg} (hm : m.isRequest = false) (hissues : m.issues = 0) :
    Same s (s.push p m) := by
  refine ⟨?_, ?_, ?_, Or.inl rfl, rfl, rfl, rfl⟩
  · cases p <;> simp [System.asked, requests, hm]
  · cases p <;> simp [System.heard]
  · cases p <;> simp [System.issued, Machine.total_append, Machine.total, hissues]

/-- Entering a state sends neither requests nor money. -/
theorem enter (hout : s.atm.outbox = []) : Same s { s with atm := s.atm.enter } := by
  have hgreeting : ∀ st : AtmState, (st.greeting.filter fun e => e.1 = .bank) = [] ∧
      Machine.total Msg.issues ((st.greeting.filter fun e => e.1 = .hardware).map Prod.snd) = 0 := by
    intro st
    cases st <;> exact ⟨rfl, rfl⟩
  by_cases hdone : s.atm.state = .doneProcessing
  · have hs : s.atm.enter = (s.atm.send .hardware .ejectCard).goto .waitingForCard := by
      simp only [Atm.enter, hdone]
    rw [hs]
    refine ⟨?_, rfl, ?_, Or.inr ⟨hdone, rfl⟩, rfl, rfl, rfl⟩
    · simp [System.asked, Atm.goto, Atm.send, hout]
    · simp [System.issued, Atm.goto, Atm.send, hout, Machine.total_append, Machine.total, Msg.issues]
  · have hs : s.atm.enter =
        { s.atm with outbox := s.atm.outbox ++ s.atm.state.greeting, pc := .wait } := by
      unfold Atm.enter
      split
      · exact absurd ‹_› hdone
      · rfl
    obtain ⟨hbank, hhardware⟩ := hgreeting s.atm.state
    rw [hs]
    refine ⟨?_, rfl, ?_, Or.inl rfl, rfl, rfl, rfl⟩
    · simp [System.asked, hout, hbank]
    · simp [System.issued, hout, Machine.total_append, hhardware]

end Same

theorem isRequest_fromUser {m : Msg} (h : m.fromUser = true) :
    m.isRequest = false ∧ m.issues = 0 := by
  cases m <;> first | exact ⟨rfl, rfl⟩ | cases h

theorem isRequest_isReply {m : Msg} (h : m.isReply = true) :
    m.isRequest = false ∧ m.issues = 0 := by
  cases m <;> first | exact ⟨rfl, rfl⟩ | cases h

/-- Only the handlers of the `atm` ask, hear and pay. -/
theorem same_or_receives {s s' : System} (hserved : Served s) {l : Label}
    (hstep : machine.step s l = some s') :
    Same s s' ∨ ∃ m rest, l = .atm ∧ s.atm.outbox = [] ∧ s.atm.pc = .wait ∧
      (s.queue .atm).waiting = m :: rest ∧
      s' = { s.pop .atm m rest with atm := s.atm.receive m } := by
  cases moves_of_step hstep with
  | quit | noKey | bankDebit => exact Or.inl ⟨rfl, rfl, rfl, Or.inl rfl, rfl, rfl, rfl⟩
  | key _ hm =>
    obtain ⟨hrequest, hissues⟩ := isRequest_fromUser (fromUser_of_key hm)
    exact Or.inl (Same.push hrequest hissues)
  | user _ hm =>
    obtain ⟨hrequest, hissues⟩ := isRequest_fromUser hm
    exact Or.inl (Same.push hrequest hissues)
  | @close p rest =>
    have hpush : Same s (s.push p .closeQueue) := Same.push rfl rfl
    exact Or.inl ⟨hpush.asked, hpush.heard, hpush.issued, Or.inl rfl, rfl, rfl, rfl⟩
  | atmSend hout =>
    have hp := hserved.outbox _ (by rw [hout]; exact List.mem_cons_self)
    refine Or.inl ⟨asked_send hout hp, ?_, issued_send hout hp, Or.inl rfl, rfl, rfl, rfl⟩
    simp [System.heard, Function.update_of_ne hp.symm]
  | atmEnter hout => exact Or.inl (Same.enter hout)
  | atmReceive hout hpc hq => exact Or.inr ⟨_, _, rfl, hout, hpc, hq, rfl⟩
  | @bankSend m rest htodo =>
    have hm : m.isReply = true := hserved.unsent m (by simp [Bank.unsent, htodo])
    obtain ⟨hrequest, hissues⟩ := isRequest_isReply hm
    have hpush : Same s (s.push .atm m) := Same.push hrequest hissues
    exact Or.inl ⟨hpush.asked, hpush.heard, hpush.issued, Or.inl rfl, rfl, rfl, rfl⟩
  | bankReceive htodo hrun hq =>
    refine Or.inl ⟨?_, by simp [System.heard], by simp [System.issued], Or.inl rfl, rfl, rfl, rfl⟩
    simp [System.asked, Queue.sent_pop hq]
  | hardwareReceive hrun hq =>
    refine Or.inl ⟨by simp [System.asked], by simp [System.heard], ?_, Or.inl rfl, rfl, rfl, rfl⟩
    simp [System.issued, Queue.sent_pop hq]

/-- The state that waits for a reply has a handler for each answer. -/
theorem handles_answer {a : Atm} {q : Msg} (h : a.pending = some q) (b : ℕ) :
    (answer b q).type ∈ a.state.chain.map Prod.fst := by
  unfold Atm.pending at h
  split at h
  · cases h
    rename_i hstate
    rw [hstate, answer]
    split <;> simp [Msg.type, AtmState.chain]
  · cases h
    rename_i hstate
    rw [hstate, answer]
    split <;> simp [Msg.type, AtmState.chain]
  · cases h
    rename_i hstate
    simp [hstate, answer, Msg.type, AtmState.chain]
  · cases h

/-! ## In step -/

/-- The `atm` and the bank are in step: of the requests all but the pending one have been heard
of, and the state is one that the answers allow. -/
structure InStep (s : System) : Prop where
  asked : ∃ before, s.asked = before ++ s.atm.pending.toList ∧ before.length = s.heard.length
  pin : s.atm.state.admitted = true → s.atm.pin = ['1', '9', '3', '7']
  issued : s.issued = approved 199 (s.asked.take s.heard.length)

namespace InStep
variable {s s' : System}

/-- Only the fields of the `atm`, the requests, the replies heard and the money matter. -/
theorem congr (h : InStep s) (hpending : s'.atm.pending = s.atm.pending)
    (hadmitted : s'.atm.state.admitted = true →
      s.atm.state.admitted = true ∧ s'.atm.pin = s.atm.pin)
    (hasked : s'.asked = s.asked) (hheard : s'.heard = s.heard) (hissued : s'.issued = s.issued) :
    InStep s' := by
  refine ⟨?_, fun hs' => ?_, ?_⟩
  · rw [hasked, hpending, hheard]
    exact h.asked
  · obtain ⟨hs, hpin⟩ := hadmitted hs'
    exact hpin.trans (h.pin hs)
  · rw [hissued, hasked, hheard]
    exact h.issued

/-- A message that is not a reply is handled: the new state may have asked something. -/
theorem quiet (h : InStep s) (hout : s.atm.outbox = []) {m : Msg} {rest : List Msg} {a : Atm}
    (hm : m.isReply = false) (hnone : s.atm.pending = none)
    (hasks : requests ((a.outbox.filter fun e => e.1 = .bank).map Prod.snd) = a.pending.toList)
    (hissues : Machine.total Msg.issues
      ((a.outbox.filter fun e => e.1 = .hardware).map Prod.snd) = 0)
    (hpin : a.state.admitted = true → s.atm.state.admitted = true ∧ a.pin = s.atm.pin) :
    InStep { s.pop .atm m rest with atm := a } := by
  obtain ⟨before, hasked, hlen⟩ := h.asked
  have hbefore : s.asked = before := by simpa [hnone] using hasked
  refine ⟨⟨before, ?_, ?_⟩, fun ha => ?_, ?_⟩
  · rw [asked_receive hout rfl, hasks, hbefore]
  · rw [heard_receive, replies_of_not hm, List.append_nil, hlen]
  · obtain ⟨hs, heq⟩ := hpin ha
    exact heq.trans (h.pin hs)
  · rw [issued_receive hout rfl, hissues, asked_receive hout rfl, heard_receive,
      replies_of_not hm, List.append_nil, ← hlen, ← hbefore, List.take_left, h.issued, ← hlen,
      ← hbefore, List.take_length]
    rfl

/-- A message is popped that changes nothing here. -/
theorem keep (h : InStep s) (hout : s.atm.outbox = []) {m : Msg} {rest : List Msg} {a : Atm}
    (hm : m.isReply = false) (ha : a.outbox = []) (hpending : a.pending = s.atm.pending)
    (hstate : a.state = s.atm.state) (hpin : a.pin = s.atm.pin) :
    InStep { s.pop .atm m rest with atm := a } := by
  refine h.congr hpending (fun hadm => ⟨hstate ▸ hadm, hpin⟩) ?_ ?_ ?_
  · rw [asked_receive hout ha]
    exact List.append_nil _
  · rw [heard_receive, replies_of_not hm, List.append_nil]
  · rw [issued_receive hout ha]
    rfl

/-- A reply answers the pending request. -/
theorem answered (h : InStep s) {m : Msg}
    (hheard : s.heard ++ [m] <+: answers 199 s.asked) :
    ∃ before q, s.asked = before ++ [q] ∧ s.atm.pending = some q ∧
      before.length = s.heard.length ∧ m = answer (after 199 before) q := by
  obtain ⟨before, hasked, hlen⟩ := h.asked
  cases hpending : s.atm.pending with
  | none =>
    -- there are not so many requests
    have hle := hheard.length_le
    simp [hasked, hpending] at hle
    omega
  | some q =>
    have hq : s.asked = before ++ [q] := by simpa [hpending] using hasked
    refine ⟨before, q, hq, rfl, hlen, ?_⟩
    have hanswers : answers 199 s.asked =
        answers 199 before ++ [answer (after 199 before) q] := by
      rw [hq, answers_append, answers_singleton]
    obtain ⟨more, hmore⟩ := hheard
    rw [hanswers] at hmore
    have hlengths : s.heard.length = (answers 199 before).length := by rw [length_answers, hlen]
    have hparts := List.append_inj (by simpa [List.append_assoc] using hmore) hlengths
    exact (List.cons.inj (by simpa using hparts.2)).1

/-- A reply is handled in the state that waits for it. -/
theorem reply (h : InStep s) (hout : s.atm.outbox = []) {m q : Msg} {rest : List Msg} {a : Atm}
    {before : List Msg} (hm : m.isReply = true) (hasked : s.asked = before ++ [q])
    (hlen : before.length = s.heard.length) (hnone : a.pending = none)
    (hasks : requests ((a.outbox.filter fun e => e.1 = .bank).map Prod.snd) = [])
    (hissues : Machine.total Msg.issues
      ((a.outbox.filter fun e => e.1 = .hardware).map Prod.snd) = debit (after 199 before) q)
    (hpin : a.state.admitted = true → a.pin = ['1', '9', '3', '7']) :
    InStep { s.pop .atm m rest with atm := a } := by
  have hnew : ({ s.pop .atm m rest with atm := a } : System).asked = before ++ [q] := by
    rw [asked_receive hout rfl, hasks, List.append_nil, hasked]
  have hheard : ({ s.pop .atm m rest with atm := a } : System).heard.length =
      (before ++ [q]).length := by
    rw [heard_receive, replies_of hm]
    simp [hlen]
  refine ⟨⟨before ++ [q], ?_, hheard.symm⟩, hpin, ?_⟩
  · show _ = _ ++ a.pending.toList
    rw [hnew, hnone]
    exact (List.append_nil _).symm
  · rw [issued_receive hout rfl, hissues, h.issued, hnew, hheard, List.take_length, hasked, ← hlen,
      List.take_left, approved_append]
    rfl

/-- The waiting `atm` handles a message. -/
theorem receive (h : InStep s) (hout : s.atm.outbox = []) (hpc : s.atm.pc = .wait) {m : Msg}
    {rest : List Msg} (hq : (s.queue .atm).waiting = m :: rest) (hpatient : Patient s .atm)
    (hserved : Served { s.pop .atm m rest with atm := s.atm.receive m }) :
    InStep { s.pop .atm m rest with atm := s.atm.receive m } := by
  have hcancel : m = .cancelPressed → s.atm.pending = none := by
    intro hm
    by_contra hpending
    exact hpatient ⟨rfl, hout, hpc, hpending, by rw [hq, hm]; rfl⟩
  have hheard : m.isReply = true → s.heard ++ [m] <+: answers 199 s.asked := by
    intro hm
    have hpre := hserved.heard_isPrefix
    rw [heard_receive, replies_of hm] at hpre
    refine hpre.trans (answers_isPrefix ?_)
    have := served_isPrefix s
    simpa [System.served] using this
  have hmoved := receives s.atm m
  generalize s.atm.receive m = a at hmoved ⊢
  by_cases hm : m.isReply = true
  · obtain ⟨before, q, hasked, hpending, hlen, hanswer⟩ := h.answered (hheard hm)
    cases hmoved with
    | withdrawOk hstate =>
      have hq' : q = .withdraw s.atm.account s.atm.withdrawalAmount := by
        simpa [Atm.pending, hstate, eq_comm] using hpending
      subst hq'
      have hle : s.atm.withdrawalAmount ≤ after 199 before := by
        by_contra hgt
        simp [answer, hgt] at hanswer
      refine h.reply hout hm hasked hlen rfl ?_ ?_ (by simp [AtmState.admitted])
      · simp [hout, requests, Msg.isRequest]
      · simp [hout, Machine.total, Msg.issues, debit, hle]
    | withdrawDenied hstate =>
      have hq' : q = .withdraw s.atm.account s.atm.withdrawalAmount := by
        simpa [Atm.pending, hstate, eq_comm] using hpending
      subst hq'
      have hgt : ¬ s.atm.withdrawalAmount ≤ after 199 before := by
        intro hle
        simp [answer, hle] at hanswer
      refine h.reply hout hm hasked hlen rfl ?_ ?_ (by simp [AtmState.admitted])
      · simp [hout, requests]
      · simp [hout, Machine.total, Msg.issues, debit, hgt]
    | balance hstate amount =>
      have hq' : q = .getBalance s.atm.account := by
        simpa [Atm.pending, hstate, eq_comm] using hpending
      subst hq'
      refine h.reply hout hm hasked hlen rfl ?_ ?_ fun _ => h.pin (by rw [hstate]; rfl)
      · simp [hout, requests]
      · simp [hout, Machine.total, Msg.issues, debit]
    | pinVerified hstate =>
      have hq' : q = .verifyPin s.atm.account s.atm.pin := by
        simpa [Atm.pending, hstate, eq_comm] using hpending
      subst hq'
      have hpin : s.atm.pin = ['1', '9', '3', '7'] := by
        by_contra hne
        simp [answer, hne] at hanswer
      refine h.reply hout hm hasked hlen rfl ?_ ?_ fun _ => hpin
      · simp [hout, requests]
      · simp [hout, Machine.total, debit]
    | pinIncorrect hstate =>
      have hq' : q = .verifyPin s.atm.account s.atm.pin := by
        simpa [Atm.pending, hstate, eq_comm] using hpending
      subst hq'
      refine h.reply hout hm hasked hlen rfl ?_ ?_ (by simp [AtmState.admitted])
      · simp [hout, requests]
      · simp [hout, Machine.total, Msg.issues, debit]
    | discard hnone =>
      rw [hanswer] at hnone
      exact absurd (handles_answer hpending _) hnone
    | _ => cases hm
  · rw [Bool.not_eq_true] at hm
    cases hmoved with
    | withdrawOk | withdrawDenied | balance | pinVerified | pinIncorrect => cases hm
    | withdrawalCancelled hstate =>
      have := hcancel rfl
      simp [Atm.pending, hstate] at this
    | withdrawPressed hstate amount =>
      refine h.quiet hout hm (by simp [Atm.pending, hstate]) ?_ ?_ fun _ => ?_
      · simp [hout, requests, Msg.isRequest, Atm.pending]
      · simp [hout, Machine.total]
      · simp [hstate, AtmState.admitted]
    | balancePressed hstate =>
      refine h.quiet hout hm (by simp [Atm.pending, hstate]) ?_ ?_ fun _ => ?_
      · simp [hout, requests, Msg.isRequest, Atm.pending]
      · simp [hout, Machine.total]
      · simp [hstate, AtmState.admitted]
    | digit hstate d hlen =>
      refine h.quiet hout hm (by simp [Atm.pending, hstate]) ?_ ?_ fun hadm => ?_
      · simp [hout, requests, Atm.pending, hstate]
      · simp [hout, Machine.total]
      · simp [hstate, AtmState.admitted] at hadm
    | lastDigit hstate d hlen =>
      refine h.quiet hout hm (by simp [Atm.pending, hstate]) ?_ ?_ fun hadm => ?_
      · simp [hout, requests, Msg.isRequest, Atm.pending]
      · simp [hout, Machine.total]
      · simp [AtmState.admitted] at hadm
    | clear hstate =>
      refine h.quiet hout hm (by simp [Atm.pending, hstate]) ?_ ?_ fun hadm => ?_
      · simp [hout, requests, Atm.pending, hstate]
      · simp [hout, Machine.total]
      · simp [hstate, AtmState.admitted] at hadm
    | cancel hstate =>
      refine h.quiet hout hm (hcancel rfl) ?_ ?_ fun hadm => ?_
      · simp [hout, requests, Atm.pending]
      · simp [hout, Machine.total]
      · simp [AtmState.admitted] at hadm
    | cardInserted hstate account =>
      refine h.quiet hout hm (by simp [Atm.pending, hstate]) ?_ ?_ fun hadm => ?_
      · simp [hout, requests, Atm.pending]
      · simp [hout, Machine.total, Msg.issues]
      · simp [AtmState.admitted] at hadm
    | close => exact h.keep hout hm hout rfl rfl rfl
    | discard => exact h.keep hout hm hout rfl rfl rfl

theorem init : InStep machine.init := ⟨⟨[], rfl, rfl⟩, by simp [machine, AtmState.admitted], rfl⟩

theorem step (h : InStep s) (hserved : Served s) {l : Label} (hl : Patient s l)
    (hstep : machine.step s l = some s') : InStep s' := by
  rcases same_or_receives hserved hstep with hsame | ⟨m, rest, rfl, hout, hpc, hq, rfl⟩
  · refine h.congr hsame.pending (fun hadm => ?_) hsame.asked hsame.heard hsame.issued
    exact ⟨hsame.admitted ▸ hadm, hsame.pin⟩
  · exact h.receive hout hpc hq hl (hserved.step hstep)

end InStep

theorem inStep_of_reachableBy {s : System} (h : machine.ReachableBy Patient s) :
    Served s ∧ InStep s :=
  h.invariant (P := fun s => Served s ∧ InStep s) ⟨Served.init, InStep.init⟩
    fun _ _ _ hs hl hstep => ⟨hs.1.step hstep, hs.2.step hs.1 hl hstep⟩

/-- What the bank has approved in replies that the `atm` has not heard yet. -/
def System.onTheWay (s : System) : ℕ :=
  approved (after 199 (s.served.take s.heard.length)) (s.served.drop s.heard.length)

theorem approved_served (s : System) :
    approved 199 (s.served.take s.heard.length) + s.onTheWay = approved 199 s.served := by
  rw [System.onTheWay, ← approved_append, List.take_append_drop]

/-- What is on the way belongs to the pending request. -/
theorem InStep.onTheWay_eq_zero {s : System} (h : InStep s)
    (hstate : s.atm.state ≠ .processWithdrawal) : s.onTheWay = 0 := by
  obtain ⟨before, hasked, hlen⟩ := h.asked
  have hdrop : s.served.drop s.heard.length <+: s.atm.pending.toList := by
    have hpre : s.served.drop before.length <+: s.asked.drop before.length := by
      obtain ⟨more, hmore⟩ := served_isPrefix s
      rw [← hmore, List.drop_append]
      exact List.prefix_append ..
    rwa [hasked, List.drop_left, hlen] at hpre
  have hdebit : ∀ q b, s.atm.pending = some q → debit b q = 0 := by
    intro q b hq
    unfold Atm.pending at hq
    split at hq <;> cases hq
    · rfl
    · exact absurd ‹_› hstate
    · rfl
  unfold System.onTheWay
  cases hpending : s.atm.pending with
  | none =>
    rw [hpending] at hdrop
    rw [List.prefix_nil.mp hdrop, approved]
  | some q =>
    rw [hpending] at hdrop
    rcases List.prefix_cons_iff.mp hdrop with hnil | ⟨rest, hrest, hnil⟩
    · rw [hnil, approved]
    · rw [hrest, List.prefix_nil.mp hnil, approved, approved, hdebit q _ hpending]

/-- **Patient sessions.**  In a run in which no `cancel_pressed` is handled while a reply of the
bank is due, a session is past the pin check only with the right pin, at most one request is open,
and that only in the states that wait for its reply, and no money is made or lost: what the
hardware is told to issue, what the bank still has but for the debit of its handler in progress,
and an approval on its way to the `atm`, which there is only in `process_withdrawal`, are together
the `199` of the beginning. -/
theorem patient_sessions {s : System} (h : machine.ReachableBy Patient s) :
    (s.atm.state.admitted = true → s.atm.pin = ['1', '9', '3', '7']) ∧
      s.asked.length = s.heard.length + s.atm.pending.toList.length ∧
      s.issued + s.onTheWay + s.bank.balance = 199 + s.bank.undebited ∧
      (s.atm.state ≠ .processWithdrawal → s.onTheWay = 0) := by
  obtain ⟨hserved, hinstep⟩ := inStep_of_reachableBy h
  obtain ⟨before, hasked, hlen⟩ := hinstep.asked
  refine ⟨hinstep.pin, ?_, ?_, hinstep.onTheWay_eq_zero⟩
  · rw [hasked, List.length_append, hlen]
  · have hle : s.heard.length ≤ s.served.length := by
      have := hserved.heard_isPrefix.length_le
      rwa [length_answers] at this
    have htake : s.asked.take s.heard.length = s.served.take s.heard.length := by
      obtain ⟨more, hmore⟩ := served_isPrefix s
      rw [← hmore, List.take_append_of_le_length hle]
    have hissued := hinstep.issued
    rw [htake] at hissued
    have hsum := after_add_approved 199 s.served
    have hsplit := approved_served s
    have hbalance := hserved.balance
    omega

/-- The labels of a session in which the bank approves a withdrawal. -/
def withdrawal : List Label :=
  "i1937".toList.map .getchar ++ List.replicate 14 .atm ++ List.replicate 2 .bank ++
    List.replicate 3 .atm ++ .getchar 'w' :: (List.replicate 2 .atm ++ List.replicate 3 .bank)

/-- The approval is on its way, and what it approves has left the account. -/
theorem withdrawal_patient_sessions :
    ∃ s, machine.run machine.init withdrawal = some s ∧ s.onTheWay = 50 ∧
      s.issued + s.onTheWay + s.bank.balance = 199 + s.bank.undebited := by
  obtain ⟨s, hs, hway⟩ : ∃ s, machine.run machine.init withdrawal = some s ∧ s.onTheWay = 50 :=
    ⟨_, rfl, rfl⟩
  have hmeets : machine.RunMeets Patient machine.init withdrawal := by decide +kernel
  exact ⟨s, hs, hway, (patient_sessions (Machine.reachableBy_of_run _ hmeets hs)).2.2.1⟩

end Sundries.ATM
