import Sundries.Atm

/-!
# The bank's replies

The bank answers its requests one after the other, with the balance the earlier ones have
left, and all queues are first-in-first-out.  So the replies that arrive at the `atm` are,
as a list, the answers to its requests, whatever the `atm` has made of them in between: the
`k`-th reply belongs to the `k`-th request, which need not be the one the `atm` waits for.
-/
namespace Sundries.ATM

/-- The messages the bank replies to. -/
def Msg.isRequest : Msg → Bool
  | .verifyPin .. | .withdraw .. | .getBalance _ => true
  | _ => false

def Msg.isReply : Msg → Bool
  | .pinVerified | .pinIncorrect | .withdrawOk | .withdrawDenied | .balance _ => true
  | _ => false

def requests (l : List Msg) : List Msg := l.filter Msg.isRequest

def replies (l : List Msg) : List Msg := l.filter Msg.isReply

theorem requests_append (l l' : List Msg) : requests (l ++ l') = requests l ++ requests l' :=
  List.filter_append ..

theorem replies_append (l l' : List Msg) : replies (l ++ l') = replies l ++ replies l' :=
  List.filter_append ..

@[simp] theorem replies_of_not {m : Msg} (h : m.isReply = false) : replies [m] = [] := by
  simp [replies, h]

@[simp] theorem replies_of {m : Msg} (h : m.isReply = true) : replies [m] = [m] := by
  simp [replies, h]

@[simp] theorem requests_of_not {m : Msg} (h : m.isRequest = false) : requests [m] = [] := by
  simp [requests, h]

@[simp] theorem requests_of {m : Msg} (h : m.isRequest = true) : requests [m] = [m] := by
  simp [requests, h]

/-! ## A bank that serves one request after the other -/

/-- The answer to a request when the balance is `b`. -/
def answer (b : ℕ) : Msg → Msg
  | .verifyPin _ pin => if pin = ['1', '9', '3', '7'] then .pinVerified else .pinIncorrect
  | .withdraw _ amount => if amount ≤ b then .withdrawOk else .withdrawDenied
  | _ => .balance b

/-- What a request takes from the balance `b`. -/
def debit (b : ℕ) : Msg → ℕ
  | .withdraw _ amount => if amount ≤ b then amount else 0
  | _ => 0

def answers (b : ℕ) : List Msg → List Msg
  | [] => []
  | r :: rs => answer b r :: answers (b - debit b r) rs

/-- The balance the requests leave. -/
def after (b : ℕ) : List Msg → ℕ
  | [] => b
  | r :: rs => after (b - debit b r) rs

/-- What the requests take from the balance `b`. -/
def approved (b : ℕ) : List Msg → ℕ
  | [] => 0
  | r :: rs => debit b r + approved (b - debit b r) rs

theorem debit_le (b : ℕ) (r : Msg) : debit b r ≤ b := by
  unfold debit
  split
  · split <;> omega
  · omega

theorem answers_append (b : ℕ) (rs rs' : List Msg) :
    answers b (rs ++ rs') = answers b rs ++ answers (after b rs) rs' := by
  induction rs generalizing b with
  | nil => rfl
  | cons r rs ih => simp only [List.cons_append, answers, after, ih]

theorem after_append (b : ℕ) (rs rs' : List Msg) :
    after b (rs ++ rs') = after (after b rs) rs' := by
  induction rs generalizing b with
  | nil => rfl
  | cons r rs ih => exact ih (b - debit b r)

theorem answers_singleton (b : ℕ) (r : Msg) : answers b [r] = [answer b r] := rfl

theorem after_singleton (b : ℕ) (r : Msg) : after b [r] = b - debit b r := rfl

@[simp] theorem length_answers (b : ℕ) (rs : List Msg) : (answers b rs).length = rs.length := by
  induction rs generalizing b with
  | nil => rfl
  | cons r rs ih => simp only [answers, List.length_cons, ih]

theorem approved_append (b : ℕ) (rs rs' : List Msg) :
    approved b (rs ++ rs') = approved b rs + approved (after b rs) rs' := by
  induction rs generalizing b with
  | nil => simp [approved, after]
  | cons r rs ih =>
    simp only [List.cons_append, approved, after, ih]
    omega

/-- No request overdraws the account. -/
theorem after_add_approved (b : ℕ) (rs : List Msg) : after b rs + approved b rs = b := by
  induction rs generalizing b with
  | nil => rfl
  | cons r rs ih =>
    have htail := ih (b - debit b r)
    have hle := debit_le b r
    simp only [after, approved]
    omega

/-- Requests to come do not change the answers to those made. -/
theorem answers_isPrefix {b : ℕ} {rs rs' : List Msg} (h : rs <+: rs') :
    answers b rs <+: answers b rs' := by
  obtain ⟨more, rfl⟩ := h
  rw [answers_append]
  exact List.prefix_append ..

/-- The `k`-th answer is given with the balance the requests before have left. -/
theorem getElem?_answers {b : ℕ} {rs : List Msg} {k : ℕ} {m : Msg}
    (h : (answers b rs)[k]? = some m) :
    ∃ r, rs[k]? = some r ∧ m = answer (after b (rs.take k)) r := by
  induction rs generalizing b k with
  | nil => cases h
  | cons r rs ih =>
    cases k with
    | zero => exact ⟨r, rfl, (Option.some.inj h).symm⟩
    | succ k => exact ih h

/-! ## The bank's thread -/

namespace Bank

/-- The replies the handler has still to send. -/
def unsent (b : Bank) : List Msg :=
  b.todo.filterMap fun
    | .send m => some m
    | .debit _ => none

/-- What it has still to take from the balance: `withdraw_ok` is sent before the debit. -/
def undebited (b : Bank) : ℕ :=
  Machine.total (fun
    | .send _ => 0
    | .debit amount => amount) b.todo

end Bank

/-- The requests the bank has taken from its queue. -/
def System.served (s : System) : List Msg := requests (s.queue .bank).popped

/-- The requests of the `atm`, also those its handler has still to send. -/
def System.asked (s : System) : List Msg :=
  requests ((s.queue .bank).sent ++ (s.atm.outbox.filter fun e => e.1 = .bank).map Prod.snd)

/-- The replies the `atm` has taken from its queue. -/
def System.heard (s : System) : List Msg := replies (s.queue .atm).popped

/-- The replies and the balance are those of a bank that serves the requests in order. -/
structure Served (s : System) : Prop where
  /-- The `atm` sends nothing to itself. -/
  outbox : ∀ e ∈ s.atm.outbox, e.1 ≠ .atm
  unsent : ∀ m ∈ s.bank.unsent, m.isReply = true
  replies : replies (s.queue .atm).sent ++ s.bank.unsent = answers 199 s.served
  balance : s.bank.balance = after 199 s.served + s.bank.undebited

namespace Served
variable {s s' : System}

theorem init : Served machine.init :=
  ⟨List.forall_mem_nil _, List.forall_mem_nil _, rfl, rfl⟩

/-- A message that is not a reply reaches the `atm`. -/
theorem push_atm (h : Served s) {m : Msg} (hm : m.isReply = false) : Served (s.push .atm m) :=
  ⟨h.outbox, h.unsent, by simpa [System.served, replies_append, hm] using h.replies,
    by simpa [System.served] using h.balance⟩

/-- A message reaches another party. -/
theorem push (h : Served s) {p : Party} (hp : p ≠ .atm) (m : Msg) : Served (s.push p m) := by
  refine ⟨h.outbox, h.unsent, ?_, ?_⟩
  · have hserved : (s.push p m).served = s.served := by
      cases p <;> simp [System.served]
    rw [hserved, ← h.replies, System.queue_push, Function.update_of_ne hp.symm]
    rfl
  · have hserved : (s.push p m).served = s.served := by
      cases p <;> simp [System.served]
    rw [hserved]
    exact h.balance

theorem isReply_fromUser {m : Msg} (h : m.fromUser = true) : m.isReply = false := by
  cases m <;> first | rfl | cases h

/-- What the handlers of the `atm` send goes to the bank and to the hardware. -/
theorem receives_outbox {a a' : Atm} {m : Msg} (h : Receives a m a')
    (ha : ∀ e ∈ a.outbox, e.1 ≠ .atm) : ∀ e ∈ a'.outbox, e.1 ≠ .atm := by
  intro e he
  cases h with
  | digit | clear | pinVerified | cancel | close | discard => exact ha e he
  | withdrawOk | withdrawalCancelled =>
    simp only [List.mem_append, List.mem_singleton] at he
    rcases he with (he | rfl) | rfl
    · exact ha e he
    · simp
    · simp
  | _ =>
    simp only [List.mem_append, List.mem_singleton] at he
    rcases he with he | rfl
    · exact ha e he
    · simp

theorem enter_outbox {a : Atm} (ha : ∀ e ∈ a.outbox, e.1 ≠ .atm) :
    ∀ e ∈ a.enter.outbox, e.1 ≠ .atm := by
  intro e he
  unfold Atm.enter at he
  split at he
  · rcases List.mem_append.mp he with he | he
    · exact ha e he
    · simp [List.mem_singleton.mp he]
  · rcases List.mem_append.mp he with he | he
    · exact ha e he
    · unfold AtmState.greeting at he
      split at he <;> simp_all

/-- The bank takes a message from its queue. -/
theorem bankReceive (h : Served s) (htodo : s.bank.todo = []) {m : Msg} {rest : List Msg} :
    Served { s.pop .bank m rest with bank := s.bank.receive m } := by
  have hreplies : ATM.replies (s.queue .atm).sent = answers 199 s.served := by
    simpa [Bank.unsent, htodo] using h.replies
  have hbalance : s.bank.balance = after 199 s.served := by
    simpa [Bank.undebited, htodo, Machine.total] using h.balance
  have hpopped : ∀ b : Bank, ({ s.pop .bank m rest with bank := b } : System).served =
      s.served ++ requests [m] := by
    intro b
    simp [System.served, requests_append]
  have hmoved := bankReceives s.bank m
  -- a request is answered with the present balance
  have hrequest : ∀ (r : Msg) (b : Bank), m.isRequest = true → r.isReply = true →
      b.unsent = [r] → r = answer s.bank.balance m →
      b.balance = s.bank.balance - debit s.bank.balance m + b.undebited →
      Served { s.pop .bank m rest with bank := b } := by
    intro r b hm hr hunsent hanswer hb
    refine ⟨h.outbox, fun x hx => ?_, ?_, ?_⟩
    · change x ∈ b.unsent at hx
      rw [hunsent, List.mem_singleton] at hx
      rwa [hx]
    · rw [hpopped, requests_of hm, answers_append, answers_singleton, ← hbalance, ← hanswer,
        ← hreplies, ← hunsent]
      rfl
    · rw [hpopped, requests_of hm, after_append, after_singleton, ← hbalance]
      exact hb
  -- anything else is not
  have hother : ∀ b : Bank, m.isRequest = false → b.todo = [] → b.balance = s.bank.balance →
      Served { s.pop .bank m rest with bank := b } := by
    intro b hm hb hbal
    refine ⟨h.outbox, ?_, ?_, ?_⟩
    · simp [Bank.unsent, hb]
    · rw [hpopped, requests_of_not hm, List.append_nil, ← hreplies]
      simp [Bank.unsent, hb]
    · rw [hpopped, requests_of_not hm, List.append_nil]
      simpa [Bank.undebited, hb, Machine.total, hbal] using hbalance
  generalize s.bank.receive m = b' at hmoved ⊢
  cases hmoved with
  | verifyPin account pin =>
    refine hrequest _ _ rfl ?_ rfl rfl ?_
    · split <;> rfl
    · simp [debit, Bank.undebited, Machine.total]
  | withdrawOk account hle =>
    refine hrequest _ _ rfl rfl rfl (by simp [answer, hle]) ?_
    simp [debit, hle, Bank.undebited, Machine.total]
  | withdrawDenied account hle =>
    refine hrequest _ _ rfl rfl rfl (by simp [answer, hle]) ?_
    simp [debit, hle, Bank.undebited, Machine.total]
  | getBalance account =>
    refine hrequest _ _ rfl rfl rfl rfl ?_
    simp [debit, Bank.undebited, Machine.total]
  | notice htype => exact hother _ (by cases m <;> simp_all [Msg.type, Msg.isRequest]) rfl rfl
  | close => exact hother _ rfl htodo rfl
  | discard hnone =>
    exact hother _ (by cases m <;> simp_all [Bank.chain, Msg.type, Msg.isRequest]) htodo rfl

theorem step (h : Served s) {l : Label} (hstep : machine.step s l = some s') : Served s' := by
  cases moves_of_step hstep with
  | quit | noKey => exact ⟨h.outbox, h.unsent, h.replies, h.balance⟩
  | key _ hm => exact h.push_atm (isReply_fromUser (fromUser_of_key hm))
  | user _ hm => exact h.push_atm (isReply_fromUser hm)
  | @close p rest hclosing =>
    have hpush : Served (s.push p .closeQueue) := by
      by_cases hp : p = .atm
      · subst p
        exact h.push_atm rfl
      · exact h.push hp _
    exact ⟨hpush.outbox, hpush.unsent, hpush.replies, hpush.balance⟩
  | @atmSend p m rest hout =>
    have hp : p ≠ .atm := h.outbox (p, m) (by simp [hout])
    have hpush := h.push hp m
    exact ⟨fun e he => h.outbox e (by simp [hout, he]), hpush.unsent, hpush.replies,
      hpush.balance⟩
  | atmEnter hout hpc =>
    exact ⟨enter_outbox h.outbox, h.unsent, h.replies, h.balance⟩
  | @atmReceive hout hpc m rest hq =>
    refine ⟨receives_outbox (receives s.atm m) h.outbox, h.unsent, ?_, ?_⟩
    · have hsent : ((s.pop .atm m rest).queue .atm).sent = (s.queue .atm).sent := by
        simpa using Queue.sent_pop hq
      show ATM.replies ((s.pop .atm m rest).queue .atm).sent ++ s.bank.unsent = _
      rw [hsent, h.replies]
      simp [System.served]
    · simpa [System.served] using h.balance
  | @bankSend m rest htodo =>
    have hm : m.isReply = true := h.unsent m (by simp [Bank.unsent, htodo])
    refine ⟨h.outbox, fun x hx => h.unsent x ?_, ?_, ?_⟩
    · have hx' : x ∈ Bank.unsent { s.bank with todo := rest } := hx
      simp only [Bank.unsent, htodo] at hx' ⊢
      exact List.mem_cons_of_mem _ hx'
    · have hreplies := h.replies
      simp only [Bank.unsent, htodo] at hreplies
      simpa [Bank.unsent, replies_append, hm, System.served] using hreplies
    · have hbalance := h.balance
      simpa [Bank.undebited, htodo, Machine.total, System.served] using hbalance
  | @bankDebit amount rest htodo =>
    refine ⟨h.outbox, fun x hx => h.unsent x ?_, ?_, ?_⟩
    · simpa [Bank.unsent, htodo] using hx
    · simpa [Bank.unsent, htodo, System.served] using h.replies
    · have hbalance := h.balance
      simp only [Bank.undebited, htodo, Machine.total] at hbalance
      show s.bank.balance - amount = after 199 s.served + Machine.total _ rest
      omega
  | @bankReceive htodo hrun m rest hq => exact h.bankReceive htodo
  | @hardwareReceive hrun m rest hq =>
    exact ⟨h.outbox, h.unsent, by simpa [System.served] using h.replies,
      by simpa [System.served] using h.balance⟩

end Served

theorem served_of_reachable {s : System} (h : machine.Reachable s) : Served s :=
  h.invariant Served.init fun _ _ _ hs hstep => hs.step hstep

/-- What the bank has taken was asked. -/
theorem served_isPrefix (s : System) : s.served <+: s.asked := by
  unfold System.served System.asked Queue.sent
  rw [List.append_assoc, requests_append]
  exact List.prefix_append ..

/-- What the `atm` has heard is answers to what the bank has taken. -/
theorem Served.heard_isPrefix {s : System} (h : Served s) : s.heard <+: answers 199 s.served := by
  rw [← h.replies]
  unfold System.heard Queue.sent
  rw [replies_append, List.append_assoc]
  exact List.prefix_append ..

theorem Served.heard_isPrefix_asked {s : System} (h : Served s) : s.heard <+: answers 199 s.asked :=
  h.heard_isPrefix.trans (answers_isPrefix (served_isPrefix s))

/-- **Replies and requests.**  In every run the `k`-th reply that the `atm` takes from its
queue, whether it handles it or not, is the bank's answer to its `k`-th request, given with the
balance that the requests before it have left.  What the bank has taken from the account is what
it has approved, but for the debit of the handler in progress, and it never takes more than there
is. -/
theorem replies_answer_requests {s : System} (h : machine.Reachable s) :
    (∀ k r, s.heard[k]? = some r →
      ∃ q, s.asked[k]? = some q ∧ r = answer (after 199 (s.asked.take k)) q) ∧
      s.bank.balance + approved 199 s.served = 199 + s.bank.undebited ∧
      s.bank.undebited ≤ s.bank.balance := by
  have hserved := served_of_reachable h
  refine ⟨fun k r hr => ?_, ?_, ?_⟩
  · obtain ⟨more, hmore⟩ := hserved.heard_isPrefix_asked
    refine getElem?_answers ?_
    rw [← hmore]
    exact List.getElem?_append_left (List.getElem?_eq_some_iff.mp hr).1 ▸ hr
  · have hsum := after_add_approved 199 s.served
    have hbalance := hserved.balance
    omega
  · have hbalance := hserved.balance
    omega

/-- The labels of a run in which the user types ahead: the right pin, a cancel while the bank is
asked, and then another card with the pin `pin`. -/
def typeAhead (pin : List Char) : List Label :=
  (("i1937ci".toList ++ pin).map .getchar ++ List.replicate 14 .atm ++ List.replicate 2 .bank) ++
    List.replicate 18 .atm

/-- The reply to the first pin is heard after the second one has been asked about. -/
theorem typeAhead_replies_answer_requests :
    ∃ s, machine.run machine.init (typeAhead ['1', '2', '3', '4']) = some s ∧
      s.heard = [.pinVerified] ∧
      s.asked = [.verifyPin "acc1234" ['1', '9', '3', '7'],
        .verifyPin "acc1234" ['1', '2', '3', '4']] ∧
      (∃ q, s.asked[0]? = some q ∧ .pinVerified = answer (after 199 (s.asked.take 0)) q) ∧
      s.bank.balance + approved 199 s.served = 199 + s.bank.undebited := by
  obtain ⟨s, hs, hheard, hasked⟩ : ∃ s,
      machine.run machine.init (typeAhead ['1', '2', '3', '4']) = some s ∧
      s.heard = [.pinVerified] ∧
      s.asked = [.verifyPin "acc1234" ['1', '9', '3', '7'],
        .verifyPin "acc1234" ['1', '2', '3', '4']] := ⟨_, rfl, rfl, rfl⟩
  obtain ⟨hreplies, hbalance, -⟩ :=
    replies_answer_requests (Machine.reachable_of_run _ hs)
  exact ⟨s, hs, hheard, hasked, hreplies 0 _ (by rw [hheard]; rfl), hbalance⟩

end Sundries.ATM
