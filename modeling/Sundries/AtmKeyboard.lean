import Sundries.AtmSessions

/-!
# The `atm` as `main` drives it

`main` sends digits, one card, one amount, and cancels.  Whoever types ahead and cancels can get
past the pin check with any four digits, since the reply to an earlier request is taken for the
one to the last; only without cancels while a reply is due is the pin checked.  What is paid out
has been debited or is just about to be, since all amounts are the same.
-/
namespace Sundries.ATM

def Label.isUser : Label → Bool
  | .user _ => true
  | _ => false

/-- The step is not one of another owner of the sender. -/
def Typed (l : Label) : Prop := l.isUser = false

instance (l : Label) : Decidable (Typed l) := inferInstanceAs (Decidable (_ = _))

/-- The characters `main` sends as digits. -/
def digits : List Char := ['0', '1', '2', '3', '4', '5', '6', '7', '8', '9']

theorem mem_digits_of_key {c d : Char} (h : key c = some (.digitPressed d)) : d ∈ digits := by
  unfold key at h
  split at h <;> cases h <;> decide

theorem amount_of_key {c : Char} {n : ℕ} (h : key c = some (.withdrawPressed n)) : n = 50 := by
  unfold key at h
  split at h <;> cases h
  rfl

theorem key_of_mem_digits {d : Char} (h : d ∈ digits) : key d = some (.digitPressed d) ∧ d ≠ 'q' := by
  simp only [digits, List.mem_cons, List.not_mem_nil, or_false] at h
  rcases h with rfl | rfl | rfl | rfl | rfl | rfl | rfl | rfl | rfl | rfl <;>
    exact ⟨rfl, by decide⟩

theorem key_card : key 'i' = some (.cardInserted "acc1234") ∧ 'i' ≠ 'q' := ⟨rfl, by decide⟩

theorem key_cancel : key 'c' = some .cancelPressed ∧ 'c' ≠ 'q' := ⟨rfl, by decide⟩

/-! ## What the keyboard can bring about -/

/-- What holds in a run that only `main` feeds. -/
structure Keyboard (s : System) : Prop where
  keys : ∀ m ∈ (s.queue .atm).waiting, m.fromUser = true → ∃ c, key c = some m
  digits : ∀ c ∈ s.atm.pin, c ∈ digits
  short : s.atm.state = .gettingPin → s.atm.pin.length < pinLength
  full : s.atm.state = .verifyingPin ∨ s.atm.state.admitted = true → s.atm.pin.length = pinLength
  amount : s.atm.state = .processWithdrawal → s.atm.withdrawalAmount = 50
  asked : ∀ account n, .withdraw account n ∈ s.asked → n = 50
  issued : s.issued ≤ 50 * s.heard.count .withdrawOk

/-- The keys that wait in the queue of the `atm` after a step. -/
theorem keys_step {s s' : System} (hserved : Served s) {l : Label} (hl : Typed l)
    (hstep : machine.step s l = some s')
    (h : ∀ m ∈ (s.queue .atm).waiting, m.fromUser = true → ∃ c, key c = some m) :
    ∀ m ∈ (s'.queue .atm).waiting, m.fromUser = true → ∃ c, key c = some m := by
  -- a message comes in that a key stands for, or that no user sends
  have hpush : ∀ m, (m.fromUser = true → ∃ c, key c = some m) →
      ∀ x ∈ (s.queue .atm).waiting ++ [m], x.fromUser = true → ∃ c, key c = some x := by
    intro m hm x hx hu
    rcases List.mem_append.mp hx with hx | hx
    · exact h x hx hu
    · rw [List.mem_singleton.mp hx] at hu ⊢
      exact hm hu
  cases moves_of_step hstep with
  | quit | noKey | atmEnter | bankDebit => exact h
  | @key _ c m hm => simpa using hpush m fun _ => ⟨c, hm⟩
  | user => cases hl
  | @close p rest =>
    by_cases hp : p = .atm
    · subst hp
      simpa using hpush .closeQueue fun hu => by cases hu
    · simpa only [System.queue_push, Function.update_of_ne (Ne.symm hp)] using h
  | @atmSend p m rest hout =>
    have hp : p ≠ .atm := hserved.outbox _ (by rw [hout]; exact List.mem_cons_self)
    simpa [Function.update_of_ne hp.symm] using h
  | @atmReceive hout hpc m rest hq =>
    intro x hx
    exact h x (by rw [hq]; exact List.mem_cons_of_mem m (by simpa using hx))
  | @bankSend m rest htodo =>
    have hm : m.isReply = true := hserved.unsent m (by simp [Bank.unsent, htodo])
    simpa using hpush m fun hu => by
      rw [Served.isReply_fromUser hu] at hm
      cases hm
  | bankReceive | hardwareReceive => simpa using h

namespace Keyboard
variable {s s' : System}

theorem init : Keyboard machine.init := by
  refine ⟨List.forall_mem_nil _, List.forall_mem_nil _, ?_, ?_, ?_, ?_, Nat.le_refl 0⟩
  · intro h
    cases h
  · rintro (h | h) <;> cases h
  · intro h
    cases h
  · intro account n h
    cases h

theorem of_same (h : Keyboard s) (hsame : Same s s')
    (hkeys : ∀ m ∈ (s'.queue .atm).waiting, m.fromUser = true → ∃ c, key c = some m) :
    Keyboard s' := by
  refine ⟨hkeys, by rw [hsame.pin]; exact h.digits, fun hs' => ?_, fun hs' => ?_, fun hs' => ?_,
    by rw [hsame.asked]; exact h.asked, by rw [hsame.issued, hsame.heard]; exact h.issued⟩
  · rcases hsame.state with hstate | ⟨-, hcard⟩
    · rw [hsame.pin]
      exact h.short (hstate ▸ hs')
    · rw [hcard] at hs'
      cases hs'
  · rw [hsame.pin]
    rcases hsame.state with hstate | ⟨-, hcard⟩
    · exact h.full (hstate ▸ hs')
    · rw [hcard] at hs'
      rcases hs' with hs' | hs' <;> cases hs'
  · rcases hsame.state with hstate | ⟨-, hcard⟩
    · rw [hsame.amount]
      exact h.amount (hstate ▸ hs')
    · rw [hcard] at hs'
      cases hs'

theorem receive (h : Keyboard s) (hout : s.atm.outbox = []) {m : Msg} {rest : List Msg}
    (hq : (s.queue .atm).waiting = m :: rest)
    (hkeys : ∀ x ∈ rest, x.fromUser = true → ∃ c, key c = some x) :
    Keyboard { s.pop .atm m rest with atm := s.atm.receive m } := by
  have hmoved := receives s.atm m
  have hm : m.fromUser = true → ∃ c, key c = some m := h.keys m (by simp [hq])
  generalize s.atm.receive m = a at hmoved ⊢
  -- the requests and the money are those of before and what the handler sends
  have build : (∀ c ∈ a.pin, c ∈ ATM.digits) →
      (a.state = .gettingPin → a.pin.length < pinLength) →
      (a.state = .verifyingPin ∨ a.state.admitted = true → a.pin.length = pinLength) →
      (a.state = .processWithdrawal → a.withdrawalAmount = 50) →
      (∀ account n, .withdraw account n ∈
        requests ((a.outbox.filter fun e => e.1 = .bank).map Prod.snd) → n = 50) →
      Machine.total Msg.issues ((a.outbox.filter fun e => e.1 = .hardware).map Prod.snd) ≤
        50 * (replies [m]).count .withdrawOk →
      Keyboard { s.pop .atm m rest with atm := a } := by
    intro hdigits hshort hfull hamount hasked hissued
    refine ⟨by simpa using hkeys, hdigits, hshort, hfull, hamount, fun account n hn => ?_, ?_⟩
    · rw [asked_receive hout rfl] at hn
      rcases List.mem_append.mp hn with hn | hn
      · exact h.asked account n hn
      · exact hasked account n hn
    · rw [issued_receive hout rfl, heard_receive, List.count_append, Nat.mul_add]
      exact Nat.add_le_add h.issued hissued
  cases hmoved with
  | withdrawOk hstate =>
    refine build h.digits (by simp) (by simp [AtmState.admitted]) (by simp) ?_ ?_
    · simp [hout, requests, Msg.isRequest]
    · have hcount : (replies [Msg.withdrawOk]).count .withdrawOk = 1 := rfl
      simp [hout, Machine.total, Msg.issues, h.amount hstate, hcount]
  | withdrawDenied | withdrawalCancelled | cancel =>
    refine build h.digits (by simp) (by simp [AtmState.admitted]) (by simp) ?_ ?_
    · simp [hout, requests, Msg.isRequest]
    · simp [hout, Machine.total, Msg.issues]
  | pinIncorrect hstate =>
    refine build h.digits (by simp) (by simp [AtmState.admitted]) (by simp) ?_ ?_
    · simp [hout, requests]
    · simp [hout, Machine.total, Msg.issues]
  | balance hstate amount =>
    refine build h.digits (by simp) (fun _ => h.full (Or.inr (by rw [hstate]; rfl))) (by simp) ?_ ?_
    · simp [hout, requests]
    · simp [hout, Machine.total, Msg.issues]
  | withdrawPressed hstate amount =>
    obtain ⟨c, hc⟩ := hm rfl
    refine build h.digits (by simp) (fun _ => h.full (Or.inr (by rw [hstate]; rfl)))
      (fun _ => amount_of_key hc) ?_ ?_
    · simp [hout, requests, Msg.isRequest, amount_of_key hc]
    · simp [hout, Machine.total]
  | balancePressed hstate =>
    refine build h.digits (by simp) (fun _ => h.full (Or.inr (by rw [hstate]; rfl))) (by simp) ?_ ?_
    · simp [hout, requests, Msg.isRequest]
    · simp [hout, Machine.total]
  | pinVerified hstate =>
    refine build h.digits (by simp) (fun _ => h.full (Or.inl hstate)) (by simp) ?_ ?_
    · simp [hout, requests]
    · simp [hout, Machine.total]
  | digit hstate d hlen =>
    obtain ⟨c, hc⟩ := hm rfl
    have hshort := h.short hstate
    refine build ?_ (fun _ => ?_) (by simp [hstate, AtmState.admitted]) (by simp [hstate]) ?_ ?_
    · intro x hx
      rcases List.mem_append.mp hx with hx | hx
      · exact h.digits x hx
      · exact List.mem_singleton.mp hx ▸ mem_digits_of_key hc
    · rw [List.length_append, List.length_singleton]
      omega
    · simp [hout, requests]
    · simp [hout, Machine.total]
  | lastDigit hstate d hlen =>
    obtain ⟨c, hc⟩ := hm rfl
    refine build ?_ (by simp) (fun _ => by simpa using hlen) (by simp) ?_ ?_
    · intro x hx
      rcases List.mem_append.mp hx with hx | hx
      · exact h.digits x hx
      · exact List.mem_singleton.mp hx ▸ mem_digits_of_key hc
    · simp [hout, requests, Msg.isRequest]
    · simp [hout, Machine.total]
  | clear hstate =>
    have hshort := h.short hstate
    refine build (fun x hx => h.digits x (List.dropLast_subset _ hx)) (fun _ => ?_)
      (by simp [hstate, AtmState.admitted]) (by simp [hstate]) ?_ ?_
    · rw [List.length_dropLast]
      omega
    · simp [hout, requests]
    · simp [hout, Machine.total]
  | cardInserted hstate account =>
    refine build (List.forall_mem_nil _) (fun _ => by simp [pinLength])
      (by simp [AtmState.admitted]) (by simp) ?_ ?_
    · simp [hout, requests]
    · simp [hout, Machine.total, Msg.issues]
  | close | discard =>
    refine build h.digits h.short h.full h.amount ?_ ?_
    · simp [hout, requests]
    · simp [hout, Machine.total]

theorem step (h : Keyboard s) (hserved : Served s) {l : Label} (hl : Typed l)
    (hstep : machine.step s l = some s') : Keyboard s' := by
  have hkeys := keys_step hserved hl hstep h.keys
  rcases same_or_receives hserved hstep with hsame | ⟨m, rest, rfl, hout, -, hq, rfl⟩
  · exact h.of_same hsame hkeys
  · exact h.receive hout hq (by simpa using hkeys)

end Keyboard

theorem keyboard_of_reachableBy {s : System} (h : machine.ReachableBy (fun _ l => Typed l) s) :
    Served s ∧ Keyboard s :=
  h.invariant (P := fun s => Served s ∧ Keyboard s) ⟨Served.init, Keyboard.init⟩
    fun _ _ _ hs hl hstep => ⟨hs.1.step hstep, hs.2.step hs.1 hl hstep⟩

/-- Where all amounts are `50`, the bank has debited it for each `withdraw_ok`. -/
theorem count_answers {rs : List Msg} (h : ∀ account n, .withdraw account n ∈ rs → n = 50) (b : ℕ) :
    50 * (answers b rs).count .withdrawOk = approved b rs := by
  induction rs generalizing b with
  | nil => rfl
  | cons r rs ih =>
    have htail := ih (fun account n hn => h account n (List.mem_cons_of_mem r hn)) (b - debit b r)
    have hhead : 50 * [answer b r].count .withdrawOk = debit b r := by
      cases r with
      | withdraw account n =>
        have hn : n = 50 := h account n List.mem_cons_self
        subst hn
        by_cases hle : 50 ≤ b <;> simp [answer, debit, hle]
      | verifyPin account pin => by_cases hp : pin = ['1', '9', '3', '7'] <;> simp [answer, debit, hp]
      | _ => simp [answer, debit]
    rw [answers, approved, ← List.singleton_append, List.count_append, Nat.mul_add, hhead, htail]

/-! ## Typing ahead -/

namespace Atm

/-- The `atm` waiting again, once all is sent. -/
def settled (a : Atm) : Atm :=
  if a.pc = .call then
    { a with
      state := if a.state = .doneProcessing then .waitingForCard else a.state
      pc := .wait
      outbox := [] }
  else a

end Atm

/-- The messages of an outbox for the party `p`. -/
def sentTo (p : Party) (l : List (Party × Msg)) : List Msg :=
  (l.filter fun e => e.1 = p).map Prod.snd

/-- The `atm` is `a`, these messages wait for it and for the bank, which has nothing else to do
and has debited nothing, `main` reads, and `issued` has been paid out. -/
structure Looks (s : System) (a : Atm) (toAtm toBank : List Msg) (issued : ℕ) : Prop where
  atm : s.atm = a
  toAtm : (s.queue .atm).waiting = toAtm
  toBank : (s.queue .bank).waiting = toBank
  bank : s.bank = ⟨false, [], 199⟩
  closing : s.closing = none
  issued : s.issued = issued

/-- The threads may move, and keys may be pressed. -/
structure Free (ok : System → Label → Prop) : Prop where
  atm : ∀ s, ok s .atm
  bank : ∀ s, ok s .bank
  key : ∀ s c, ok s (.getchar c)

section Scheduling
variable {ok : System → Label → Prop} {s : System} {a : Atm} {toAtm toBank : List Msg} {issued : ℕ}

theorem Looks.flush (hok : Free ok) {outbox : List (Party × Msg)}
    (hout : ∀ e ∈ outbox, e.1 ≠ .atm) (hs : machine.ReachableBy ok s)
    (h : Looks s { a with outbox := outbox } toAtm toBank issued) :
    ∃ s', machine.ReachableBy ok s' ∧
      Looks s' { a with outbox := [] } toAtm (toBank ++ sentTo .bank outbox) issued := by
  induction outbox generalizing s toBank with
  | nil => exact ⟨s, hs, by simpa [sentTo] using h⟩
  | cons e rest ih =>
    obtain ⟨p, m⟩ := e
    have hp : p ≠ .atm := hout (p, m) List.mem_cons_self
    have hbox : s.atm.outbox = (p, m) :: rest := by rw [h.atm]
    have hstep : machine.step s .atm =
        some { s.push p m with atm := { s.atm with outbox := rest } } := by
      simp [machine, System.stepAtm, hbox]
    have hlooks : Looks { s.push p m with atm := { s.atm with outbox := rest } }
        { a with outbox := rest } toAtm (toBank ++ sentTo .bank [(p, m)]) issued := by
      refine ⟨by simp [h.atm], ?_, ?_, h.bank, h.closing, (issued_send hbox hp).trans h.issued⟩
      · simp [Function.update_of_ne hp.symm, h.toAtm]
      · cases p <;> simp [sentTo, h.toBank]
    obtain ⟨s', hs', h'⟩ := ih (fun e he => hout e (List.mem_cons_of_mem _ he))
      (hs.step (hok.atm s) hstep) hlooks
    refine ⟨s', hs', ?_⟩
    have hsent : sentTo .bank ((p, m) :: rest) = sentTo .bank [(p, m)] ++ sentTo .bank rest := by
      rw [← List.singleton_append, sentTo, List.filter_append, List.map_append]
      rfl
    rwa [hsent, ← List.append_assoc]

/-- The `atm` enters its next state and sends what it sends there. -/
theorem Looks.enter (hok : Free ok) (hs : machine.ReachableBy ok s) (hpc : a.pc = .call)
    (h : Looks s { a with outbox := [] } toAtm toBank issued) :
    ∃ s', machine.ReachableBy ok s' ∧
      Looks s' { a with
        state := if a.state = .doneProcessing then .waitingForCard else a.state
        pc := .wait
        outbox := [] } toAtm toBank issued := by
  have hstep : ∀ {u : System} {b : Atm}, Looks u { b with outbox := [] } toAtm toBank issued →
      b.pc = .call → machine.ReachableBy ok u → machine.ReachableBy ok { u with atm := u.atm.enter } ∧
        { u with atm := u.atm.enter }.issued = issued := by
    intro u b hu hb hreach
    have hout : u.atm.outbox = [] := by rw [hu.atm]
    have hcall : u.atm.pc = .call := by rw [hu.atm]; exact hb
    refine ⟨hreach.step (hok.atm u) ?_, (Same.enter hout).issued.trans hu.issued⟩
    simp [machine, System.stepAtm, hout, hcall]
  -- a state that waits is entered once
  have hwaits : ∀ {u : System} {b : Atm}, b.state ≠ .doneProcessing → b.pc = .call →
      machine.ReachableBy ok u → Looks u { b with outbox := [] } toAtm toBank issued →
      ∃ s', machine.ReachableBy ok s' ∧
        Looks s' { b with pc := .wait, outbox := [] } toAtm toBank issued := by
    intro u b hb hcall hreach hu
    obtain ⟨hreach', hissued⟩ := hstep hu hcall hreach
    have henter : u.atm.enter = { b with pc := .wait, outbox := b.state.greeting } := by
      rw [hu.atm, Atm.enter]
      split
      · exact absurd ‹_› hb
      · rfl
    have hgreeting : (∀ e ∈ b.state.greeting, e.1 ≠ .atm) ∧ sentTo .bank b.state.greeting = [] := by
      cases b.state <;> simp [AtmState.greeting, sentTo]
    obtain ⟨s', hs', h'⟩ := Looks.flush (a := { b with pc := .wait }) hok hgreeting.1 hreach'
      ⟨henter, hu.toAtm, hu.toBank, hu.bank, hu.closing, hissued⟩
    rw [hgreeting.2, List.append_nil] at h'
    exact ⟨s', hs', h'⟩
  by_cases hdone : a.state = .doneProcessing
  · obtain ⟨hreach, hissued⟩ := hstep h hpc hs
    have henter : s.atm.enter =
        { a with state := .waitingForCard, outbox := [(.hardware, .ejectCard)] } := by
      rw [h.atm]
      simp [Atm.enter, hdone, Atm.goto, Atm.send]
    obtain ⟨u, hu, hlooks⟩ := Looks.flush (a := { a with state := .waitingForCard }) hok
      (by simp) hreach ⟨henter, h.toAtm, h.toBank, h.bank, h.closing, hissued⟩
    rw [if_pos hdone]
    have hlooks' : Looks u { a with state := .waitingForCard, outbox := [] } toAtm toBank issued := by
      simpa [sentTo] using hlooks
    exact hwaits (b := { a with state := .waitingForCard }) (by simp) hpc hu hlooks'
  · rw [if_neg hdone]
    exact hwaits hdone hpc hs h

/-- What the waiting `atm` `a` makes of the message `m`: it comes to wait as `a'`, and has asked the
bank and paid out. -/
structure Handles (a : Atm) (m : Msg) (a' : Atm) (asks : List Msg) (paid : ℕ) : Prop where
  wait : a.pc = .wait
  outbox : a.outbox = []
  settled : (a.receive m).settled = a'
  asks : sentTo .bank (a.receive m).outbox = asks
  paid : Machine.total Msg.issues (sentTo .hardware (a.receive m).outbox) = paid

namespace Handles
variable (account : String) (n : ℕ) (pin : List Char)

theorem card (old : String) :
    Handles ⟨.waitingForCard, .wait, [], old, n, pin⟩ (.cardInserted account)
      ⟨.gettingPin, .wait, [], account, n, []⟩ [] 0 :=
  ⟨rfl, rfl, rfl, rfl, rfl⟩

/-- What follows from all that a digit can do. -/
theorem ofDigit {a' : Atm} {d : Char} {asks : List Msg}
    (h : ∀ b, Receives ⟨.gettingPin, .wait, [], account, n, pin⟩ (.digitPressed d) b →
      b.settled = a' ∧ sentTo .bank b.outbox = asks ∧ sentTo .hardware b.outbox = []) :
    Handles ⟨.gettingPin, .wait, [], account, n, pin⟩ (.digitPressed d) a' asks 0 := by
  obtain ⟨hsettled, hasks, hpaid⟩ := h _ (receives _ _)
  exact ⟨rfl, rfl, hsettled, hasks, by rw [hpaid]; rfl⟩

theorem digit (d : Char) (hlen : pin.length + 1 ≠ pinLength) :
    Handles ⟨.gettingPin, .wait, [], account, n, pin⟩ (.digitPressed d)
      ⟨.gettingPin, .wait, [], account, n, pin ++ [d]⟩ [] 0 := by
  refine ofDigit _ _ _ fun b hb => ?_
  cases hb with
  | digit => exact ⟨rfl, rfl, rfl⟩
  | lastDigit _ _ hlast => exact absurd hlast hlen
  | discard hnone => simp [AtmState.chain, Msg.type] at hnone

theorem lastDigit (d : Char) (hlen : pin.length + 1 = pinLength) :
    Handles ⟨.gettingPin, .wait, [], account, n, pin⟩ (.digitPressed d)
      ⟨.verifyingPin, .wait, [], account, n, pin ++ [d]⟩ [.verifyPin account (pin ++ [d])] 0 := by
  refine ofDigit _ _ _ fun b hb => ?_
  cases hb with
  | digit _ _ hshort => exact absurd hlen hshort
  | lastDigit => exact ⟨rfl, rfl, rfl⟩
  | discard hnone => simp [AtmState.chain, Msg.type] at hnone

theorem cancelPin :
    Handles ⟨.verifyingPin, .wait, [], account, n, pin⟩ .cancelPressed
      ⟨.waitingForCard, .wait, [], account, n, pin⟩ [] 0 :=
  ⟨rfl, rfl, rfl, rfl, rfl⟩

theorem pinVerified :
    Handles ⟨.verifyingPin, .wait, [], account, n, pin⟩ .pinVerified
      ⟨.waitForAction, .wait, [], account, n, pin⟩ [] 0 :=
  ⟨rfl, rfl, rfl, rfl, rfl⟩

theorem withdraw (amount : ℕ) :
    Handles ⟨.waitForAction, .wait, [], account, n, pin⟩ (.withdrawPressed amount)
      ⟨.processWithdrawal, .wait, [], account, amount, pin⟩ [.withdraw account amount] 0 :=
  ⟨rfl, rfl, rfl, rfl, rfl⟩

theorem cancelWithdrawal :
    Handles ⟨.processWithdrawal, .wait, [], account, n, pin⟩ .cancelPressed
      ⟨.waitingForCard, .wait, [], account, n, pin⟩ [.cancelWithdrawal account n] 0 :=
  ⟨rfl, rfl, rfl, rfl, rfl⟩

/-- A reply that comes too late. -/
theorem latePinVerified :
    Handles ⟨.processWithdrawal, .wait, [], account, n, pin⟩ .pinVerified
      ⟨.processWithdrawal, .wait, [], account, n, pin⟩ [] 0 :=
  ⟨rfl, rfl, rfl, rfl, rfl⟩

theorem withdrawOk :
    Handles ⟨.processWithdrawal, .wait, [], account, n, pin⟩ .withdrawOk
      ⟨.waitingForCard, .wait, [], account, n, pin⟩ [.withdrawalProcessed account n] n :=
  ⟨rfl, rfl, rfl, rfl, rfl⟩

end Handles

/-- The `atm` handles the first message and comes to wait again. -/
theorem Looks.handle (hok : Free ok) (hs : machine.ReachableBy ok s) {m : Msg} {a' : Atm}
    {asks : List Msg} {paid : ℕ} (ha : Handles a m a' asks paid)
    (h : Looks s a (m :: toAtm) toBank issued) :
    ∃ s', machine.ReachableBy ok s' ∧ Looks s' a' toAtm (toBank ++ asks) (issued + paid) := by
  have hout : s.atm.outbox = [] := by rw [h.atm, ha.outbox]
  have hpc : s.atm.pc = .wait := by rw [h.atm, ha.wait]
  have hstep : machine.step s .atm =
      some { s.pop .atm m toAtm with atm := s.atm.receive m } := by
    simp [machine, System.stepAtm, hout, hpc, h.toAtm]
  have hbox : ∀ e ∈ (a.receive m).outbox, e.1 ≠ .atm :=
    Served.receives_outbox (receives a m) (by simp [ha.outbox])
  have hlooks : Looks { s.pop .atm m toAtm with atm := s.atm.receive m }
      { a.receive m with outbox := (a.receive m).outbox } toAtm toBank (issued + paid) := by
    refine ⟨by rw [h.atm], by simp, by simpa using h.toBank, h.bank, h.closing, ?_⟩
    rw [issued_receive hout rfl, h.issued, h.atm, ← ha.paid]
    rfl
  obtain ⟨u, hu, hlooks⟩ := hlooks.flush hok hbox (hs.step (hok.atm s) hstep)
  rw [ha.asks] at hlooks
  rw [← ha.settled]
  by_cases hcall : (a.receive m).pc = .call
  · rw [Atm.settled, if_pos hcall]
    exact hlooks.enter hok hu hcall
  · have hempty : (a.receive m).outbox = [] := by
      have hmoved := receives a m
      generalize a.receive m = b at hmoved hcall ⊢
      cases hmoved <;> first | exact absurd rfl hcall | exact ha.outbox
    rw [Atm.settled, if_neg hcall]
    exact ⟨u, hu, by rw [hlooks.atm, ← hempty], hlooks.toAtm, hlooks.toBank, hlooks.bank,
      hlooks.closing, hlooks.issued⟩

theorem step_user {m : Msg} (hm : m.fromUser = true) (h : s.closing = none) :
    machine.step s (.user m) = some (s.push .atm m) := by
  simp [machine, h, hm]

/-- A message of the user arrives at the waiting `atm` and is handled. -/
theorem Looks.press (hok : Free ok) (hs : machine.ReachableBy ok s) {l : Label} {m : Msg}
    (hl : ok s l) (hm : m.fromUser = true)
    (hstep : s.closing = none → machine.step s l = some (s.push .atm m)) {a' : Atm}
    {asks : List Msg} {paid : ℕ} (ha : Handles a m a' asks paid) (h : Looks s a [] toBank issued) :
    ∃ s', machine.ReachableBy ok s' ∧ Looks s' a' [] (toBank ++ asks) (issued + paid) := by
  obtain ⟨hrequest, hissues⟩ := isRequest_fromUser hm
  have hpushed : Looks (s.push .atm m) a [m] toBank issued :=
    ⟨h.atm, by simp [h.toAtm], by simp [h.toBank], h.bank, h.closing,
      (Same.push hrequest hissues).issued.trans h.issued⟩
  exact hpushed.handle hok (hs.step hl (hstep h.closing)) ha

theorem Looks.typed (hok : Free ok) (hs : machine.ReachableBy ok s) {c : Char} {m : Msg}
    (hc : key c = some m ∧ c ≠ 'q') {a' : Atm} {asks : List Msg} (ha : Handles a m a' asks 0)
    (h : Looks s a [] toBank issued) :
    ∃ s', machine.ReachableBy ok s' ∧ Looks s' a' [] (toBank ++ asks) issued :=
  h.press hok hs (hok.key s c) (fromUser_of_key hc.1)
    (fun hclosing => by simp [machine, hclosing, hc.1, hc.2]) ha

/-- A key that asks the bank nothing. -/
theorem Looks.typedPlain (hok : Free ok) (hs : machine.ReachableBy ok s) {c : Char} {m : Msg}
    (hc : key c = some m ∧ c ≠ 'q') {a' : Atm} (ha : Handles a m a' [] 0)
    (h : Looks s a [] toBank issued) :
    ∃ s', machine.ReachableBy ok s' ∧ Looks s' a' [] toBank issued := by
  simpa only [List.append_nil] using h.typed hok hs hc ha

/-- The bank answers a request that takes nothing. -/
theorem Looks.answer (hok : Free ok) (hs : machine.ReachableBy ok s) {r : Msg}
    (hr : r.isRequest = true) (hzero : debit 199 r = 0) (h : Looks s a [] (r :: toBank) issued) :
    ∃ s', machine.ReachableBy ok s' ∧ Looks s' a [ATM.answer 199 r] toBank issued := by
  have htodo : s.bank.todo = [] := by rw [h.bank]
  have hbalance : s.bank.balance = 199 := by rw [h.bank]
  have hrun : s.bank.ended = false := by rw [h.bank]
  have htake : machine.step s .bank =
      some { s.pop .bank r toBank with bank := s.bank.receive r } := by
    simp [machine, System.stepBank, htodo, hrun, h.toBank]
  have htaken := hs.step (hok.bank s) htake
  -- the reply, and then perhaps a debit of nothing
  have hanswered : ∀ rest : List BankAct, s.bank.receive r =
        { s.bank with todo := .send (ATM.answer 199 r) :: rest } →
      (rest = [] ∨ rest = [.debit 0]) → ∃ s', machine.ReachableBy ok s' ∧
        Looks s' a [ATM.answer 199 r] toBank issued := by
    intro rest hreceive hrest
    rw [hreceive] at htaken
    have hsent := htaken.step (hok.bank _) (by simp only [machine, System.stepBank]; rfl)
    rcases hrest with rfl | rfl
    · exact ⟨_, hsent, h.atm, by simp [h.toAtm], by simp, by simp [h.bank], h.closing,
        by simpa [System.issued] using h.issued⟩
    · have hdebited := hsent.step (hok.bank _) (by simp only [machine, System.stepBank]; rfl)
      exact ⟨_, hdebited, h.atm, by simp [h.toAtm], by simp, by simp [h.bank], h.closing,
        by simpa [System.issued] using h.issued⟩
  have hmoved := bankReceives s.bank r
  generalize hb : s.bank.receive r = b at hmoved
  cases hmoved with
  | verifyPin account pin => exact hanswered [] hb (Or.inl rfl)
  | @withdrawOk account amount hle =>
    rw [hbalance] at hle
    have hamount : amount = 0 := by simpa [debit, hle] using hzero
    exact hanswered [.debit 0] (by rw [hb, hamount]; simp [ATM.answer]) (Or.inr rfl)
  | @withdrawDenied account amount hgt =>
    rw [hbalance] at hgt
    exact hanswered [] (by rw [hb]; simp [ATM.answer, hgt]) (Or.inl rfl)
  | getBalance account => exact hanswered [] (by rw [hb]; simp [ATM.answer, hbalance]) (Or.inl rfl)
  | notice htype => cases r <;> simp [Msg.type, Msg.isRequest] at htype hr
  | close => cases hr
  | discard hnone => cases r <;> simp [Bank.chain, Msg.type, Msg.isRequest] at hnone hr

/-- The bank answers, and the `atm` handles the answer. -/
theorem Looks.serve (hok : Free ok) (hs : machine.ReachableBy ok s) {r : Msg}
    (hr : r.isRequest = true) (hzero : debit 199 r = 0) {a' : Atm} {asks : List Msg} {paid : ℕ}
    (ha : Handles a (ATM.answer 199 r) a' asks paid) (h : Looks s a [] (r :: toBank) issued) :
    ∃ s', machine.ReachableBy ok s' ∧ Looks s' a' [] (toBank ++ asks) (issued + paid) := by
  obtain ⟨u, hu, hlooks⟩ := h.answer hok hs hr hzero
  exact hlooks.handle hok hu ha

/-- A card and four digits are typed. -/
theorem Looks.session (hok : Free ok) (hs : machine.ReachableBy ok s) {account : String} {n : ℕ}
    {pin : List Char} {a b c d : Char} (ha : a ∈ digits) (hb : b ∈ digits) (hc : c ∈ digits)
    (hd : d ∈ digits) (h : Looks s ⟨.waitingForCard, .wait, [], account, n, pin⟩ [] toBank issued) :
    ∃ s', machine.ReachableBy ok s' ∧
      Looks s' ⟨.verifyingPin, .wait, [], "acc1234", n, [a, b, c, d]⟩ []
        (toBank ++ [.verifyPin "acc1234" [a, b, c, d]]) issued := by
  obtain ⟨s₁, hs₁, h₁⟩ := h.typedPlain hok hs key_card (.card _ n pin account)
  obtain ⟨s₂, hs₂, h₂⟩ := h₁.typedPlain hok hs₁ (key_of_mem_digits ha)
    (.digit _ n [] a (by decide))
  obtain ⟨s₃, hs₃, h₃⟩ := h₂.typedPlain hok hs₂ (key_of_mem_digits hb)
    (.digit _ n [a] b (by simp [pinLength]))
  obtain ⟨s₄, hs₄, h₄⟩ := h₃.typedPlain hok hs₃ (key_of_mem_digits hc)
    (.digit _ n [a, b] c (by simp [pinLength]))
  exact h₄.typed hok hs₄ (key_of_mem_digits hd) (.lastDigit _ n [a, b, c] d (by simp [pinLength]))

theorem Looks.rightPin (hok : Free ok) (hs : machine.ReachableBy ok s) {account : String} {n : ℕ}
    {pin : List Char} (h : Looks s ⟨.waitingForCard, .wait, [], account, n, pin⟩ [] toBank issued) :
    ∃ s', machine.ReachableBy ok s' ∧
      Looks s' ⟨.verifyingPin, .wait, [], "acc1234", n, ['1', '9', '3', '7']⟩ []
        (toBank ++ [.verifyPin "acc1234" ['1', '9', '3', '7']]) issued :=
  h.session hok hs (by decide) (by decide) (by decide) (by decide)

/-- The `atm` has been started. -/
theorem looks_init (hok : Free ok) : ∃ s', machine.ReachableBy ok s' ∧
    Looks s' ⟨.waitingForCard, .wait, [], "", 0, []⟩ [] [] 0 :=
  Looks.enter (a := machine.init.atm) hok .init rfl ⟨rfl, rfl, rfl, rfl, rfl, rfl⟩

end Scheduling

/-- **Which pins admit.**  The pins with which a session of the program gets past the pin check
are all those of four digits.  In runs in which no `cancel_pressed` is handled while a reply of
the bank is due, it is only the right one. -/
theorem admitted_pins (pin : List Char) :
    ((∃ s, machine.ReachableBy (fun _ l => Typed l) s ∧ s.atm.state.admitted = true ∧
        s.atm.pin = pin) ↔ pin.length = pinLength ∧ ∀ c ∈ pin, c ∈ digits) ∧
      ((∃ s, machine.ReachableBy (fun s l => Typed l ∧ Patient s l) s ∧
        s.atm.state.admitted = true ∧ s.atm.pin = pin) ↔ pin = ['1', '9', '3', '7']) := by
  constructor
  · constructor
    · rintro ⟨s, hs, hadmitted, rfl⟩
      obtain ⟨-, hkeyboard⟩ := keyboard_of_reachableBy hs
      exact ⟨hkeyboard.full (Or.inr hadmitted), hkeyboard.digits⟩
    · rintro ⟨hlen, hdigits⟩
      obtain ⟨a, b, c, d, rfl⟩ : ∃ a b c d, pin = [a, b, c, d] := by
        rcases pin with _ | ⟨a, _ | ⟨b, _ | ⟨c, _ | ⟨d, _ | ⟨e, rest⟩⟩⟩⟩⟩
        · cases hlen
        · cases hlen
        · cases hlen
        · cases hlen
        · exact ⟨a, b, c, d, rfl⟩
        · simp [pinLength] at hlen
      -- the right pin, a cancel, `pin`, and only then the bank
      have hok : Free fun _ l => Typed l :=
        ⟨fun _ => rfl, fun _ => rfl, fun _ _ => rfl⟩
      obtain ⟨s₀, hs₀, h₀⟩ := looks_init hok
      obtain ⟨s₁, hs₁, h₁⟩ := h₀.rightPin hok hs₀
      obtain ⟨s₂, hs₂, h₂⟩ := h₁.typedPlain hok hs₁ key_cancel (.cancelPin _ _ _)
      obtain ⟨s₃, hs₃, h₃⟩ := h₂.session hok hs₂ (hdigits a (by simp)) (hdigits b (by simp))
        (hdigits c (by simp)) (hdigits d (by simp))
      obtain ⟨s₄, hs₄, h₄⟩ := h₃.serve hok hs₃ rfl rfl (.pinVerified _ _ _)
      exact ⟨s₄, hs₄, by rw [h₄.atm]; rfl, by rw [h₄.atm]⟩
  · constructor
    · rintro ⟨s, hs, hadmitted, rfl⟩
      have hpatient : machine.ReachableBy Patient s :=
        hs.invariant (P := machine.ReachableBy Patient) .init
          fun _ _ _ hu hl hstep => hu.step hl.2 hstep
      exact (inStep_of_reachableBy hpatient).2.pin hadmitted
    · rintro rfl
      have hrun : ∃ s, machine.run machine.init ("i1937".toList.map .getchar ++
          List.replicate 14 .atm ++ List.replicate 2 .bank ++ [.atm]) = some s ∧
          s.atm.state.admitted = true ∧ s.atm.pin = ['1', '9', '3', '7'] := ⟨_, rfl, rfl, rfl⟩
      obtain ⟨s, hs, hadmitted, hpin⟩ := hrun
      exact ⟨s, Machine.reachableBy_of_run _ (by decide) hs, hadmitted, hpin⟩

/-- **Pay-outs.**  Whatever is typed and cancelled, the program pays out no more than the bank has
debited or its handler in progress is about to debit.  This rests on the one amount that `main`
asks for: with amounts of the users' choice any amount can be paid out while the bank has debited
nothing and is not about to. -/
theorem pay_outs :
    (∀ s, machine.ReachableBy (fun _ l => Typed l) s →
      s.issued + s.bank.balance ≤ 199 + s.bank.undebited) ∧
      ∀ n, ∃ s, machine.Reachable s ∧ s.issued = n ∧ s.bank.balance = 199 ∧
        s.bank.undebited = 0 := by
  constructor
  · intro s hs
    obtain ⟨hserved, hkeyboard⟩ := keyboard_of_reachableBy hs
    have hcount : 50 * s.heard.count .withdrawOk ≤ approved 199 s.served := by
      have hfifty : ∀ account n, .withdraw account n ∈ s.served → n = 50 :=
        fun account n hn => hkeyboard.asked account n ((served_isPrefix s).subset hn)
      rw [← count_answers hfifty]
      exact Nat.mul_le_mul_left 50 (hserved.heard_isPrefix.sublist.count_le _)
    have hissued := hkeyboard.issued
    have hsum := after_add_approved 199 s.served
    have hbalance := hserved.balance
    omega
  · intro n
    -- three cancels leave the `atm` two replies behind, so that the approval of an earlier
    -- withdrawal of nothing is taken for the one of `n`
    have hok : Free fun _ _ => True :=
      ⟨fun _ => trivial, fun _ => trivial, fun _ _ => trivial⟩
    obtain ⟨s₀, hs₀, h₀⟩ := looks_init hok
    obtain ⟨s₁, hs₁, h₁⟩ := h₀.rightPin hok hs₀
    obtain ⟨s₂, hs₂, h₂⟩ := h₁.typedPlain hok hs₁ key_cancel (.cancelPin _ _ _)
    obtain ⟨s₃, hs₃, h₃⟩ := h₂.rightPin hok hs₂
    obtain ⟨s₄, hs₄, h₄⟩ := h₃.typedPlain hok hs₃ key_cancel (.cancelPin _ _ _)
    obtain ⟨s₅, hs₅, h₅⟩ := h₄.rightPin hok hs₄
    obtain ⟨s₆, hs₆, h₆⟩ := h₅.serve hok hs₅ rfl rfl (.pinVerified _ _ _)
    obtain ⟨s₇, hs₇, h₇⟩ := h₆.press hok hs₆ trivial rfl
      (step_user rfl) (.withdraw _ _ _ 0)
    obtain ⟨s₈, hs₈, h₈⟩ := h₇.typed hok hs₇ key_cancel (.cancelWithdrawal _ _ _)
    obtain ⟨s₉, hs₉, h₉⟩ := h₈.rightPin hok hs₈
    obtain ⟨s₁₀, hs₁₀, h₁₀⟩ := h₉.serve hok hs₉ rfl rfl (.pinVerified _ _ _)
    obtain ⟨s₁₁, hs₁₁, h₁₁⟩ := h₁₀.press hok hs₁₀ trivial rfl
      (step_user rfl) (.withdraw _ _ _ n)
    obtain ⟨s₁₂, hs₁₂, h₁₂⟩ := h₁₁.serve hok hs₁₁ rfl rfl (.latePinVerified _ _ _)
    obtain ⟨s₁₃, hs₁₃, h₁₃⟩ := h₁₂.serve hok hs₁₂ rfl rfl (.withdrawOk _ _ _)
    refine ⟨s₁₃, hs₁₃, ?_, by rw [h₁₃.bank], by rw [h₁₃.bank]; rfl⟩
    rw [h₁₃.issued]
    omega

end Sundries.ATM
