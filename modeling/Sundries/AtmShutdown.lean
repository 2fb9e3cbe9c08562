import Sundries.AtmReplies

/-!
# The end of the program

Once `q` has been typed, `main` sends `close_queue` to the three machines and joins their
threads.  Each of them comes to its `close_queue`: the `atm` can still ask the bank, the bank
can still reply, and all that is paid for by the messages they take from their queues.
-/
namespace Sundries.ATM

/-- All threads have left `run`, and nothing is left to send. -/
structure Ended (s : System) : Prop where
  closing : s.closing = some []
  atm : s.atm.pc = .ended ∧ s.atm.outbox = []
  bank : s.bank.ended = true ∧ s.bank.todo = []
  hardware : s.hardware.ended = true

/-- The thread of the party has left its loop. -/
def System.left (s : System) : Party → Prop
  | .atm => s.atm.pc = .ended
  | .bank => s.bank.ended = true
  | .hardware => s.hardware.ended = true

/-- Each machine has left its loop, or finds a `close_queue` in its queue, or `main` has still to
call its `done`. -/
def Closed (s : System) : Prop :=
  ∃ ps, s.closing = some ps ∧
    ∀ p, p ∈ ps ∨ .closeQueue ∈ (s.queue p).waiting ∨ s.left p

/-! ## Every step is paid for -/

/-- What the steps that a message in the queue of `p` brings about are worth at most. -/
def cost : Party → Msg → ℕ
  | .atm, m => if m.fromUser then 20 else 12
  | .bank, .verifyPin .. | .bank, .withdraw .. | .bank, .getBalance _ => 15
  | .bank, _ => 1
  | .hardware, _ => 1

/-- What the `atm` does before it waits again. -/
def Atm.toDo (a : Atm) : ℕ :=
  match a.pc with
  | .call =>
    match a.state with
    | .doneProcessing => 6
    | .waitingForCard | .waitForAction => 3
    | _ => 1
  | _ => 0

def BankAct.cost : BankAct → ℕ
  | .send _ => 13
  | .debit _ => 1

/-- What the messages in the queues cost. -/
def System.inbox (s : System) : ℕ :=
  Machine.total (cost .atm) (s.queue .atm).waiting +
    Machine.total (cost .bank) (s.queue .bank).waiting +
    Machine.total (cost .hardware) (s.queue .hardware).waiting

/-- A bound for the steps to come. -/
def remaining (s : System) : ℕ :=
  s.inbox + (Machine.total (fun e => 1 + cost e.1 e.2) s.atm.outbox + s.atm.toDo) +
    Machine.total BankAct.cost s.bank.todo + Machine.total (fun _ => 16) (s.closing.getD [])

theorem cost_user {m : Msg} (h : m.fromUser = true) : cost .atm m = 20 := if_pos h

theorem cost_other {m : Msg} (h : m.fromUser = false) : cost .atm m = 12 := by
  simp [cost, h]

theorem cost_closeQueue (p : Party) : cost p .closeQueue ≤ 15 := by
  cases p with
  | atm => rw [cost_other rfl]; omega
  | bank | hardware => exact Nat.le_of_ble_eq_true rfl

theorem inbox_push (s : System) (p : Party) (m : Msg) :
    (s.push p m).inbox = s.inbox + cost p m := by
  cases p <;> simp [System.inbox, Machine.total_append, Machine.total] <;> omega

theorem inbox_pop {s : System} {p : Party} {m : Msg} {rest : List Msg}
    (hq : (s.queue p).waiting = m :: rest) : (s.pop p m rest).inbox + cost p m = s.inbox := by
  cases p <;> simp [System.inbox, hq, Machine.total] <;> omega

/-- A handler of the `atm` is paid for by its message. -/
theorem receives_cost {a a' : Atm} {m : Msg} (h : Receives a m a') (hpc : a.pc = .wait)
    (hout : a.outbox = []) :
    Machine.total (fun e => 1 + cost e.1 e.2) a'.outbox + a'.toDo < cost .atm m := by
  cases h with
  | digit hstate | clear hstate =>
    rw [cost_user rfl]
    simp [hout, Machine.total, Atm.toDo, hstate]
  | withdrawOk | withdrawDenied | balance | pinVerified | pinIncorrect =>
    rw [cost_other rfl]
    simp [hout, Machine.total, Atm.toDo, cost]
  | close | discard =>
    simp only [hout, Machine.total, Atm.toDo, cost, hpc]
    split <;> omega
  | _ =>
    rw [cost_user rfl]
    simp [hout, Machine.total, Atm.toDo, cost]

theorem bankReceives_cost {b b' : Bank} {m : Msg} (h : BankReceives b m b') (htodo : b.todo = []) :
    Machine.total BankAct.cost b'.todo < cost .bank m := by
  have hpos : 0 < cost .bank m := by cases m <;> simp [cost]
  cases h with
  | notice => simpa [Machine.total] using hpos
  | close | discard => simpa [Machine.total, htodo] using hpos
  | _ => simp [Machine.total, BankAct.cost, cost]

theorem enter_cost {a : Atm} (hpc : a.pc = .call) (hout : a.outbox = []) :
    Machine.total (fun e => 1 + cost e.1 e.2) a.enter.outbox + a.enter.toDo < a.toDo := by
  obtain ⟨state, pc, outbox, account, amount, pin⟩ := a
  cases hpc
  cases hout
  cases state <;>
    simp [Atm.enter, Atm.send, Atm.goto, AtmState.greeting, Machine.total, Atm.toDo, cost]

/-- Every step makes the bound smaller. -/
theorem remaining_lt {s s' : System} {l : Label} (h : s.closing ≠ none) (hserved : Served s)
    (hstep : machine.step s l = some s') : remaining s' < remaining s := by
  cases moves_of_step hstep with
  | quit hnone | key hnone | noKey hnone | user hnone => exact absurd hnone h
  | @close p rest hclosing =>
    have hinbox := inbox_push s p .closeQueue
    have hcost := cost_closeQueue p
    show (s.push p .closeQueue).inbox + _ + _ + Machine.total _ rest < remaining s
    simp only [remaining, hclosing, Option.getD_some, Machine.total, System.atm_push,
      System.bank_push]
    omega
  | @atmSend p m rest hout =>
    have hinbox := inbox_push s p m
    show (s.push p m).inbox + (Machine.total _ rest + s.atm.toDo) + _ + _ < remaining s
    simp only [remaining, hout, Machine.total, System.bank_push, System.closing_push]
    omega
  | atmEnter hout hpc =>
    have hcost := enter_cost hpc hout
    show s.inbox + (Machine.total _ s.atm.enter.outbox + s.atm.enter.toDo) + _ + _ < remaining s
    simp only [remaining, hout, Machine.total]
    omega
  | @atmReceive hout hpc m rest hq =>
    have hcost := receives_cost (receives s.atm m) hpc hout
    have hinbox := inbox_pop hq
    show (s.pop .atm m rest).inbox + (Machine.total _ (s.atm.receive m).outbox +
      (s.atm.receive m).toDo) + _ + _ < remaining s
    simp only [remaining, System.bank_pop, System.closing_pop]
    omega
  | @bankSend m rest htodo =>
    have hinbox := inbox_push s .atm m
    have hcost : cost .atm m = 12 := by
      have hm : m.isReply = true := hserved.unsent m (by simp [Bank.unsent, htodo])
      have huser : m.fromUser = false := by
        by_contra hu
        rw [Served.isReply_fromUser (by simpa using hu)] at hm
        cases hm
      simp [cost, huser]
    show (s.push .atm m).inbox + _ + Machine.total _ rest + _ < remaining s
    simp only [remaining, htodo, Machine.total, BankAct.cost, System.atm_push, System.closing_push]
    omega
  | @bankDebit amount rest htodo =>
    show s.inbox + _ + Machine.total _ rest + _ < remaining s
    simp only [remaining, htodo, Machine.total, BankAct.cost]
    omega
  | @bankReceive htodo hrun m rest hq =>
    have hcost := bankReceives_cost (bankReceives s.bank m) htodo
    have hinbox := inbox_pop hq
    show (s.pop .bank m rest).inbox + _ + Machine.total _ (s.bank.receive m).todo + _ < remaining s
    simp only [remaining, System.atm_pop, System.closing_pop]
    omega
  | @hardwareReceive hrun m rest hq =>
    have hinbox := inbox_pop hq
    have hcost : cost .hardware m = 1 := rfl
    show (s.pop .hardware m rest).inbox + _ + _ + _ < remaining s
    simp only [remaining, System.atm_pop, System.bank_pop, System.closing_pop]
    omega

/-! ## Nobody waits for ever -/

theorem receive_closeQueue (a : Atm) : (a.receive .closeQueue).pc = .ended := by
  have hmoved := receives a .closeQueue
  generalize a.receive .closeQueue = a' at hmoved ⊢
  cases hmoved with
  | close => rfl
  | discard _ hne => exact absurd rfl hne

/-- A machine that has not left its loop finds the `close_queue` that is on its way. -/
theorem Closed.step {s s' : System} {l : Label} (h : Closed s)
    (hstep : machine.step s l = some s') : Closed s' := by
  obtain ⟨ps, hps, hall⟩ := h
  -- a message is added to a queue
  have hpush : ∀ (q : Party) (m : Msg) (p : Party), p ∈ ps ∨
      .closeQueue ∈ ((s.push q m).queue p).waiting ∨ s.left p := by
    intro q m p
    rcases hall p with hp | hp | hp
    · exact Or.inl hp
    · refine Or.inr (Or.inl ?_)
      by_cases hpq : p = q
      · subst hpq
        simp [hp]
      · simpa [hpq] using hp
    · exact Or.inr (Or.inr hp)
  -- the first message of a queue is taken out, and its owner leaves if it is a `close_queue`
  have hpop : ∀ {q : Party} {m : Msg} {rest : List Msg} {u : System},
      (s.queue q).waiting = m :: rest → u.queue = (s.pop q m rest).queue →
      (m = .closeQueue → u.left q) → (∀ p, s.left p → u.left p) →
      ∀ p, p ∈ ps ∨ .closeQueue ∈ (u.queue p).waiting ∨ u.left p := by
    intro q m rest u hq hu hleft hstay p
    rcases hall p with hp | hp | hp
    · exact Or.inl hp
    · by_cases hpq : p = q
      · subst hpq
        rw [hq] at hp
        rcases List.mem_cons.mp hp with hm | hm
        · exact Or.inr (Or.inr (hleft hm.symm))
        · exact Or.inr (Or.inl (by simp [hu, hm]))
      · exact Or.inr (Or.inl (by simpa [hu, hpq] using hp))
    · exact Or.inr (Or.inr (hstay p hp))
  cases moves_of_step hstep with
  | quit hnone | key hnone | noKey hnone | user hnone =>
    rw [hps] at hnone
    cases hnone
  | @close p rest hclosing =>
    refine ⟨rest, rfl, fun q => ?_⟩
    rw [hps] at hclosing
    cases hclosing
    by_cases hqp : q = p
    · subst hqp
      exact Or.inr (Or.inl (by simp))
    · rcases hpush p .closeQueue q with hq | hq | hq
      · exact Or.inl ((List.mem_cons.mp hq).resolve_left hqp)
      · exact Or.inr (Or.inl hq)
      · exact Or.inr (Or.inr (by cases q <;> exact hq))
  | @atmSend p m rest hout =>
    exact ⟨ps, hps, fun q => (hpush p m q).imp_right (Or.imp_right fun hq => by
      cases q <;> exact hq)⟩
  | atmEnter hout hpc =>
    refine ⟨ps, hps, fun q => (hall q).imp_right (Or.imp_right fun hq => ?_)⟩
    cases q with
    | atm =>
      rw [System.left, hpc] at hq
      cases hq
    | bank | hardware => exact hq
  | @atmReceive hout hpc m rest hq =>
    refine ⟨ps, hps, hpop hq rfl ?_ ?_⟩
    · rintro rfl
      exact receive_closeQueue s.atm
    · intro p hp
      cases p with
      | atm =>
        rw [System.left, hpc] at hp
        cases hp
      | bank | hardware => exact hp
  | @bankSend m rest htodo =>
    exact ⟨ps, hps, fun q => (hpush .atm m q).imp_right (Or.imp_right fun hq => by
      cases q <;> exact hq)⟩
  | bankDebit htodo =>
    exact ⟨ps, hps, fun q => (hall q).imp_right (Or.imp_right fun hq => by
      cases q <;> exact hq)⟩
  | @bankReceive htodo hrun m rest hq =>
    refine ⟨ps, hps, hpop hq rfl ?_ ?_⟩
    · rintro rfl
      rfl
    · intro p hp
      cases p with
      | bank =>
        rw [System.left, hrun] at hp
        cases hp
      | atm | hardware => exact hp
  | @hardwareReceive hrun m rest hq =>
    refine ⟨ps, hps, hpop hq rfl ?_ ?_⟩
    · rintro rfl
      rfl
    · intro p hp
      cases p with
      | hardware =>
        rw [System.left, hrun] at hp
        cases hp
      | atm | bank => exact hp

/-- Where nothing can move, everything has ended. -/
theorem Closed.ended {s : System} (h : Closed s) (hstuck : ∀ l, machine.step s l = none) :
    Ended s := by
  obtain ⟨ps, hps, hall⟩ := h
  have hclosing : s.closing = some [] := by
    have hnone := hstuck .close
    cases ps with
    | nil => exact hps
    | cons p rest => simp [machine, hps] at hnone
  have hfound : ∀ p, .closeQueue ∈ (s.queue p).waiting ∨ s.left p := by
    intro p
    rw [hclosing] at hps
    cases hps
    exact (hall p).resolve_left List.not_mem_nil
  have hatm := hstuck .atm
  have hbank := hstuck .bank
  have hhardware := hstuck .hardware
  simp only [machine, System.stepAtm, System.stepBank, System.stepHardware] at hatm hbank hhardware
  refine ⟨hclosing, ?_, ?_, ?_⟩
  · split at hatm
    · cases hatm
    · rename_i hout
      refine ⟨?_, hout⟩
      split at hatm
      · cases hatm
      · split at hatm
        · cases hatm
        · rename_i hempty
          exact (hfound .atm).resolve_left (by rw [hempty]; exact List.not_mem_nil)
      · assumption
  · split at hbank
    · cases hbank
    · cases hbank
    · rename_i htodo
      refine ⟨?_, htodo⟩
      split at hbank
      · assumption
      · split at hbank
        · cases hbank
        · rename_i hempty
          exact (hfound .bank).resolve_left (by rw [hempty]; exact List.not_mem_nil)
  · split at hhardware
    · assumption
    · split at hhardware
      · cases hhardware
      · rename_i hempty
        exact (hfound .hardware).resolve_left (by rw [hempty]; exact List.not_mem_nil)

/-- While `main` reads nothing is promised, and after `q` everything. -/
theorem closed_of_reachable {s : System} (h : machine.Reachable s) (hclosing : s.closing ≠ none) :
    Closed s := by
  have key : s.closing = none ∨ Closed s := by
    refine h.invariant (P := fun s => s.closing = none ∨ Closed s) (Or.inl rfl) ?_
    rintro s l s' (hnone | hclosed) hstep
    · cases moves_of_step hstep with
      | quit =>
        refine Or.inr ⟨_, rfl, fun p => Or.inl ?_⟩
        cases p <;> simp
      | close hsome =>
        rw [hnone] at hsome
        cases hsome
      | _ => exact Or.inl hnone
    · exact Or.inr (hclosed.step hstep)
  exact key.resolve_left hclosing

/-- **Shutdown.**  Once `q` has been typed the program comes to its end whatever the order of the
steps: there is a bound for the steps to come, and when no thread can move all three have left
`run`, with all they had to send sent, so that the joins return. -/
theorem shutdown {s : System} (h : machine.Reachable s) (hclosing : s.closing ≠ none) :
    Machine.Terminates ⟨s, machine.step⟩ Ended := by
  refine Machine.terminates_of_decreasing
    (P := fun u => machine.Reachable u ∧ u.closing ≠ none) ⟨h, hclosing⟩ remaining ?_ ?_
  · rintro u l u' ⟨hu, hcl⟩ hstep
    have hclosed := (closed_of_reachable hu hcl).step hstep
    obtain ⟨ps, hps, -⟩ := hclosed
    exact ⟨⟨hu.step hstep, by rw [hps]; simp⟩, remaining_lt hcl (served_of_reachable hu) hstep⟩
  · rintro u ⟨hu, hcl⟩ hnot
    by_contra hstuck
    refine hnot ((closed_of_reachable hu hcl).ended fun l => ?_)
    cases hstep : machine.step u l with
    | none => rfl
    | some u' => exact absurd ⟨l, u', hstep⟩ hstuck

/-- A card has been inserted and `q` typed before the `atm` has taken a step. -/
theorem typed_shutdown :
    ∃ s, machine.run machine.init [.getchar 'i', .getchar 'q'] = some s ∧
      Machine.Terminates ⟨s, machine.step⟩ Ended := by
  obtain ⟨s, hs, hclosing⟩ : ∃ s,
      machine.run machine.init [.getchar 'i', .getchar 'q'] = some s ∧
      s.closing = some [.bank, .atm, .hardware] := ⟨_, rfl, rfl⟩
  exact ⟨s, hs, shutdown (Machine.reachable_of_run _ hs) (by rw [hclosing]; simp)⟩

end Sundries.ATM
