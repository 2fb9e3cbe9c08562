import Mathlib.Logic.Function.Basic
import Sundries.Messaging

/-!
# The machines of `4.x5.ATM.cpp`

Three threads run `atm`, `bank_machine` and `interface_machine`, each with a queue of its
own, and the main thread reads the keyboard.  All they share is the queues, so a step is one
`push` or one `wait_and_pop` with what its handler does to the receiver's own fields.  What
a handler sends is kept in `outbox` (`todo` at the bank) and sent message by message, since
the other threads may act in between.

Which handler a message gets is `Messaging.lastFor` of the chain that waits, as
`Messaging.exactly_one_dispatch` says of the destructors.
-/
namespace Sundries.Messaging
variable {Ty F Msg : Type} [DecidableEq Ty]

/-- What becomes of a message that a waiting chain has popped. -/
inductive Outcome (F : Type) where
  | call (f : F)
  | close
  | discard

/-- The outcome for the chain with the handlers `attached`, the last one first. -/
def outcome (typeOf : Msg → Ty) (closeQueue : Ty) (attached : List (Ty × F)) (m : Msg) :
    Outcome F :=
  match lastFor attached (typeOf m) with
  | some f => .call f
  | none => if typeOf m = closeQueue then .close else .discard

/-- A chain that has done its work has discarded what it popped before the last message, and
has called the handler for that one or thrown `close_queue`. -/
theorem Done.outcomes {typeOf : Msg → Ty} {closeQueue : Ty} {s : State Ty F Msg}
    (h : Done typeOf closeQueue s) :
    ∃ skipped m, s.popped.map Prod.snd = skipped ++ [m] ∧
      (∀ x ∈ skipped, outcome typeOf closeQueue s.attached x = .discard) ∧
      ((∃ f, outcome typeOf closeQueue s.attached m = .call f ∧ s.calls = [(f, m)]) ∨
        (outcome typeOf closeQueue s.attached m = .close ∧ s.thrown = true ∧ s.calls = [])) := by
  obtain ⟨skipped, m, hpopped, hskipped, hlast⟩ := h
  refine ⟨skipped.map Prod.snd, m, by rw [hpopped, List.map_append]; rfl, fun x hx => ?_, ?_⟩
  · obtain ⟨e, he, rfl⟩ := List.mem_map.mp hx
    obtain ⟨hnone, htype⟩ := hskipped e he
    simp only [outcome, hnone, if_neg htype]
  · rcases hlast with ⟨-, f, hf, hcalls⟩ | ⟨hthrown, htype, hnone, hcalls⟩
    · exact Or.inl ⟨f, by simp only [outcome, hf], hcalls⟩
    · exact Or.inr ⟨by simp only [outcome, htype, hnone, if_true], hthrown, hcalls⟩

end Sundries.Messaging

namespace Sundries.ATM
open Messaging (Outcome outcome)

/-- The types of the messages. -/
inductive MsgType where
  | withdraw | withdrawOk | withdrawDenied | cancelWithdrawal | withdrawalProcessed
  | cardInserted | digitPressed | clearLastPressed | ejectCard | withdrawPressed | cancelPressed
  | issueMoney | verifyPin | pinVerified | pinIncorrect | displayEnterPin | displayEnterCard
  | displayInsufficientFunds | displayWithdrawalCancelled | displayPinIncorrectMessage
  | displayWithdrawalOptions | getBalance | balance | displayBalance | balancePressed | closeQueue
  deriving DecidableEq

/-- The messages.  The `_atm_queue` of `withdraw`, `verify_pin` and `get_balance` is always the
queue of the one `atm`. -/
inductive Msg where
  | withdraw (account : String) (amount : ℕ)
  | withdrawOk
  | withdrawDenied
  | cancelWithdrawal (account : String) (amount : ℕ)
  | withdrawalProcessed (account : String) (amount : ℕ)
  | cardInserted (account : String)
  | digitPressed (digit : Char)
  | clearLastPressed
  | ejectCard
  | withdrawPressed (amount : ℕ)
  | cancelPressed
  | issueMoney (amount : ℕ)
  | verifyPin (account : String) (pin : List Char)
  | pinVerified
  | pinIncorrect
  | displayEnterPin
  | displayEnterCard
  | displayInsufficientFunds
  | displayWithdrawalCancelled
  | displayPinIncorrectMessage
  | displayWithdrawalOptions
  | getBalance (account : String)
  | balance (amount : ℕ)
  | displayBalance (amount : ℕ)
  | balancePressed
  | closeQueue
  deriving DecidableEq

def Msg.type : Msg → MsgType
  | .withdraw .. => .withdraw
  | .withdrawOk => .withdrawOk
  | .withdrawDenied => .withdrawDenied
  | .cancelWithdrawal .. => .cancelWithdrawal
  | .withdrawalProcessed .. => .withdrawalProcessed
  | .cardInserted _ => .cardInserted
  | .digitPressed _ => .digitPressed
  | .clearLastPressed => .clearLastPressed
  | .ejectCard => .ejectCard
  | .withdrawPressed _ => .withdrawPressed
  | .cancelPressed => .cancelPressed
  | .issueMoney _ => .issueMoney
  | .verifyPin .. => .verifyPin
  | .pinVerified => .pinVerified
  | .pinIncorrect => .pinIncorrect
  | .displayEnterPin => .displayEnterPin
  | .displayEnterCard => .displayEnterCard
  | .displayInsufficientFunds => .displayInsufficientFunds
  | .displayWithdrawalCancelled => .displayWithdrawalCancelled
  | .displayPinIncorrectMessage => .displayPinIncorrectMessage
  | .displayWithdrawalOptions => .displayWithdrawalOptions
  | .getBalance _ => .getBalance
  | .balance _ => .balance
  | .displayBalance _ => .displayBalance
  | .balancePressed => .balancePressed
  | .closeQueue => .closeQueue

inductive Party where
  | atm | bank | hardware
  deriving DecidableEq

/-- A `messaging::queue`.  The messages popped so far are kept for the account. -/
structure Queue where
  popped : List Msg
  waiting : List Msg

namespace Queue

def push (q : Queue) (m : Msg) : Queue := { q with waiting := q.waiting ++ [m] }

/-- All that was ever pushed. -/
def sent (q : Queue) : List Msg := q.popped ++ q.waiting

@[simp] theorem popped_push (q : Queue) (m : Msg) : (q.push m).popped = q.popped := rfl

@[simp] theorem waiting_push (q : Queue) (m : Msg) : (q.push m).waiting = q.waiting ++ [m] := rfl

@[simp] theorem sent_push (q : Queue) (m : Msg) : (q.push m).sent = q.sent ++ [m] := by
  simp [sent]

/-- A pop leaves what was sent. -/
theorem sent_pop {q : Queue} {m : Msg} {rest : List Msg} (h : q.waiting = m :: rest) :
    (⟨q.popped ++ [m], rest⟩ : Queue).sent = q.sent := by
  simp [sent, h]

end Queue

/-! ## `atm` -/

/-- The values of the member function pointer `state`. -/
inductive AtmState where
  | waitingForCard | gettingPin | verifyingPin | waitForAction | processWithdrawal
  | processBalance | doneProcessing
  deriving DecidableEq

/-- Where a thread is in `run`: about to call the state function, in its `wait`, or out of the
loop. -/
inductive Pc where
  | call | wait | ended
  deriving DecidableEq

/-- The fields of an `atm`.  `_withdrawal_amount` is not read before it is set. -/
structure Atm where
  state : AtmState
  pc : Pc
  outbox : List (Party × Msg)
  account : String
  withdrawalAmount : ℕ
  pin : List Char

namespace Atm

def goto (a : Atm) (state : AtmState) : Atm := { a with state := state }

def send (a : Atm) (p : Party) (m : Msg) : Atm := { a with outbox := a.outbox ++ [(p, m)] }

end Atm

/-- `unsigned const pin_length = 4`. -/
def pinLength : ℕ := 4

/-- The handlers of the state functions, in the order of the source. -/
def AtmState.chain : AtmState → List (MsgType × (Atm → Msg → Atm))
  | .processWithdrawal =>
    [(.withdrawOk, fun a _ =>
        ((a.send .hardware (.issueMoney a.withdrawalAmount)).send .bank
          (.withdrawalProcessed a.account a.withdrawalAmount)).goto .doneProcessing),
      (.withdrawDenied, fun a _ =>
        (a.send .hardware .displayInsufficientFunds).goto .doneProcessing),
      (.cancelPressed, fun a _ =>
        ((a.send .bank (.cancelWithdrawal a.account a.withdrawalAmount)).send .hardware
          .displayWithdrawalCancelled).goto .doneProcessing)]
  | .processBalance =>
    [(.balance, fun a m => match m with
        | .balance amount => (a.send .hardware (.displayBalance amount)).goto .waitForAction
        | _ => a),
      (.cancelPressed, fun a _ => a.goto .doneProcessing)]
  | .waitForAction =>
    [(.withdrawPressed, fun a m => match m with
        | .withdrawPressed amount =>
          ({ a with withdrawalAmount := amount }.send .bank
            (.withdraw a.account amount)).goto .processWithdrawal
        | _ => a),
      (.balancePressed, fun a _ => (a.send .bank (.getBalance a.account)).goto .processBalance),
      (.cancelPressed, fun a _ => a.goto .doneProcessing)]
  | .verifyingPin =>
    [(.pinVerified, fun a _ => a.goto .waitForAction),
      (.pinIncorrect, fun a _ =>
        (a.send .hardware .displayPinIncorrectMessage).goto .doneProcessing),
      (.cancelPressed, fun a _ => a.goto .doneProcessing)]
  | .gettingPin =>
    [(.digitPressed, fun a m => match m with
        | .digitPressed digit =>
          let a := { a with pin := a.pin ++ [digit] }
          if a.pin.length = pinLength then
            (a.send .bank (.verifyPin a.account a.pin)).goto .verifyingPin
          else a
        | _ => a),
      (.clearLastPressed, fun a _ =>
        if a.pin ≠ [] then { a with pin := a.pin.dropLast } else a),
      (.cancelPressed, fun a _ => a.goto .doneProcessing)]
  | .waitingForCard =>
    [(.cardInserted, fun a m => match m with
        | .cardInserted account =>
          ({ a with account := account, pin := [] }.send .hardware .displayEnterPin).goto
            .gettingPin
        | _ => a)]
  | .doneProcessing => []

/-- What a state function sends before it waits. -/
def AtmState.greeting : AtmState → List (Party × Msg)
  | .waitingForCard => [(.hardware, .displayEnterCard)]
  | .waitForAction => [(.hardware, .displayWithdrawalOptions)]
  | _ => []

namespace Atm

/-- A call of the state function, up to its `wait`; `done_processing` has none. -/
def enter (a : Atm) : Atm :=
  match a.state with
  | .doneProcessing => (a.send .hardware .ejectCard).goto .waitingForCard
  | _ => { a with outbox := a.outbox ++ a.state.greeting, pc := .wait }

/-- What the waiting `atm` does with a message it has popped. -/
def receive (a : Atm) (m : Msg) : Atm :=
  match outcome Msg.type .closeQueue a.state.chain.reverse m with
  | .call f => { f a m with pc := .call }
  | .close => { a with pc := .ended }
  | .discard => a

end Atm

/-! ## `bank_machine` -/

/-- What a handler of the bank still has to do. -/
inductive BankAct where
  | send (m : Msg)
  | debit (amount : ℕ)

structure Bank where
  ended : Bool
  todo : List BankAct
  balance : ℕ

/-- The handlers of `bank_machine::run`, in the order of the source. -/
def Bank.chain : List (MsgType × (Bank → Msg → List BankAct)) :=
  [(.verifyPin, fun _ m => match m with
      | .verifyPin _ pin =>
        if pin = ['1', '9', '3', '7'] then [.send .pinVerified] else [.send .pinIncorrect]
      | _ => []),
    (.withdraw, fun b m => match m with
      | .withdraw _ amount =>
        if amount ≤ b.balance then [.send .withdrawOk, .debit amount] else [.send .withdrawDenied]
      | _ => []),
    (.getBalance, fun b _ => [.send (.balance b.balance)]),
    (.withdrawalProcessed, fun _ _ => []),
    (.cancelWithdrawal, fun _ _ => [])]

def Bank.receive (b : Bank) (m : Msg) : Bank :=
  match outcome Msg.type .closeQueue Bank.chain.reverse m with
  | .call f => { b with todo := f b m }
  | .close => { b with ended := true }
  | .discard => b

/-! ## `interface_machine` -/

/-- The lines printed so far. -/
structure Hardware where
  ended : Bool
  out : List String

/-- The handlers of `interface_machine::run`, in the order of the source: the lines they
print. -/
def Hardware.chain : List (MsgType × (Msg → List String)) :=
  [(.issueMoney, fun m => match m with
      | .issueMoney amount => ["Issuing " ++ toString amount]
      | _ => []),
    (.displayInsufficientFunds, fun _ => ["Insufficient funds"]),
    (.displayEnterPin, fun _ => ["Please enter your PIN (0-9)"]),
    (.displayEnterCard, fun _ => ["Please enter your card (I)"]),
    (.displayBalance, fun m => match m with
      | .displayBalance amount => ["The balance of your account is " ++ toString amount]
      | _ => []),
    (.displayWithdrawalOptions, fun _ => ["Withdraw 50? (w)", "Display Balance? (b)",
      "Cancel? (c)"]),
    (.displayWithdrawalCancelled, fun _ => ["Withdrawal cancelled"]),
    (.displayPinIncorrectMessage, fun _ => ["PIN incorrect"]),
    (.ejectCard, fun _ => ["Ejecting card"])]

def Hardware.receive (h : Hardware) (m : Msg) : Hardware :=
  match outcome Msg.type .closeQueue Hardware.chain.reverse m with
  | .call f => { h with out := h.out ++ f m }
  | .close => { h with ended := true }
  | .discard => h

/-! ## The system -/

/-- `closing` is `none` while the main thread reads the keyboard, and then the machines whose
`done` it has still to call. -/
structure System where
  queue : Party → Queue
  atm : Atm
  bank : Bank
  hardware : Hardware
  closing : Option (List Party)

/-- The message for a character, as in the `switch` of `main`. -/
def key : Char → Option Msg
  | '0' => some (.digitPressed '0')
  | '1' => some (.digitPressed '1')
  | '2' => some (.digitPressed '2')
  | '3' => some (.digitPressed '3')
  | '4' => some (.digitPressed '4')
  | '5' => some (.digitPressed '5')
  | '6' => some (.digitPressed '6')
  | '7' => some (.digitPressed '7')
  | '8' => some (.digitPressed '8')
  | '9' => some (.digitPressed '9')
  | 'b' => some .balancePressed
  | 'w' => some (.withdrawPressed 50)
  | 'c' => some .cancelPressed
  | 'i' => some (.cardInserted "acc1234")
  | _ => none

/-- What a user of the `atm` may send to it: any card, key, amount. -/
def Msg.fromUser : Msg → Bool
  | .cardInserted _ | .digitPressed _ | .clearLastPressed | .withdrawPressed _ | .cancelPressed
  | .balancePressed => true
  | _ => false

/-- The steps.  `getchar` is one round of the loop of `main`, `close` one of its calls of
`done`, and `user` a message that another owner of the sender sends while `main` reads. -/
inductive Label where
  | getchar (c : Char)
  | user (m : Msg)
  | close
  | atm
  | bank
  | hardware
  deriving DecidableEq

namespace System

def push (s : System) (p : Party) (m : Msg) : System :=
  { s with queue := Function.update s.queue p ((s.queue p).push m) }

/-- The first message of a queue is taken out. -/
def pop (s : System) (p : Party) (m : Msg) (rest : List Msg) : System :=
  { s with queue := Function.update s.queue p ⟨(s.queue p).popped ++ [m], rest⟩ }

def stepAtm (s : System) : Option System :=
  match s.atm.outbox with
  | (p, m) :: rest => some { s.push p m with atm := { s.atm with outbox := rest } }
  | [] =>
    match s.atm.pc with
    | .call => some { s with atm := s.atm.enter }
    | .wait =>
      match (s.queue .atm).waiting with
      | m :: rest => some { s.pop .atm m rest with atm := s.atm.receive m }
      | [] => none
    | .ended => none

def stepBank (s : System) : Option System :=
  match s.bank.todo with
  | .send m :: rest => some { s.push .atm m with bank := { s.bank with todo := rest } }
  | .debit amount :: rest =>
    some { s with bank := { s.bank with todo := rest, balance := s.bank.balance - amount } }
  | [] =>
    if s.bank.ended then none
    else
      match (s.queue .bank).waiting with
      | m :: rest => some { s.pop .bank m rest with bank := s.bank.receive m }
      | [] => none

def stepHardware (s : System) : Option System :=
  if s.hardware.ended then none
  else
    match (s.queue .hardware).waiting with
    | m :: rest => some { s.pop .hardware m rest with hardware := s.hardware.receive m }
    | [] => none

end System

/-- The program after its threads have been started. -/
def machine : Machine System Label where
  init :=
    { queue := fun _ => ⟨[], []⟩
      atm := ⟨.waitingForCard, .call, [], "", 0, []⟩
      bank := ⟨false, [], 199⟩
      hardware := ⟨false, []⟩
      closing := none }
  step s
    | .getchar c =>
      match s.closing with
      | some _ => none
      | none =>
        if c = 'q' then some { s with closing := some [.bank, .atm, .hardware] }
        else
          match key c with
          | some m => some (s.push .atm m)
          | none => some s
    | .user m =>
      match s.closing with
      | some _ => none
      | none => if m.fromUser then some (s.push .atm m) else none
    | .close =>
      match s.closing with
      | some (p :: rest) => some { s.push p .closeQueue with closing := some rest }
      | _ => none
    | .atm => s.stepAtm
    | .bank => s.stepBank
    | .hardware => s.stepHardware

/-! ## What the steps do -/

/-- All that the waiting `atm` does with a message. -/
inductive Receives (a : Atm) : Msg → Atm → Prop where
  | withdrawOk (h : a.state = .processWithdrawal) :
    Receives a .withdrawOk { a with
      outbox := a.outbox ++ [(.hardware, .issueMoney a.withdrawalAmount)] ++
        [(.bank, .withdrawalProcessed a.account a.withdrawalAmount)]
      state := .doneProcessing
      pc := .call }
  | withdrawDenied (h : a.state = .processWithdrawal) :
    Receives a .withdrawDenied { a with
      outbox := a.outbox ++ [(.hardware, .displayInsufficientFunds)]
      state := .doneProcessing
      pc := .call }
  | withdrawalCancelled (h : a.state = .processWithdrawal) :
    Receives a .cancelPressed { a with
      outbox := a.outbox ++ [(.bank, .cancelWithdrawal a.account a.withdrawalAmount)] ++
        [(.hardware, .displayWithdrawalCancelled)]
      state := .doneProcessing
      pc := .call }
  | balance (h : a.state = .processBalance) (amount : ℕ) :
    Receives a (.balance amount) { a with
      outbox := a.outbox ++ [(.hardware, .displayBalance amount)]
      state := .waitForAction
      pc := .call }
  | withdrawPressed (h : a.state = .waitForAction) (amount : ℕ) :
    Receives a (.withdrawPressed amount) { a with
      withdrawalAmount := amount
      outbox := a.outbox ++ [(.bank, .withdraw a.account amount)]
      state := .processWithdrawal
      pc := .call }
  | balancePressed (h : a.state = .waitForAction) :
    Receives a .balancePressed { a with
      outbox := a.outbox ++ [(.bank, .getBalance a.account)]
      state := .processBalance
      pc := .call }
  | pinVerified (h : a.state = .verifyingPin) :
    Receives a .pinVerified { a with state := .waitForAction, pc := .call }
  | pinIncorrect (h : a.state = .verifyingPin) :
    Receives a .pinIncorrect { a with
      outbox := a.outbox ++ [(.hardware, .displayPinIncorrectMessage)]
      state := .doneProcessing
      pc := .call }
  | digit (h : a.state = .gettingPin) (digit : Char) (hlen : a.pin.length + 1 ≠ pinLength) :
    Receives a (.digitPressed digit) { a with pin := a.pin ++ [digit], pc := .call }
  | lastDigit (h : a.state = .gettingPin) (digit : Char) (hlen : a.pin.length + 1 = pinLength) :
    Receives a (.digitPressed digit) { a with
      pin := a.pin ++ [digit]
      outbox := a.outbox ++ [(.bank, .verifyPin a.account (a.pin ++ [digit]))]
      state := .verifyingPin
      pc := .call }
  | clear (h : a.state = .gettingPin) :
    Receives a .clearLastPressed { a with pin := a.pin.dropLast, pc := .call }
  | cancel (h : a.state ≠ .processWithdrawal) (hcard : a.state ≠ .waitingForCard)
      (hdone : a.state ≠ .doneProcessing) :
    Receives a .cancelPressed { a with state := .doneProcessing, pc := .call }
  | cardInserted (h : a.state = .waitingForCard) (account : String) :
    Receives a (.cardInserted account) { a with
      account := account
      pin := []
      outbox := a.outbox ++ [(.hardware, .displayEnterPin)]
      state := .gettingPin
      pc := .call }
  | close : Receives a .closeQueue { a with pc := .ended }
  | discard {m : Msg} (hnone : m.type ∉ a.state.chain.map Prod.fst) (hne : m ≠ .closeQueue) :
    Receives a m a

theorem receives (a : Atm) (m : Msg) : Receives a m (a.receive m) := by
  obtain ⟨state, pc, outbox, account, amount, pin⟩ := a
  cases state with
  | processWithdrawal =>
    cases m with
    | withdrawOk => exact .withdrawOk rfl
    | withdrawDenied => exact .withdrawDenied rfl
    | cancelPressed => exact .withdrawalCancelled rfl
    | closeQueue => exact .close
    | _ => exact .discard (by simp [AtmState.chain, Msg.type]) (by simp)
  | processBalance =>
    cases m with
    | balance n => exact .balance rfl n
    | cancelPressed => exact .cancel (by simp) (by simp) (by simp)
    | closeQueue => exact .close
    | _ => exact .discard (by simp [AtmState.chain, Msg.type]) (by simp)
  | waitForAction =>
    cases m with
    | withdrawPressed n => exact .withdrawPressed rfl n
    | balancePressed => exact .balancePressed rfl
    | cancelPressed => exact .cancel (by simp) (by simp) (by simp)
    | closeQueue => exact .close
    | _ => exact .discard (by simp [AtmState.chain, Msg.type]) (by simp)
  | verifyingPin =>
    cases m with
    | pinVerified => exact .pinVerified rfl
    | pinIncorrect => exact .pinIncorrect rfl
    | cancelPressed => exact .cancel (by simp) (by simp) (by simp)
    | closeQueue => exact .close
    | _ => exact .discard (by simp [AtmState.chain, Msg.type]) (by simp)
  | gettingPin =>
    cases m with
    | digitPressed digit =>
      have hreceive : Atm.receive ⟨.gettingPin, pc, outbox, account, amount, pin⟩
          (.digitPressed digit) =
          if (pin ++ [digit]).length = pinLength then
            ⟨.verifyingPin, .call, outbox ++ [(.bank, .verifyPin account (pin ++ [digit]))],
              account, amount, pin ++ [digit]⟩
          else ⟨.gettingPin, .call, outbox, account, amount, pin ++ [digit]⟩ := by
        show ({ (if (pin ++ [digit]).length = pinLength then _ else _ : Atm) with pc := .call } :
          Atm) = _
        split <;> rfl
      rw [hreceive, List.length_append, List.length_singleton]
      split
      · exact .lastDigit rfl digit ‹_›
      · exact .digit rfl digit ‹_›
    | clearLastPressed =>
      have hreceive : Atm.receive ⟨.gettingPin, pc, outbox, account, amount, pin⟩
          .clearLastPressed = ⟨.gettingPin, .call, outbox, account, amount, pin.dropLast⟩ := by
        cases pin <;> rfl
      rw [hreceive]
      exact .clear rfl
    | cancelPressed => exact .cancel (by simp) (by simp) (by simp)
    | closeQueue => exact .close
    | _ => exact .discard (by simp [AtmState.chain, Msg.type]) (by simp)
  | waitingForCard =>
    cases m with
    | cardInserted account => exact .cardInserted rfl account
    | closeQueue => exact .close
    | _ => exact .discard (by simp [AtmState.chain, Msg.type]) (by simp)
  | doneProcessing =>
    cases m with
    | closeQueue => exact .close
    | _ => exact .discard (by simp [AtmState.chain, Msg.type]) (by simp)

/-- What the bank does with a message. -/
inductive BankReceives (b : Bank) : Msg → Bank → Prop where
  | verifyPin (account : String) (pin : List Char) :
    BankReceives b (.verifyPin account pin)
      { b with todo := [.send (if pin = ['1', '9', '3', '7'] then .pinVerified
        else .pinIncorrect)] }
  | withdrawOk (account : String) {amount : ℕ} (h : amount ≤ b.balance) :
    BankReceives b (.withdraw account amount) { b with todo := [.send .withdrawOk, .debit amount] }
  | withdrawDenied (account : String) {amount : ℕ} (h : ¬ amount ≤ b.balance) :
    BankReceives b (.withdraw account amount) { b with todo := [.send .withdrawDenied] }
  | getBalance (account : String) :
    BankReceives b (.getBalance account) { b with todo := [.send (.balance b.balance)] }
  | notice {m : Msg} (h : m.type = .withdrawalProcessed ∨ m.type = .cancelWithdrawal) :
    BankReceives b m { b with todo := [] }
  | close : BankReceives b .closeQueue { b with ended := true }
  | discard {m : Msg} (hnone : m.type ∉ Bank.chain.map Prod.fst) (hne : m ≠ .closeQueue) :
    BankReceives b m b

theorem bankReceives (b : Bank) (m : Msg) : BankReceives b m (b.receive m) := by
  cases m with
  | verifyPin account pin =>
    have hreceive : b.receive (.verifyPin account pin) =
        { b with todo := [.send (if pin = ['1', '9', '3', '7'] then .pinVerified
          else .pinIncorrect)] } := by
      show ({ b with todo := if pin = ['1', '9', '3', '7'] then _ else _ } : Bank) = _
      split <;> rfl
    rw [hreceive]
    exact .verifyPin account pin
  | withdraw account amount =>
    have hreceive : b.receive (.withdraw account amount) =
        { b with todo := if amount ≤ b.balance then [.send .withdrawOk, .debit amount]
          else [.send .withdrawDenied] } := rfl
    rw [hreceive]
    split
    · exact .withdrawOk account ‹_›
    · exact .withdrawDenied account ‹_›
  | getBalance account => exact .getBalance account
  | withdrawalProcessed => exact .notice (Or.inl rfl)
  | cancelWithdrawal => exact .notice (Or.inr rfl)
  | closeQueue => exact .close
  | _ => exact .discard (by simp [Bank.chain, Msg.type]) (by simp)

/-- All that a step can do. -/
inductive Moves (s : System) : Label → System → Prop where
  | quit (h : s.closing = none) :
    Moves s (.getchar 'q') { s with closing := some [.bank, .atm, .hardware] }
  | key (h : s.closing = none) {c : Char} {m : Msg} (hm : key c = some m) :
    Moves s (.getchar c) (s.push .atm m)
  | noKey (h : s.closing = none) (c : Char) : Moves s (.getchar c) s
  | user (h : s.closing = none) {m : Msg} (hm : m.fromUser = true) :
    Moves s (.user m) (s.push .atm m)
  | close {p : Party} {rest : List Party} (h : s.closing = some (p :: rest)) :
    Moves s .close { s.push p .closeQueue with closing := some rest }
  | atmSend {p : Party} {m : Msg} {rest : List (Party × Msg)} (h : s.atm.outbox = (p, m) :: rest) :
    Moves s .atm { s.push p m with atm := { s.atm with outbox := rest } }
  | atmEnter (h : s.atm.outbox = []) (hpc : s.atm.pc = .call) :
    Moves s .atm { s with atm := s.atm.enter }
  | atmReceive (h : s.atm.outbox = []) (hpc : s.atm.pc = .wait) {m : Msg} {rest : List Msg}
      (hq : (s.queue .atm).waiting = m :: rest) :
    Moves s .atm { s.pop .atm m rest with atm := s.atm.receive m }
  | bankSend {m : Msg} {rest : List BankAct} (h : s.bank.todo = .send m :: rest) :
    Moves s .bank { s.push .atm m with bank := { s.bank with todo := rest } }
  | bankDebit {amount : ℕ} {rest : List BankAct} (h : s.bank.todo = .debit amount :: rest) :
    Moves s .bank { s with
      bank := { s.bank with todo := rest, balance := s.bank.balance - amount } }
  | bankReceive (h : s.bank.todo = []) (hrun : s.bank.ended = false) {m : Msg} {rest : List Msg}
      (hq : (s.queue .bank).waiting = m :: rest) :
    Moves s .bank { s.pop .bank m rest with bank := s.bank.receive m }
  | hardwareReceive (hrun : s.hardware.ended = false) {m : Msg} {rest : List Msg}
      (hq : (s.queue .hardware).waiting = m :: rest) :
    Moves s .hardware { s.pop .hardware m rest with hardware := s.hardware.receive m }

theorem moves_of_step {s s' : System} {l : Label} (h : machine.step s l = some s') :
    Moves s l s' := by
  cases l with
  | getchar c =>
    simp only [machine] at h
    split at h
    · cases h
    · split at h
      · cases h
        subst c
        exact .quit ‹_›
      · split at h <;> cases h
        · exact .key ‹_› ‹_›
        · exact .noKey ‹_› c
  | user m =>
    simp only [machine] at h
    split at h
    · cases h
    · obtain ⟨hm, hs'⟩ := Option.ite_none_right_eq_some.mp h
      cases hs'
      exact .user ‹_› hm
  | close =>
    simp only [machine] at h
    split at h
    · cases h
      exact .close ‹_›
    · cases h
  | atm =>
    simp only [machine, System.stepAtm] at h
    split at h
    · cases h
      exact .atmSend ‹_›
    · split at h
      · cases h
        exact .atmEnter ‹_› ‹_›
      · split at h <;> cases h
        exact .atmReceive ‹_› ‹_› ‹_›
      · cases h
  | bank =>
    simp only [machine, System.stepBank] at h
    split at h
    · cases h
      exact .bankSend ‹_›
    · cases h
      exact .bankDebit ‹_›
    · split at h
      · cases h
      · split at h <;> cases h
        exact .bankReceive ‹_› (Bool.eq_false_iff.mpr ‹_›) ‹_›
  | hardware =>
    simp only [machine, System.stepHardware] at h
    split at h
    · cases h
    · split at h <;> cases h
      exact .hardwareReceive (Bool.eq_false_iff.mpr ‹_›) ‹_›

namespace System
variable (s : System)

@[simp] theorem queue_push (p : Party) (m : Msg) :
    (s.push p m).queue = Function.update s.queue p ((s.queue p).push m) := rfl

@[simp] theorem atm_push (p : Party) (m : Msg) : (s.push p m).atm = s.atm := rfl

@[simp] theorem bank_push (p : Party) (m : Msg) : (s.push p m).bank = s.bank := rfl

@[simp] theorem hardware_push (p : Party) (m : Msg) : (s.push p m).hardware = s.hardware := rfl

@[simp] theorem closing_push (p : Party) (m : Msg) : (s.push p m).closing = s.closing := rfl

@[simp] theorem queue_pop (p : Party) (m : Msg) (rest : List Msg) :
    (s.pop p m rest).queue = Function.update s.queue p ⟨(s.queue p).popped ++ [m], rest⟩ := rfl

@[simp] theorem atm_pop (p : Party) (m : Msg) (rest : List Msg) :
    (s.pop p m rest).atm = s.atm := rfl

@[simp] theorem bank_pop (p : Party) (m : Msg) (rest : List Msg) :
    (s.pop p m rest).bank = s.bank := rfl

@[simp] theorem hardware_pop (p : Party) (m : Msg) (rest : List Msg) :
    (s.pop p m rest).hardware = s.hardware := rfl

@[simp] theorem closing_pop (p : Party) (m : Msg) (rest : List Msg) :
    (s.pop p m rest).closing = s.closing := rfl

end System

theorem fromUser_of_key {c : Char} {m : Msg} (h : key c = some m) : m.fromUser = true := by
  unfold key at h
  split at h <;> cases h <;> rfl

end Sundries.ATM
