import Mathlib.Data.BitVec
import Sundries.Machine

/-!
# `GumballMachine` and its states

The machine keeps a count and a pointer to one of four state objects.  Its public
functions hand the call to the current state object, which may set another one and,
in `dispense`, call back `releaseBall`.  The state objects have no data of their own,
so a state object is its class.

The count is an `unsigned` of `w` bits.  `out` are the lines written to `std::cout`,
in order; `released` keeps account of the calls of `releaseBall`: the values `_count`
had when they were made.

`refill` sets `NoQuarterState` in a sold-out machine whatever the new count is, and in
the other states it lets the count wrap around to zero.  Where every call of `refill`
leaves balls in the machine, `SoldOutState` says that there are none, and conversely
(`agrees_iff_refillsStock`).  No quarter is lost in any run (`quarters_conserved`).
-/
namespace Sundries

/-- The classes derived from `State`. -/
inductive GumballMachine.State where
  | noQuarterState
  | soldState
  | soldOutState
  | hasQuarterState
  deriving DecidableEq

/-- The machine, what it has written, and the counts at its calls of `releaseBall`. -/
structure GumballMachine (w : Nat) where
  state : GumballMachine.State
  count : BitVec w
  out : List String
  released : List (BitVec w)
  deriving DecidableEq

namespace GumballMachine
variable {w : Nat}

def setState (m : GumballMachine w) (state : State) : GumballMachine w :=
  { m with state := state }

/-- `std::cout << line << std::endl`. -/
def print (m : GumballMachine w) (line : String) : GumballMachine w :=
  { m with out := m.out ++ [line] }

def getCount (m : GumballMachine w) : BitVec w := m.count

/-- What `releaseBall` writes. -/
def rollingOut : String := "A gumball comes rolling out the slot..."

def releaseBall (m : GumballMachine w) : GumballMachine w :=
  { m.print rollingOut with
    count := if m.count ≠ 0 then m.count - 1 else m.count
    released := m.released ++ [m.count] }

namespace State

def insertQuarter : State → GumballMachine w → GumballMachine w
  | noQuarterState, m => (m.print "You inserted a quarter").setState hasQuarterState
  | soldState, m => m.print "Please wait, we're already giving you a gumball"
  | soldOutState, m => m.print "You can't insert a quarter, the machine is sold out"
  | hasQuarterState, m => m.print "You can’t insert another quarter"

def ejectQuarter : State → GumballMachine w → GumballMachine w
  | noQuarterState, m => m.print "You haven’t inserted a quarter"
  | soldState, m => m.print "Sorry, you already turned the crank"
  | soldOutState, m => m.print "You can't eject, you haven't inserted a quarter yet"
  | hasQuarterState, m => (m.print "Quarter returned").setState noQuarterState

def turnCrank : State → GumballMachine w → GumballMachine w
  | noQuarterState, m => m.print "You turned, but there’s no quarter"
  | soldState, m => m.print "Turning twice doesn't get you another gumball!"
  | soldOutState, m => m.print "You turned, but there are no gumballs"
  | hasQuarterState, m => (m.print "You turned...").setState soldState

def dispense : State → GumballMachine w → GumballMachine w
  | noQuarterState, m => m.print "You need to pay first"
  | soldState, m =>
    let m := m.releaseBall
    if m.getCount > 0 then m.setState noQuarterState
    else (m.print "Oops, out of gumballs!").setState soldOutState
  | soldOutState, m => m.print "No gumball dispensed"
  | hasQuarterState, m => m.print "No gumball dispensed"

def refill : State → GumballMachine w → GumballMachine w
  | soldOutState, m => m.setState noQuarterState
  | noQuarterState, m | soldState, m | hasQuarterState, m => m

end State

/-- `initialize(balls)` on a new machine. -/
def initializeWith (balls : BitVec w) : GumballMachine w where
  state := if balls > 0 then .noQuarterState else .soldOutState
  count := balls
  out := []
  released := []

def insertQuarter (m : GumballMachine w) : GumballMachine w := m.state.insertQuarter m

def ejectQuarter (m : GumballMachine w) : GumballMachine w := m.state.ejectQuarter m

def turnCrank (m : GumballMachine w) : GumballMachine w :=
  let m := m.state.turnCrank m
  m.state.dispense m

def refill (m : GumballMachine w) (count : BitVec w) : GumballMachine w :=
  let m := { m with count := m.count + count }
  let m := m.print ("The gumball machine was just refilled; it's new count is: " ++
    toString m.count.toNat)
  m.state.refill m

/-- The calls that follow `initialize`. -/
inductive Call (w : Nat) where
  | insertQuarter
  | ejectQuarter
  | turnCrank
  | refill (count : BitVec w)
  deriving DecidableEq

def call (m : GumballMachine w) : Call w → GumballMachine w
  | .insertQuarter => m.insertQuarter
  | .ejectQuarter => m.ejectQuarter
  | .turnCrank => m.turnCrank
  | .refill count => m.refill count

/-- A machine filled with `balls` balls; every call is possible at any time. -/
def machine (balls : BitVec w) : Machine (GumballMachine w) (Call w) where
  init := initializeWith balls
  step m c := some (m.call c)

/-! ## What a call does -/

/-- What a call can do to a machine that is not in `SoldState`. -/
inductive Effect (m m' : GumballMachine w) : Call w → Prop where
  /-- Nothing but a line is written. -/
  | refused {c : Call w} (enter : c = .insertQuarter → m.state ≠ .noQuarterState)
      (leave : c = .ejectQuarter → m.state ≠ .hasQuarterState) (refill : ∀ k, c ≠ .refill k)
      (state : m'.state = m.state) (count : m'.count = m.count)
      (released : m'.released = m.released) : Effect m m' c
  | inserted (before : m.state = .noQuarterState) (after : m'.state = .hasQuarterState)
      (count : m'.count = m.count) (released : m'.released = m.released) :
      Effect m m' .insertQuarter
  | ejected (before : m.state = .hasQuarterState) (after : m'.state = .noQuarterState)
      (count : m'.count = m.count) (released : m'.released = m.released) :
      Effect m m' .ejectQuarter
  /-- `releaseBall` has run. -/
  | sold (before : m.state = .hasQuarterState)
      (after : m'.state = if m'.count = 0 then .soldOutState else .noQuarterState)
      (released : m'.released = m.released ++ [m.count]) : Effect m m' .turnCrank
  | refilled (k : BitVec w)
      (after : m'.state = if m.state = .soldOutState then .noQuarterState else m.state)
      (count : m'.count = m.count + k) (released : m'.released = m.released) :
      Effect m m' (.refill k)

section Calls
variable {m : GumballMachine w}

section Fields
variable (m : GumballMachine w) (state : State) (line : String)

@[simp] theorem setState_state : (m.setState state).state = state := rfl
@[simp] theorem setState_count : (m.setState state).count = m.count := rfl
@[simp] theorem setState_released : (m.setState state).released = m.released := rfl
@[simp] theorem print_state : (m.print line).state = m.state := rfl
@[simp] theorem print_count : (m.print line).count = m.count := rfl
@[simp] theorem print_released : (m.print line).released = m.released := rfl
@[simp] theorem releaseBall_released : m.releaseBall.released = m.released ++ [m.count] := rfl

end Fields

theorem pos_iff_ne_zero (k : BitVec w) : k > 0 ↔ k ≠ 0 := by
  rw [gt_iff_lt, BitVec.lt_def, BitVec.toNat_ne]
  simp [Nat.pos_iff_ne_zero]

/-- `SoldState::dispense`. -/
theorem dispense_soldState (m : GumballMachine w) :
    (State.soldState.dispense m).released = m.released ++ [m.count] ∧
      (State.soldState.dispense m).state =
        if (State.soldState.dispense m).count = 0 then .soldOutState else .noQuarterState := by
  simp only [State.dispense, pos_iff_ne_zero, getCount]
  by_cases hc : m.releaseBall.count = 0#w
  · simp [hc]
  · simp [hc]

/-- **What a call does.**  Between public calls the machine is not in `SoldState`, and each
class refuses what it has no use for. -/
theorem call_effect (hm : m.state ≠ .soldState) (c : Call w) : Effect m (m.call c) c := by
  cases c with
  | insertQuarter =>
    cases hs : m.state with
    | soldState => exact absurd hs hm
    | noQuarterState =>
      exact .inserted hs (by simp [call, insertQuarter, State.insertQuarter, hs])
        (by simp [call, insertQuarter, State.insertQuarter, hs])
        (by simp [call, insertQuarter, State.insertQuarter, hs])
    | soldOutState | hasQuarterState =>
      exact .refused (by simp [hs]) nofun nofun
        (by simp [call, insertQuarter, State.insertQuarter, hs])
        (by simp [call, insertQuarter, State.insertQuarter, hs])
        (by simp [call, insertQuarter, State.insertQuarter, hs])
  | ejectQuarter =>
    cases hs : m.state with
    | soldState => exact absurd hs hm
    | hasQuarterState =>
      exact .ejected hs (by simp [call, ejectQuarter, State.ejectQuarter, hs])
        (by simp [call, ejectQuarter, State.ejectQuarter, hs])
        (by simp [call, ejectQuarter, State.ejectQuarter, hs])
    | noQuarterState | soldOutState =>
      exact .refused nofun (by simp [hs]) nofun
        (by simp [call, ejectQuarter, State.ejectQuarter, hs])
        (by simp [call, ejectQuarter, State.ejectQuarter, hs])
        (by simp [call, ejectQuarter, State.ejectQuarter, hs])
  | turnCrank =>
    cases hs : m.state with
    | soldState => exact absurd hs hm
    | hasQuarterState =>
      -- `dispense` is called in `SoldState`, which `turnCrank` of the state has just set
      have hcall : m.call .turnCrank =
          State.soldState.dispense ((m.print "You turned...").setState .soldState) := by
        rw [call, turnCrank, hs]
        rfl
      obtain ⟨hreleased, hstate⟩ :=
        dispense_soldState ((m.print "You turned...").setState .soldState)
      rw [hcall]
      exact .sold hs hstate hreleased
    | noQuarterState | soldOutState =>
      exact .refused nofun nofun nofun
        (by simp [call, turnCrank, State.turnCrank, State.dispense, hs])
        (by simp [call, turnCrank, State.turnCrank, State.dispense, hs])
        (by simp [call, turnCrank, State.turnCrank, State.dispense, hs])
  | refill k =>
    refine .refilled k ?_ ?_ ?_
    · cases hs : m.state <;> simp [call, refill, State.refill, hs]
    · cases hs : m.state <;> simp [call, refill, State.refill, hs]
    · cases hs : m.state <;> simp [call, refill, State.refill, hs]

/-- Between public calls the machine is never in `SoldState`. -/
theorem call_ne_soldState (hm : m.state ≠ .soldState) (c : Call w) :
    (m.call c).state ≠ .soldState := by
  cases call_effect hm c with
  | refused _ _ _ state => rwa [state]
  | inserted _ after | ejected _ after => simp [after]
  | sold _ after =>
    rw [after]
    split <;> simp
  | refilled k after =>
    rw [after]
    split
    · simp
    · exact hm

theorem initializeWith_ne_soldState (n : BitVec w) : (initializeWith n).state ≠ .soldState := by
  unfold initializeWith
  split <;> simp

/-- Every sequence of calls can be made. -/
theorem run_eq_foldl (n : BitVec w) (m : GumballMachine w) (calls : List (Call w)) :
    (machine n).run m calls = some (calls.foldl call m) := by
  induction calls generalizing m with
  | nil => rfl
  | cons c calls ih => exact (machine n).run_cons_eq_some.mpr ⟨m.call c, rfl, ih (m.call c)⟩

end Calls

/-! ## The sold-out state and the count -/

/-- The machine is in `SoldOutState` exactly when it is empty. -/
def Agrees (m : GumballMachine w) : Prop := m.state = .soldOutState ↔ m.getCount = 0

instance (m : GumballMachine w) : Decidable m.Agrees := inferInstanceAs (Decidable (_ ↔ _))

/-- A call of `refill` leaves balls in the machine: the new count, modulo `2 ^ w`, is not
zero. -/
def RefillsStock (m : GumballMachine w) : Call w → Prop
  | .refill k => m.count.toNat + k.toNat ≠ 0 ∧ m.count.toNat + k.toNat ≠ 2 ^ w
  | _ => True

instance (m : GumballMachine w) : DecidablePred m.RefillsStock
  | .refill _ => inferInstanceAs (Decidable (_ ∧ _))
  | .insertQuarter | .ejectQuarter | .turnCrank => .isTrue trivial

theorem add_ne_zero_iff (c k : BitVec w) :
    c + k ≠ 0 ↔ c.toNat + k.toNat ≠ 0 ∧ c.toNat + k.toNat ≠ 2 ^ w := by
  have hc := c.isLt
  have hk := k.isLt
  rw [BitVec.toNat_ne, BitVec.toNat_add]
  simp only [BitVec.ofNat_eq_ofNat, BitVec.toNat_ofNat, Nat.zero_mod]
  rcases Nat.lt_or_ge (c.toNat + k.toNat) (2 ^ w) with hlt | hge
  · rw [Nat.mod_eq_of_lt hlt]
    omega
  · rw [Nat.mod_eq_sub_mod hge, Nat.mod_eq_of_lt (by omega)]
    omega

/-- State and count agree, no ball has been released from an empty machine, and the machine
is not in the middle of a call. -/
structure Stocked (m : GumballMachine w) : Prop where
  agrees : m.Agrees
  released : ∀ c ∈ m.released, c ≠ 0
  between : m.state ≠ .soldState

/-- **One call** keeps state and count in agreement if and only if it is no `refill` that
leaves the machine empty. -/
theorem stocked_call_iff {m : GumballMachine w} (h : m.Stocked) (c : Call w) :
    (m.call c).Stocked ↔ m.RefillsStock c := by
  have hbetween := call_ne_soldState h.between c
  obtain ⟨hagrees, hreleased, hsold⟩ := h
  unfold Agrees getCount at hagrees
  cases call_effect hsold c with
  | refused enter leave refill state count released =>
    have hstocked : (m.call c).Stocked :=
      ⟨by rw [Agrees, getCount, state, count]; exact hagrees, by rwa [released], hbetween⟩
    cases c with
    | refill k => exact absurd rfl (refill k)
    | _ => exact iff_of_true hstocked trivial
  | inserted before after count released =>
    refine iff_of_true ⟨?_, by rwa [released], hbetween⟩ trivial
    rw [Agrees, getCount, after, count, ← hagrees, before]
    simp
  | ejected before after count released =>
    refine iff_of_true ⟨?_, by rwa [released], hbetween⟩ trivial
    rw [Agrees, getCount, after, count, ← hagrees, before]
    simp
  | sold before after released =>
    refine iff_of_true ⟨?_, ?_, hbetween⟩ trivial
    · rw [Agrees, getCount, after]
      split <;> simp_all
    · -- a quarter is held, so there are balls
      have hstock : m.count ≠ 0 := by
        rw [ne_eq, ← hagrees, before]
        simp
      rw [released]
      intro c hc
      rcases List.mem_append.mp hc with hold | hnew
      · exact hreleased c hold
      · rwa [List.mem_singleton.mp hnew]
  | refilled k after count released =>
    have hstate : (m.call (.refill k)).state ≠ .soldOutState := by
      rw [after]
      split <;> simp_all
    calc (m.call (.refill k)).Stocked
        ↔ (m.call (.refill k)).Agrees :=
          ⟨Stocked.agrees, fun h => ⟨h, by rwa [released], hbetween⟩⟩
      _ ↔ m.count + k ≠ 0 := by rw [Agrees, getCount, count, iff_false_left hstate]
      _ ↔ m.RefillsStock (.refill k) := add_ne_zero_iff m.count k

theorem stocked_initializeWith (n : BitVec w) : (initializeWith n).Stocked := by
  refine ⟨?_, nofun, initializeWith_ne_soldState n⟩
  simp only [Agrees, getCount, initializeWith, pos_iff_ne_zero]
  by_cases hn : n = 0#w <;> simp [hn]

/-- **State and count.**  After `initialize(n)` and any calls, the state has been
`SoldOutState` exactly when the count was zero after every call, and no ball has been
released from an empty machine, if and only if every `refill` left balls in the machine. -/
theorem agrees_iff_refillsStock (n : BitVec w) (calls : List (Call w)) :
    (∀ before m, before <+: calls → (machine n).run (initializeWith n) before = some m →
        m.Agrees ∧ ∀ c ∈ m.released, c ≠ 0) ↔
      (machine n).RunMeets RefillsStock (initializeWith n) calls := by
  rw [← Machine.runMeets_iff (M := machine n) (P := Stocked) ?_ (stocked_initializeWith n)
    (run_eq_foldl n _ calls)]
  · refine ⟨fun h before m hpre hm => ?_, fun h before m hpre hm => ?_⟩
    · have hbetween : m.state ≠ .soldState :=
        Machine.Reachable.invariant (M := machine n) (P := fun m => m.state ≠ .soldState)
          (initializeWith_ne_soldState n)
          (fun m c m' hs hstep => by cases hstep; exact call_ne_soldState hs c)
          (Machine.reachable_of_run before hm)
      exact ⟨(h before m hpre hm).1, (h before m hpre hm).2, hbetween⟩
    · exact ⟨(h before m hpre hm).agrees, (h before m hpre hm).released⟩
  · intro m c m' hm hstep
    cases hstep
    exact stocked_call_iff hm c

/-- A sold-out machine that is refilled with nothing takes a quarter for no ball. -/
theorem refillNothing_disagrees :
    ¬ ∀ before m, before <+: [.refill 0, .insertQuarter, .turnCrank] →
      (machine (0 : BitVec 32)).run (initializeWith 0) before = some m →
        m.Agrees ∧ ∀ c ∈ m.released, c ≠ 0 := by
  intro h
  have := h [.refill 0] _ (by decide) rfl
  exact absurd this.1 (by decide)

/-! ## Quarters -/

/-- How many of the calls are `c` and move the machine from the state `before` to the state
`after`. -/
def moves (c : Call w) (before after : State) : GumballMachine w → List (Call w) → Nat
  | _, [] => 0
  | m, d :: calls =>
    (if d = c ∧ m.state = before ∧ (m.call d).state = after then 1 else 0) +
      moves c before after (m.call d) calls

theorem moves_cons (c d : Call w) (before after : State) (m : GumballMachine w)
    (calls : List (Call w)) :
    moves c before after m (d :: calls) =
      moves c before after m [d] + moves c before after (m.call d) calls := rfl

/-- The quarters in the machine that buy no ball yet. -/
def held (m : GumballMachine w) : Nat := if m.state = .hasQuarterState then 1 else 0

/-- The quarters that come in. -/
abbrev inserts (m : GumballMachine w) (calls : List (Call w)) : Nat :=
  moves .insertQuarter .noQuarterState .hasQuarterState m calls

/-- The quarters that go back. -/
abbrev ejects (m : GumballMachine w) (calls : List (Call w)) : Nat :=
  moves .ejectQuarter .hasQuarterState .noQuarterState m calls

/-- One call exchanges a quarter for a state or a ball. -/
theorem call_quarters {m : GumballMachine w} (hm : m.state ≠ .soldState) (c : Call w) :
    inserts m [c] + m.released.length + m.held =
      ejects m [c] + (m.call c).released.length + (m.call c).held := by
  have hne := call_ne_soldState hm c
  simp only [moves, held, Nat.add_zero]
  cases call_effect hm c with
  | refused enter leave refill state count released =>
    have henter : ¬ (c = .insertQuarter ∧ m.state = .noQuarterState ∧
        (m.call c).state = .hasQuarterState) := fun h => enter h.1 h.2.1
    have hleave : ¬ (c = .ejectQuarter ∧ m.state = .hasQuarterState ∧
        (m.call c).state = .noQuarterState) := fun h => leave h.1 h.2.1
    rw [if_neg henter, if_neg hleave, state, released]
  | inserted before after count released =>
    simp only [before, after, released]
    simp
    omega
  | ejected before after count released =>
    simp only [before, after, released]
    simp
    omega
  | sold before after released =>
    have hafter : (m.call .turnCrank).state ≠ .hasQuarterState := by
      rw [after]
      split <;> simp
    simp [before, hafter, released]
  | refilled k after count released =>
    have hafter : (m.call (.refill k)).state = .hasQuarterState ↔ m.state = .hasQuarterState := by
      rw [after]
      split <;> simp_all
    simp [hafter, released]

/-- **The quarters of a run.**  After `initialize(n)` and any calls, the quarters that came
in have gone back, have each bought a ball, or one of them is held; and no call leaves the
machine in `SoldState`. -/
theorem quarters_conserved (n : BitVec w) (calls : List (Call w)) :
    ∃ m, (machine n).run (initializeWith n) calls = some m ∧
      inserts (initializeWith n) calls =
        ejects (initializeWith n) calls + m.released.length + m.held ∧
      m.state ≠ .soldState := by
  suffices key : ∀ m : GumballMachine w, m.state ≠ .soldState →
      ∃ m', (machine n).run m calls = some m' ∧
        inserts m calls + m.released.length + m.held =
          ejects m calls + m'.released.length + m'.held ∧
        m'.state ≠ .soldState by
    obtain ⟨m, hrun, hledger, hm⟩ := key _ (initializeWith_ne_soldState n)
    have hstart : (initializeWith n).held = 0 := by
      unfold held initializeWith
      split <;> simp_all
    have hnone : (initializeWith n).released = [] := rfl
    rw [hstart, hnone] at hledger
    exact ⟨m, hrun, hledger, hm⟩
  induction calls with
  | nil => exact fun m hm => ⟨m, rfl, rfl, hm⟩
  | cons c calls ih =>
    intro m hm
    obtain ⟨m', hrun, hledger, hm'⟩ := ih (m.call c) (call_ne_soldState hm c)
    have hcall := call_quarters hm c
    refine ⟨m', (machine n).run_cons_eq_some.mpr ⟨m.call c, rfl, hrun⟩, ?_, hm'⟩
    simp only [inserts, ejects] at hcall hledger ⊢
    rw [moves_cons, moves_cons .ejectQuarter]
    omega

/-! ## What is written -/

/-- The calls of `releaseBall` are the lines that announce a ball. -/
def Announced (m : GumballMachine w) : Prop := m.out.count rollingOut = m.released.length

namespace Announced
variable {m : GumballMachine w}

theorem print (h : m.Announced) {line : String} (hline : line ≠ rollingOut) :
    (m.print line).Announced := by
  have hnot : rollingOut ∉ [line] := by simpa using Ne.symm hline
  unfold Announced GumballMachine.print
  rw [List.count_append, List.count_eq_zero_of_not_mem hnot]
  exact h

theorem setState (h : m.Announced) (state : State) : (m.setState state).Announced := h

theorem releaseBall (h : m.Announced) : m.releaseBall.Announced := by
  unfold Announced at h
  simp [Announced, GumballMachine.releaseBall, GumballMachine.print, h]

theorem insertQuarter (h : m.Announced) (state : State) :
    (state.insertQuarter m).Announced := by
  cases state <;> exact h.print (by decide)

theorem ejectQuarter (h : m.Announced) (state : State) : (state.ejectQuarter m).Announced := by
  cases state <;> exact h.print (by decide)

theorem turnCrank (h : m.Announced) (state : State) : (state.turnCrank m).Announced := by
  cases state <;> exact h.print (by decide)

theorem dispense (h : m.Announced) (state : State) : (state.dispense m).Announced := by
  cases state with
  | soldState =>
    simp only [State.dispense]
    split
    · exact h.releaseBall.setState _
    · exact (h.releaseBall.print (by decide)).setState _
  | noQuarterState | soldOutState | hasQuarterState => exact h.print (by decide)

/-- The line that `refill` writes begins otherwise. -/
theorem refill (h : m.Announced) (k : BitVec w) : (m.refill k).Announced := by
  have hline : ∀ x : String,
      "The gumball machine was just refilled; it's new count is: " ++ x ≠ rollingOut := by
    intro x hx
    have := congrArg String.toList hx
    simp [rollingOut] at this
  cases hs : m.state <;> simp only [GumballMachine.refill, State.refill, hs] <;>
    exact print (m := { m with count := m.count + k }) h (hline _)

theorem call (h : m.Announced) (c : Call w) : (m.call c).Announced := by
  cases c with
  | insertQuarter => exact h.insertQuarter m.state
  | ejectQuarter => exact h.ejectQuarter m.state
  | turnCrank => exact (h.turnCrank m.state).dispense _
  | refill k => exact h.refill k

end Announced

theorem reachable_announced (n : BitVec w) {m : GumballMachine w}
    (h : (machine n).Reachable m) : m.Announced := by
  refine h.invariant (P := Announced) ?_ ?_
  · simp [Announced, machine, initializeWith]
  · intro m c m' hm hstep
    cases hstep
    exact hm.call c

end GumballMachine
end Sundries
