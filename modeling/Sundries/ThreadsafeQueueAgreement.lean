import Sundries.AtomicObject
import Sundries.ThreadsafeQueueCalls

/-!
# `threadsafe_queue_old` and `threadsafe_queue`

The queue with one lock keeps shared pointers to its elements in a `std::queue`; that with a
dummy node is to do the same with a lock for each end.  One thread calls their member functions
one after the other, and nothing throws.

`threadsafe_queue_old::try_pop(T&)` has no `return true` after its `_data.pop()`.  A call of it
that takes an element gives its caller any boolean: here the one that comes with the call.
`agree_iff` says that this is the only way in which the two classes differ.
-/
namespace Sundries.ThreadsafeQueueAgreement
open ThreadsafeQueueCalls

variable {α : Type}

/-! ## `threadsafe_queue_old` -/

/-- `_data`, first element first: shared pointers, null or to a value. -/
abbrev OldQueue (α : Type) : Type := List (Option α)

namespace OldQueue

/-- `push` makes a shared pointer of its argument. -/
def push (v : α) (data : OldQueue α) : OldQueue α × Result α := (data ++ [some v], .pushed)

def tryPop : OldQueue α → OldQueue α × Result α
  | [] => ([], .pointer none)
  | ptr :: data => (data, .pointer ptr)

/-- `try_pop(T&)`, which falls off its end with the boolean `stray`; nothing where a null
pointer is followed. -/
def tryPopRef (stray : Bool) : OldQueue α → Option (OldQueue α × Result α)
  | [] => some ([], .tried none false)
  | ptr :: data => do
    let v ← ptr
    return (data, .tried (some v) stray)

/-- `wait_and_pop()`; nothing where it waits. -/
def waitAndPop : OldQueue α → Option (OldQueue α × Result α)
  | [] => none
  | ptr :: data => some (data, .pointer ptr)

def waitAndPopRef : OldQueue α → Option (OldQueue α × Result α)
  | [] => none
  | ptr :: data => do
    let v ← ptr
    return (data, .assigned (some v))

end OldQueue

/-- `threadsafe_queue_old` as an object; each call comes with the boolean that a path without
`return` gives. -/
def oldQueue : SequentialObject (OldQueue α) (Call α × Bool) (Result α) where
  init := []
  apply data
    | (.push v, _) => some (OldQueue.push v data)
    | (.tryPop, _) => some (OldQueue.tryPop data)
    | (.tryPopRef, stray) => OldQueue.tryPopRef stray data
    | (.waitAndPop, _) => OldQueue.waitAndPop data
    | (.waitAndPopRef, _) => OldQueue.waitAndPopRef data

/-- `threadsafe_queue` as an object, where nothing throws. -/
def newQueue : SequentialObject (Queue α) (Call α) (Result α) where
  init := .empty
  apply q c :=
    match run c (fun _ => false) q with
    | .returned r q' => some (q', r)
    | .thrown _ _ => none
    | .stuck => none

/-! ## Sequences of calls -/

/-- The elements in a queue after the calls. -/
def contents (calls : List (Call α)) : List α := calls.foldl after []

/-- `P` holds of every call and the elements that it finds, in the calls `calls` on a queue with
the elements `vs`. -/
def EachFrom (P : List α → Call α → Prop) (vs : List α) (calls : List (Call α)) : Prop :=
  ∀ before c rest, calls = before ++ c :: rest → P (before.foldl after vs) c

/-- The calls that wait find an element. -/
def WaitsNonempty (calls : List (Call α)) : Prop :=
  ∀ before c rest, calls = before ++ c :: rest → c.waits = true → contents before ≠ []

/-- Every call of `try_pop(T&)` finds the queue empty. -/
def TryPopRefEmpty (calls : List (Call α)) : Prop :=
  ∀ before rest, calls = before ++ .tryPopRef :: rest → contents before = []

/-- The boolean is that an element was taken out. -/
def Truthful (r : Result α) : Prop := ∀ v b, r = .tried v b → (b = true ↔ v ≠ none)

/-- From these queues on, the calls give the same results on both, whatever the booleans of
paths without `return`, and the booleans of `try_pop(T&)` say whether an element was taken. -/
def AgreeFrom (data : OldQueue α) (q : Queue α) (calls : List (Call α)) : Prop :=
  ∀ oldCalls : List (Call α × Bool), oldCalls.map Prod.fst = calls →
    ∃ rs, oldQueue.answers data oldCalls = some rs ∧ newQueue.answers q calls = some rs ∧
      ∀ r ∈ rs, Truthful r

/-- The two classes agree on the calls, made on new queues. -/
def Agree (calls : List (Call α)) : Prop := AgreeFrom oldQueue.init newQueue.init calls

section EachFrom
variable {P : List α → Call α → Prop} {vs : List α} {c : Call α} {calls : List (Call α)}

theorem eachFrom_nil : EachFrom P vs [] := by
  intro before c rest h
  simp at h

theorem eachFrom_cons :
    EachFrom P vs (c :: calls) ↔ P vs c ∧ EachFrom P (after vs c) calls := by
  constructor
  · intro h
    refine ⟨h [] c calls rfl, fun before d rest hcalls => ?_⟩
    exact h (c :: before) d rest (by rw [hcalls]; rfl)
  · rintro ⟨hnow, hlater⟩ before d rest hcalls
    cases before with
    | nil =>
      obtain ⟨rfl, -⟩ := List.cons.inj hcalls
      exact hnow
    | cons e before =>
      obtain ⟨rfl, htail⟩ := List.cons.inj hcalls
      exact hlater before d rest htail

end EachFrom

/-- A waiting call finds an element. -/
def FindsElement (vs : List α) (c : Call α) : Prop := c.waits = true → vs ≠ []

/-- A call of `try_pop(T&)` finds the queue empty. -/
def FindsNothing (vs : List α) (c : Call α) : Prop := c = .tryPopRef → vs = []

theorem tryPopRefEmpty_iff (calls : List (Call α)) :
    TryPopRefEmpty calls ↔ EachFrom FindsNothing [] calls := by
  constructor
  · rintro h before c rest hcalls rfl
    exact h before rest hcalls
  · intro h before rest hcalls
    exact h before .tryPopRef rest hcalls rfl

/-! ## One call -/

theorem answer_truthful (vs : List α) (c : Call α) : Truthful (answer vs c) := by
  intro v b h
  cases c with
  | tryPopRef =>
    cases h
    rw [Option.isSome_iff_ne_none]
  | _ => cases h

/-- `threadsafe_queue` answers as a FIFO queue. -/
theorem newQueue_apply {q : Queue α} {vs : List α} (h : q.Holds vs) {c : Call α}
    (hwaits : FindsElement vs c) :
    ∃ q', newQueue.apply q c = some (q', answer vs c) ∧ q'.Holds (after vs c) := by
  rcases run_cases h c (fun _ => false) with ⟨q', hrun, hq'⟩ | ⟨p, -, p', hplan⟩ | ⟨-, hw, hvs⟩
  · refine ⟨q', ?_, hq'⟩
    simp only [newQueue, hrun]
  · cases hplan
  · exact absurd hvs (hwaits hw)

/-- `threadsafe_queue_old` does so where the call does not take the path without `return`. -/
theorem oldQueue_apply {vs : List α} {c : Call α} (stray : Bool) (hwaits : FindsElement vs c) :
    ∃ r, oldQueue.apply (vs.map some) (c, stray) = some ((after vs c).map some, r) ∧
      (FindsNothing vs c → r = answer vs c) := by
  cases c with
  | push v => exact ⟨.pushed, by simp [oldQueue, OldQueue.push, after], fun _ => rfl⟩
  | tryPop =>
    cases vs with
    | nil => exact ⟨_, rfl, fun _ => rfl⟩
    | cons v vs => exact ⟨_, rfl, fun _ => rfl⟩
  | tryPopRef =>
    cases vs with
    | nil => exact ⟨_, rfl, fun _ => rfl⟩
    | cons v vs => exact ⟨_, rfl, fun h => nomatch h rfl⟩
  | waitAndPop =>
    cases vs with
    | nil => exact absurd rfl (hwaits rfl)
    | cons v vs => exact ⟨_, rfl, fun _ => rfl⟩
  | waitAndPopRef =>
    cases vs with
    | nil => exact absurd rfl (hwaits rfl)
    | cons v vs => exact ⟨_, rfl, fun _ => rfl⟩

/-- Where `try_pop(T&)` takes an element, `false` may come with it. -/
theorem oldQueue_tryPopRef (v : α) (vs : List α) :
    oldQueue.apply ((v :: vs).map some) (.tryPopRef, false) =
      some (vs.map some, .tried (some v) false) := rfl

/-! ## When the two classes agree -/

/-- On new queues, and after any calls with these elements, the classes agree on further calls
if and only if none of these takes the path without `return`. -/
theorem agreeFrom_iff {q : Queue α} {vs : List α} {calls : List (Call α)} (h : q.Holds vs)
    (hwaits : EachFrom FindsElement vs calls) :
    AgreeFrom (vs.map some) q calls ↔ EachFrom FindsNothing vs calls := by
  induction calls generalizing q vs with
  | nil =>
    refine iff_of_true (fun oldCalls hold => ?_) eachFrom_nil
    obtain rfl := List.map_eq_nil_iff.mp hold
    exact ⟨[], rfl, rfl, fun r hr => nomatch hr⟩
  | cons c calls ih =>
    obtain ⟨hwait, hwaits⟩ := eachFrom_cons.mp hwaits
    obtain ⟨q', hnew, hq'⟩ := newQueue_apply h hwait
    rw [eachFrom_cons, ← ih hq' hwaits]
    constructor
    · intro hagree
      constructor
      · rintro rfl
        by_contra hne
        obtain ⟨v, vs, rfl⟩ := List.exists_cons_of_ne_nil hne
        -- the call that takes `v` may answer `false`
        obtain ⟨rs, hrs, -, htrue⟩ := hagree ((.tryPopRef, false) :: calls.map (·, false))
          (by simp [Function.comp_def])
        rw [SequentialObject.answers_cons (oldQueue_tryPopRef v vs), Option.map_eq_some_iff] at hrs
        obtain ⟨rs', -, rfl⟩ := hrs
        exact nomatch (htrue _ List.mem_cons_self _ _ rfl).mpr nofun
      · intro oldCalls hold
        obtain ⟨rs, hrs, hnrs, htrue⟩ := hagree ((c, false) :: oldCalls) (by rw [← hold]; rfl)
        obtain ⟨r, hr, -⟩ := oldQueue_apply false hwait
        rw [SequentialObject.answers_cons hr, Option.map_eq_some_iff] at hrs
        rw [SequentialObject.answers_cons hnew, Option.map_eq_some_iff] at hnrs
        obtain ⟨rs', hrs', rfl⟩ := hrs
        obtain ⟨rs'', hnrs', heq⟩ := hnrs
        obtain ⟨-, rfl⟩ := List.cons.inj heq
        exact ⟨rs'', hrs', hnrs', fun r hr => htrue r (List.mem_cons_of_mem _ hr)⟩
    · rintro ⟨hnow, hlater⟩ oldCalls hold
      obtain ⟨⟨d, stray⟩, oldCalls, rfl, hd, hold'⟩ := List.map_eq_cons_iff.mp hold
      obtain rfl : d = c := hd
      obtain ⟨rs, hrs, hnrs, htrue⟩ := hlater oldCalls hold'
      obtain ⟨r, hr, hanswer⟩ := oldQueue_apply stray hwait
      obtain rfl := hanswer hnow
      refine ⟨answer vs d :: rs, ?_, ?_, fun r' hr' => ?_⟩
      · rw [SequentialObject.answers_cons hr, hrs, Option.map_some]
      · rw [SequentialObject.answers_cons hnew, hnrs, Option.map_some]
      · rcases List.mem_cons.mp hr' with rfl | hr'
        · exact answer_truthful vs d
        · exact htrue r' hr'

/-- **When the two classes agree.**  On every sequence of calls in which the waiting ones find
an element they give the same results, if and only if `try_pop(T&)` finds the queue empty each
time. -/
theorem agree_iff (calls : List (Call α)) (hwaits : WaitsNonempty calls) :
    Agree calls ↔ TryPopRefEmpty calls := by
  have hempty : (Queue.empty : Queue α).Holds [] := holds_empty
  rw [tryPopRefEmpty_iff]
  exact agreeFrom_iff hempty hwaits

/-- A push and a pop, and then `try_pop(T&)`. -/
theorem emptiedQueue_agree : WaitsNonempty [.push 7, .waitAndPop, .tryPopRef] ∧
    TryPopRefEmpty [.push 7, .waitAndPop, .tryPopRef] ∧
    Agree [.push 7, .waitAndPop, .tryPopRef] := by
  have hwaits : WaitsNonempty [.push 7, .waitAndPop, .tryPopRef] := by
    have heach : EachFrom FindsElement [] [.push 7, .waitAndPop, .tryPopRef] :=
      eachFrom_cons.mpr ⟨nofun, eachFrom_cons.mpr ⟨nofun, eachFrom_cons.mpr ⟨nofun, eachFrom_nil⟩⟩⟩
    exact heach
  have hempty : TryPopRefEmpty [.push 7, .waitAndPop, .tryPopRef] := by
    have heach : EachFrom FindsNothing [] [.push 7, .waitAndPop, .tryPopRef] :=
      eachFrom_cons.mpr ⟨nofun, eachFrom_cons.mpr ⟨nofun,
        eachFrom_cons.mpr ⟨fun _ => rfl, eachFrom_nil⟩⟩⟩
    exact (tryPopRefEmpty_iff _).mpr heach
  exact ⟨hwaits, hempty, (agree_iff _ hwaits).mpr hempty⟩

/-- `try_pop(T&)` takes the element that was pushed, and may return `false`. -/
theorem pushTryPopRef_not_agree : WaitsNonempty [.push 7, .tryPopRef] ∧
    ¬ Agree [.push 7, .tryPopRef] := by
  constructor
  · have heach : EachFrom FindsElement [] [.push 7, .tryPopRef] :=
      eachFrom_cons.mpr ⟨nofun, eachFrom_cons.mpr ⟨nofun, eachFrom_nil⟩⟩
    exact heach
  · intro h
    obtain ⟨rs, hold, hnew, -⟩ := h [(.push 7, false), (.tryPopRef, false)] rfl
    cases hold
    cases hnew

end Sundries.ThreadsafeQueueAgreement
