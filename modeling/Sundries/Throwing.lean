import Mathlib.Logic.Basic

/-!
# Programs that may throw

A program of type `Throwing P S A` runs on a state `S` and returns an `A`, or throws, or is
stuck, by undefined behaviour or because it would wait for ever.  Its throw points have names
`P`, and a `plan` says which of them throw in a run; so a statement about all plans is one
about an exception at any point.  What the state is when an exception leaves the program is
part of the outcome.

`holding` is a block that holds a resource, which is released however the block is left.
`Triple plan pre m post exc` is the rule of pre- and postconditions with a further
postcondition `exc` for exceptions; it also says that `m` is not stuck.
-/
namespace Sundries

/-- How a run ends: with a value, with the exception of a throw point, or not at all. -/
inductive Outcome (P S A : Type) where
  | returned (a : A) (s : S)
  | thrown (p : P) (s : S)
  | stuck

/-- A program on states `S` with throw points `P`. -/
def Throwing (P S A : Type) : Type := (P → Bool) → S → Outcome P S A

namespace Throwing
variable {P S A B : Type}

/-- `k` goes on where `m` returns. -/
def andThen (m : Throwing P S A) (k : A → Throwing P S B) : Throwing P S B := fun plan s =>
  match m plan s with
  | .returned a s' => k a plan s'
  | .thrown p s' => .thrown p s'
  | .stuck => .stuck

instance : Monad (Throwing P S) where
  pure a := fun _ s => .returned a s
  bind := andThen

/-- A throw point. -/
def point (p : P) : Throwing P S Unit := fun plan s =>
  if plan p then .thrown p s else .returned () s

/-- An access to the state that does not throw; nothing where it is undefined, or waits. -/
def access (f : S → Option (A × S)) : Throwing P S A := fun _ s =>
  match f s with
  | some (a, s') => .returned a s'
  | none => .stuck

/-- A block that begins by acquiring a resource, if it can, and releases it on every exit. -/
def holding (acquire : S → Option S) (release : S → S) (body : Throwing P S A) :
    Throwing P S A := fun plan s =>
  match acquire s with
  | none => .stuck
  | some s' =>
    match body plan s' with
    | .returned a s'' => .returned a (release s'')
    | .thrown p s'' => .thrown p (release s'')
    | .stuck => .stuck

/-! ## Pre- and postconditions -/

/-- From a state with `pre`, and with this plan, `m` returns with `post` or throws with `exc`. -/
def Triple (plan : P → Bool) (pre : S → Prop) (m : Throwing P S A) (post : A → S → Prop)
    (exc : S → Prop) : Prop :=
  ∀ s, pre s →
    match m plan s with
    | .returned a s' => post a s'
    | .thrown _ s' => exc s'
    | .stuck => False

variable {plan : P → Bool} {pre : S → Prop} {m : Throwing P S A} {post : A → S → Prop}
  {exc : S → Prop}

namespace Triple

theorem pure {a : A} (h : ∀ s, pre s → post a s) :
    Triple plan pre (pure a : Throwing P S A) post exc := by
  intro s hs
  exact h s hs

/-- A throw point changes nothing, and throws only if that is planned. -/
theorem point {p : P} {post : Unit → S → Prop} (hpost : ∀ s, pre s → post () s)
    (hexc : ∀ s, pre s → plan p = true → exc s) :
    Triple plan pre (Throwing.point p) post exc := by
  intro s hs
  unfold Throwing.point
  cases hp : plan p with
  | true => exact hexc s hs hp
  | false => exact hpost s hs

theorem access {f : S → Option (A × S)}
    (h : ∀ s, pre s → ∃ a s', f s = some (a, s') ∧ post a s') :
    Triple plan pre (Throwing.access f) post exc := by
  intro s hs
  obtain ⟨a, s', hf, hpost⟩ := h s hs
  unfold Throwing.access
  rw [hf]
  exact hpost

/-- An access to a given state. -/
theorem access_eq {f : S → Option (A × S)} {s s' : S} {a : A} (h : f s = some (a, s'))
    (hpost : post a s') : Triple plan (· = s) (Throwing.access f) post exc := by
  apply access
  rintro u rfl
  exact ⟨a, s', h, hpost⟩

theorem pure_eq {a : A} {s : S} (h : post a s) :
    Triple plan (· = s) (Pure.pure a : Throwing P S A) post exc := by
  apply pure
  rintro u rfl
  exact h

/-- **Sequencing.** -/
theorem bind {k : A → Throwing P S B} {mid : A → S → Prop} {post : B → S → Prop}
    (hm : Triple plan pre m mid exc) (hk : ∀ a, Triple plan (mid a) (k a) post exc) :
    Triple plan pre (m >>= k) post exc := by
  intro s hs
  have hfirst := hm s hs
  show match andThen m k plan s with
    | .returned a s' => post a s'
    | .thrown _ s' => exc s'
    | .stuck => False
  unfold andThen
  cases hrun : m plan s with
  | returned a s' =>
    rw [hrun] at hfirst
    exact hk a s' hfirst
  | thrown p s' =>
    rw [hrun] at hfirst
    exact hfirst
  | stuck =>
    rw [hrun] at hfirst
    exact hfirst.elim

/-- **A scope** releases its resource after a return and after an exception. -/
theorem holding {acquire : S → Option S} {release : S → S} {held : S → Prop}
    (hacquire : ∀ s, pre s → ∃ s', acquire s = some s' ∧ held s')
    (hbody : Triple plan held m (fun a s => post a (release s)) fun s => exc (release s)) :
    Triple plan pre (Throwing.holding acquire release m) post exc := by
  intro s hs
  obtain ⟨s', hacq, hheld⟩ := hacquire s hs
  have hend := hbody s' hheld
  unfold Throwing.holding
  rw [hacq]
  cases hrun : m plan s' with
  | returned a s'' =>
    simp only [hrun] at hend ⊢
    exact hend
  | thrown p s'' =>
    simp only [hrun] at hend ⊢
    exact hend
  | stuck =>
    rw [hrun] at hend
    exact hend.elim

/-- The rule of consequence. -/
theorem consequence {pre' : S → Prop} {post' : A → S → Prop} {exc' : S → Prop}
    (h : Triple plan pre m post exc) (hpre : ∀ s, pre' s → pre s)
    (hpost : ∀ a s, post a s → post' a s) (hexc : ∀ s, exc s → exc' s) :
    Triple plan pre' m post' exc' := by
  intro s hs
  have hrun := h s (hpre s hs)
  split at hrun
  · exact hpost _ _ hrun
  · exact hexc _ hrun
  · exact hrun.elim

/-- A program that leaves one value and one state meets what these meet. -/
theorem lands {r : A} {s' : S} (h : Triple plan pre m (fun a s => a = r ∧ s = s') exc)
    (hpost : post r s') : Triple plan pre m post exc := by
  refine h.consequence (fun _ hs => hs) ?_ fun _ hs => hs
  rintro a s ⟨rfl, rfl⟩
  exact hpost

/-- Sequencing after such a program. -/
theorem seq {r : A} {s' : S} {k : A → Throwing P S B} {post : B → S → Prop}
    (h : Triple plan pre m (fun a s => a = r ∧ s = s') exc)
    (hk : Triple plan (· = s') (k r) post exc) : Triple plan pre (m >>= k) post exc := by
  refine h.bind fun a => ?_
  rintro s ⟨rfl, rfl⟩
  exact hk s rfl

/-- Where no exception is allowed, the program returns. -/
theorem returns (h : Triple plan pre m post fun _ => False) {s : S} (hs : pre s) :
    ∃ a s', m plan s = .returned a s' ∧ post a s' := by
  have hrun := h s hs
  split at hrun
  · exact ⟨_, _, ‹_›, hrun⟩
  · exact hrun.elim
  · exact hrun.elim

end Triple

/-! ## Single runs -/

theorem bind_returned {k : A → Throwing P S B} {s s' : S} {a : A}
    (h : m plan s = .returned a s') : (m >>= k) plan s = k a plan s' := by
  show andThen m k plan s = _
  rw [andThen, h]

theorem bind_stuck {k : A → Throwing P S B} {s : S} (h : m plan s = .stuck) :
    (m >>= k) plan s = .stuck := by
  show andThen m k plan s = _
  rw [andThen, h]

theorem holding_stuck {acquire : S → Option S} {release : S → S} {s s' : S}
    (hacquire : acquire s = some s') (h : m plan s' = .stuck) :
    holding acquire release m plan s = .stuck := by
  simp only [holding, hacquire, h]

end Throwing
end Sundries
