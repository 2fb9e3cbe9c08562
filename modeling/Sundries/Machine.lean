import Mathlib.Data.List.Induction
import Mathlib.Logic.Relation

/-!
# Labelled machines, their runs, invariants and simulations

A concurrent program is given by its initial state and by a partial step
function: a label names the thread that moves and resolves every choice the
step leaves open (the address an allocation returns, the sleeper a notification
wakes), so a run is the list of its labels and can be evaluated.

`ReachableBy ok` collects the states of the runs all of whose steps meet the
condition `ok` on the state before the step and the label; `Reachable` is the
case without a condition.  Invariants are proved by `ReachableBy.invariant`.
`Simulation` relates a machine to a more abstract one whose labels are the
events the concrete steps show (`trace`).
-/
namespace Sundries

/-- A machine with states `S` whose steps are a partial function of the state
and of a label. -/
structure Machine (S L : Type*) where
  init : S
  step : S → L → Option S

namespace Machine
variable {S L : Type*} (M : Machine S L)

/-- The state the labels `ls` lead to from `s`, if each of them is enabled when
its turn comes. -/
def run : S → List L → Option S
  | s, [] => some s
  | s, l :: ls => (M.step s l).bind fun s' => run s' ls

@[simp] theorem run_nil (s : S) : M.run s [] = some s := rfl

@[simp] theorem run_singleton (s : S) (l : L) : M.run s [l] = M.step s l := by
  simp [run]

theorem run_cons_eq_some {s r : S} {l : L} {ls : List L} :
    M.run s (l :: ls) = some r ↔ ∃ s', M.step s l = some s' ∧ M.run s' ls = some r := by
  rw [run, Option.bind_eq_some_iff]

theorem run_append_eq_some {s r : S} {ls ls' : List L} :
    M.run s (ls ++ ls') = some r ↔ ∃ u, M.run s ls = some u ∧ M.run u ls' = some r := by
  induction ls generalizing s with
  | nil => simp
  | cons l ls ih =>
    simp only [List.cons_append, run_cons_eq_some, ih]
    constructor
    · rintro ⟨s', hs, u, hu, hr⟩
      exact ⟨u, ⟨s', hs, hu⟩, hr⟩
    · rintro ⟨u, ⟨s', hs, hu⟩, hr⟩
      exact ⟨s', hs, u, hu, hr⟩

theorem run_append {s u r : S} {ls ls' : List L} (h : M.run s ls = some u)
    (h' : M.run u ls' = some r) : M.run s (ls ++ ls') = some r :=
  M.run_append_eq_some.mpr ⟨u, h, h'⟩

/-- Induction over the runs from a state, the last step taken off. -/
theorem run_induction_from {s₀ : S} {P : List L → S → Prop} (initial : P [] s₀)
    (next : ∀ ls s l s', M.run s₀ ls = some s → P ls s → M.step s l = some s' → P (ls ++ [l]) s')
    {ls : List L} {s : S} (h : M.run s₀ ls = some s) : P ls s := by
  induction ls using List.reverseRecOn generalizing s with
  | nil =>
    cases h
    exact initial
  | append_singleton ls l ih =>
    obtain ⟨u, hu, hl⟩ := M.run_append_eq_some.mp h
    obtain ⟨s', hs, hr⟩ := M.run_cons_eq_some.mp hl
    cases hr
    exact next ls u l s hu (ih hu) hs

/-- Induction over the runs from the initial state. -/
theorem run_induction {P : List L → S → Prop} (initial : P [] M.init)
    (next : ∀ ls s l s', P ls s → M.step s l = some s' → P (ls ++ [l]) s') {ls : List L} {s : S}
    (h : M.run M.init ls = some s) : P ls s :=
  M.run_induction_from initial (fun ls s l s' _ => next ls s l s') h

/-- States of the runs all of whose steps meet `ok`. -/
inductive ReachableBy (ok : S → L → Prop) : S → Prop where
  | init : ReachableBy ok M.init
  | step {s s' : S} {l : L} (before : ReachableBy ok s) (meets : ok s l)
      (next : M.step s l = some s') : ReachableBy ok s'

/-- States of all runs. -/
def Reachable : S → Prop := M.ReachableBy fun _ _ => True

variable {M}

/-- **The invariant rule.**  What holds initially and is preserved by every step
that meets `ok` holds in every state such steps lead to. -/
theorem ReachableBy.invariant {ok : S → L → Prop} {P : S → Prop} (initial : P M.init)
    (preserved : ∀ s l s', P s → ok s l → M.step s l = some s' → P s') {s : S}
    (h : M.ReachableBy ok s) : P s := by
  induction h with
  | init => exact initial
  | step _ meets next ih => exact preserved _ _ _ ih meets next

theorem Reachable.invariant {P : S → Prop} (initial : P M.init)
    (preserved : ∀ s l s', P s → M.step s l = some s' → P s') {s : S}
    (h : M.Reachable s) : P s :=
  ReachableBy.invariant initial (fun s l s' hs _ => preserved s l s' hs) h

theorem Reachable.init : M.Reachable M.init := ReachableBy.init

theorem Reachable.step {s s' : S} {l : L} (h : M.Reachable s) (next : M.step s l = some s') :
    M.Reachable s' :=
  ReachableBy.step h trivial next

theorem ReachableBy.reachable {ok : S → L → Prop} {s : S} (h : M.ReachableBy ok s) :
    M.Reachable s :=
  h.invariant Reachable.init fun _ _ _ hs _ next => hs.step next

theorem Reachable.run {s r : S} {ls : List L} (h : M.Reachable s) (hr : M.run s ls = some r) :
    M.Reachable r := by
  induction ls generalizing s with
  | nil =>
    cases hr
    exact h
  | cons l ls ih =>
    obtain ⟨s', hs, hr⟩ := M.run_cons_eq_some.mp hr
    exact ih (h.step hs) hr

/-- The end of a run from the initial state is reachable. -/
theorem reachable_of_run {s : S} (ls : List L) (h : M.run M.init ls = some s) : M.Reachable s :=
  Reachable.init.run h

variable (M)

/-- The events shown by the steps of a run, in order: `ev s l` are the events of
the step with label `l` from state `s`. -/
def trace {E : Type*} (ev : S → L → List E) : S → List L → List E
  | _, [] => []
  | s, l :: ls =>
    match M.step s l with
    | none => []
    | some s' => ev s l ++ trace ev s' ls

/-- Every step of the run from `s` with labels `ls` meets `ok`. -/
def RunMeets (ok : S → L → Prop) : S → List L → Prop
  | _, [] => True
  | s, l :: ls =>
    ok s l ∧ match M.step s l with
      | none => True
      | some s' => RunMeets ok s' ls

instance decidableRunMeets (ok : S → L → Prop) [∀ s l, Decidable (ok s l)] :
    ∀ s ls, Decidable (M.RunMeets ok s ls)
  | _, [] => .isTrue trivial
  | s, l :: ls =>
    match h : M.step s l with
    | none => decidable_of_iff (ok s l) (by simp [RunMeets, h])
    | some s' =>
      have := decidableRunMeets ok s' ls
      decidable_of_iff (ok s l ∧ M.RunMeets ok s' ls) (by simp [RunMeets, h])

variable {M}

theorem ReachableBy.run {ok : S → L → Prop} {s r : S} {ls : List L} (h : M.ReachableBy ok s)
    (hok : M.RunMeets ok s ls) (hr : M.run s ls = some r) : M.ReachableBy ok r := by
  induction ls generalizing s with
  | nil =>
    cases hr
    exact h
  | cons l ls ih =>
    obtain ⟨s', hs, hr⟩ := M.run_cons_eq_some.mp hr
    obtain ⟨hl, hrest⟩ := hok
    rw [hs] at hrest
    exact ih (h.step hl hs) hrest hr

/-- The end of a run from the initial state whose steps all meet `ok`. -/
theorem reachableBy_of_run {ok : S → L → Prop} {s : S} (ls : List L)
    (hok : M.RunMeets ok M.init ls) (h : M.run M.init ls = some s) : M.ReachableBy ok s :=
  ReachableBy.init.run hok h

/-- **Bounded loops.**  A rank that a party's own steps make smaller and the other steps do not
make larger, as long as `ok` is met, bounds the number of its steps. -/
theorem countP_le_of_rank {ok : S → L → Prop} {own : L → Bool} {Rank : S → ℕ → Prop}
    (decreases : ∀ s l s' n, Rank s n → ok s l → M.step s l = some s' →
      ∃ m, Rank s' m ∧ m + (own l).toNat ≤ n) {s r : S} {ls : List L} {n : ℕ} (hs : Rank s n)
    (hok : M.RunMeets ok s ls) (hr : M.run s ls = some r) : ls.countP own ≤ n := by
  induction ls generalizing s n with
  | nil => exact Nat.zero_le n
  | cons l ls ih =>
    obtain ⟨s', hstep, hrest⟩ := M.run_cons_eq_some.mp hr
    obtain ⟨hl, hmeets⟩ := hok
    rw [hstep] at hmeets
    obtain ⟨m, hm, hle⟩ := decreases s l s' n hs hl hstep
    have hcount := ih hm hmeets hrest
    rw [List.countP_cons]
    cases hown : own l <;> simp only [hown, Bool.toNat_true, Bool.toNat_false] at hle <;>
      simp only [if_true, Bool.false_eq_true, if_false] <;> omega

/-- **Exact conditions on runs.**  If, where `P` holds, `ok` says exactly of which
enabled steps `P` holds afterwards, then `P` holds all along a run if and only if
each of its steps meets `ok`. -/
theorem runMeets_iff {ok : S → L → Prop} {P : S → Prop}
    (exact : ∀ s l s', P s → M.step s l = some s' → (P s' ↔ ok s l)) {s r : S} {ls : List L}
    (hs : P s) (hr : M.run s ls = some r) :
    (∀ before u, before <+: ls → M.run s before = some u → P u) ↔ M.RunMeets ok s ls := by
  induction ls generalizing s with
  | nil =>
    refine ⟨fun _ => trivial, fun _ before u hpre hu => ?_⟩
    rw [List.prefix_nil.mp hpre, run_nil, Option.some.injEq] at hu
    exact hu ▸ hs
  | cons l ls ih =>
    obtain ⟨s', hstep, hrest⟩ := M.run_cons_eq_some.mp hr
    simp only [RunMeets, hstep]
    constructor
    · intro h
      have hs' : P s' :=
        h [l] s' (List.prefix_cons_iff.mpr (Or.inr ⟨[], rfl, List.nil_prefix⟩)) (by simpa using hstep)
      refine ⟨(exact s l s' hs hstep).mp hs', (ih hs' hrest).mp fun before u hpre hu => ?_⟩
      exact h (l :: before) u (List.prefix_cons_iff.mpr (Or.inr ⟨before, rfl, hpre⟩))
        (M.run_cons_eq_some.mpr ⟨s', hstep, hu⟩)
    · rintro ⟨hok, htail⟩ before u hpre hu
      have hs' : P s' := (exact s l s' hs hstep).mpr hok
      rcases List.prefix_cons_iff.mp hpre with rfl | ⟨rest, rfl, hpre'⟩
      · cases hu
        exact hs
      · obtain ⟨s'', hstep', hu'⟩ := M.run_cons_eq_some.mp hu
        cases hstep.symm.trans hstep'
        exact (ih hs' hrest).mpr htail rest u hpre' hu'

/-- **The termination rule.**  If where the goal is not reached some step makes a number smaller,
then a run of such steps reaches it. -/
theorem exists_run_of_decreasing {P Goal : S → Prop} {ok : L → Prop} (measure : S → ℕ)
    (decreases : ∀ s, P s → ¬ Goal s →
      ∃ l s', ok l ∧ M.step s l = some s' ∧ P s' ∧ measure s' < measure s) {s : S} (hs : P s) :
    ∃ ls r, (∀ l ∈ ls, ok l) ∧ M.run s ls = some r ∧ P r ∧ Goal r := by
  suffices key : ∀ n s, measure s = n → P s →
      ∃ ls r, (∀ l ∈ ls, ok l) ∧ M.run s ls = some r ∧ P r ∧ Goal r from key (measure s) s rfl hs
  intro n
  induction n using Nat.strongRecOn with
  | ind n ih =>
    intro s hn hs
    by_cases hgoal : Goal s
    · exact ⟨[], s, List.forall_mem_nil _, rfl, hs, hgoal⟩
    · obtain ⟨l, s', hl, hstep, hs', hlt⟩ := decreases s hs hgoal
      obtain ⟨ls, r, hls, hr, hP, hgoal⟩ := ih (measure s') (hn ▸ hlt) s' rfl hs'
      refine ⟨l :: ls, r, fun x hx => ?_, M.run_cons_eq_some.mpr ⟨s', hstep, hr⟩, hP, hgoal⟩
      rcases List.mem_cons.mp hx with rfl | hx
      · exact hl
      · exact hls x hx

/-- If each step with the label `l` makes a number smaller, then after some of them there is no
such step any more. -/
theorem exists_run_stuck {P : S → Prop} (measure : S → ℕ) {l : L}
    (decreases : ∀ s s', P s → M.step s l = some s' → P s' ∧ measure s' < measure s) {s : S}
    (hs : P s) :
    ∃ k r, M.run s (List.replicate k l) = some r ∧ P r ∧ M.step r l = none := by
  have hdecreases : ∀ s, P s → ¬ M.step s l = none →
      ∃ x s', x = l ∧ M.step s x = some s' ∧ P s' ∧ measure s' < measure s := by
    intro s hs hgo
    obtain ⟨s', hstep⟩ := Option.ne_none_iff_exists'.mp hgo
    exact ⟨l, s', rfl, hstep, decreases s s' hs hstep⟩
  obtain ⟨ls, r, hls, hr, hP, hnone⟩ := M.exists_run_of_decreasing measure hdecreases hs
  rw [List.eq_replicate_of_mem hls] at hr
  exact ⟨ls.length, r, hr, hP, hnone⟩

/-- A number that each step makes smaller bounds the runs. -/
theorem run_length_le {P : S → Prop} (measure : S → ℕ)
    (decreases : ∀ s l s', P s → M.step s l = some s' → P s' ∧ measure s' < measure s) {s r : S}
    {ls : List L} (hs : P s) (hr : M.run s ls = some r) : ls.length + measure r ≤ measure s := by
  induction ls generalizing s with
  | nil =>
    cases hr
    simp
  | cons l ls ih =>
    obtain ⟨s', hstep, hrest⟩ := M.run_cons_eq_some.mp hr
    obtain ⟨hs', hlt⟩ := decreases s l s' hs hstep
    have hle := ih hs' hrest
    rw [List.length_cons]
    omega

/-- However the choices fall, the machine comes to an end, and it ends in a state with `Done`:
there is a bound on the length of its runs, and a state without further steps is `Done`. -/
def Terminates (M : Machine S L) (Done : S → Prop) : Prop :=
  (∃ bound, ∀ ls r, M.run M.init ls = some r → ls.length ≤ bound) ∧
    ∀ s, M.Reachable s → (∀ l, M.step s l = none) → Done s

/-- A machine terminates if an invariant makes a number smaller with each step and leaves a step
wherever it is not done. -/
theorem terminates_of_decreasing {P Done : S → Prop} (initial : P M.init) (measure : S → ℕ)
    (decreases : ∀ s l s', P s → M.step s l = some s' → P s' ∧ measure s' < measure s)
    (progress : ∀ s, P s → ¬ Done s → ∃ l s', M.step s l = some s') : M.Terminates Done := by
  constructor
  · refine ⟨measure M.init, fun ls r hr => ?_⟩
    have := run_length_le measure decreases initial hr
    omega
  · intro s hs hstuck
    have hP : P s := hs.invariant initial fun u l u' hu hstep => (decreases u l u' hu hstep).1
    by_contra hdone
    obtain ⟨l, s', hstep⟩ := progress s hP hdone
    rw [hstuck l] at hstep
    cases hstep

/-- The sum of the sizes of the parties in a list. -/
def total {A : Type*} (size : A → ℕ) : List A → ℕ
  | [] => 0
  | x :: xs => size x + total size xs

theorem total_append {A : Type*} (size : A → ℕ) (xs ys : List A) :
    total size (xs ++ ys) = total size xs + total size ys := by
  induction xs with
  | nil => simp [total]
  | cons x xs ih =>
    simp only [List.cons_append, total, ih]
    omega

/-- One party moves: its old size is exchanged for its new one. -/
theorem total_set {A : Type*} (size : A → ℕ) {xs : List A} {i : ℕ} {old : A}
    (hi : xs[i]? = some old) (new : A) :
    total size (xs.set i new) + size old = total size xs + size new := by
  induction xs generalizing i with
  | nil => cases hi
  | cons x xs ih =>
    cases i with
    | zero =>
      cases hi
      simp only [List.set_cons_zero, total]
      omega
    | succ i =>
      have := ih hi
      simp only [List.set_cons_succ, total]
      omega

theorem total_eq_zero {A : Type*} {size : A → ℕ} {xs : List A} :
    total size xs = 0 ↔ ∀ x ∈ xs, size x = 0 := by
  induction xs with
  | nil => simp [total]
  | cons x xs ih => simp [total, ih]

theorem total_replicate {A : Type*} (size : A → ℕ) (n : ℕ) (x : A) :
    total size (List.replicate n x) = n * size x := by
  induction n with
  | zero => simp [total]
  | succ n ih =>
    rw [List.replicate_succ, total, ih, Nat.succ_mul]
    omega

theorem trace_cons {E : Type*} {ev : S → L → List E} {s s' : S} {l : L} {ls : List L}
    (h : M.step s l = some s') : M.trace ev s (l :: ls) = ev s l ++ M.trace ev s' ls := by
  simp [trace, h]

theorem trace_append {E : Type*} {ev : S → L → List E} {s u : S} {ls ls' : List L}
    (h : M.run s ls = some u) :
    M.trace ev s (ls ++ ls') = M.trace ev s ls ++ M.trace ev u ls' := by
  induction ls generalizing s with
  | nil =>
    cases h
    rfl
  | cons l ls ih =>
    obtain ⟨s', hs, hrest⟩ := M.run_cons_eq_some.mp h
    rw [List.cons_append, trace_cons hs, trace_cons hs, ih hrest, List.append_assoc]

/-- The events of a run with one more step. -/
theorem trace_concat {E : Type*} {ev : S → L → List E} {s u r : S} {ls : List L} {l : L}
    (h : M.run s ls = some u) (hl : M.step u l = some r) :
    M.trace ev s (ls ++ [l]) = M.trace ev s ls ++ ev u l := by
  rw [trace_append h, trace_cons hl, trace, List.append_nil]

/-- The events of a run are events of steps. -/
theorem exists_of_mem_trace {E : Type*} {ev : S → L → List E} {s : S} {ls : List L} {e : E}
    (h : e ∈ M.trace ev s ls) : ∃ u, ∃ l ∈ ls, e ∈ ev u l := by
  induction ls generalizing s with
  | nil => cases h
  | cons l ls ih =>
    cases hs : M.step s l with
    | none =>
      rw [trace, hs] at h
      cases h
    | some s' =>
      rw [trace_cons hs] at h
      rcases List.mem_append.mp h with hl | hrest
      · exact ⟨s, l, List.mem_cons_self, hl⟩
      · obtain ⟨u, x, hx, he⟩ := ih hrest
        exact ⟨u, x, List.mem_cons_of_mem l hx, he⟩

/-! ## Quantities beside the state -/

section Instrument
variable {G : Type*}

/-- The machine with a quantity beside its state, which its steps update and do not depend on. -/
def instrument (M : Machine S L) (g₀ : G) (update : S → G → L → G) : Machine (S × G) L where
  init := (M.init, g₀)
  step x l := (M.step x.1 l).map fun s' => (s', update x.1 x.2 l)

variable {g₀ : G} {update : S → G → L → G}

theorem instrument_step_eq_some {x y : S × G} {l : L} :
    (M.instrument g₀ update).step x l = some y ↔
      ∃ s', M.step x.1 l = some s' ∧ (s', update x.1 x.2 l) = y := by
  rw [instrument, Option.map_eq_some_iff]

/-- A run of the instrumented machine is one of the machine. -/
theorem run_of_instrument {x y : S × G} {ls : List L}
    (h : (M.instrument g₀ update).run x ls = some y) : M.run x.1 ls = some y.1 := by
  induction ls generalizing x with
  | nil =>
    cases h
    rfl
  | cons l ls ih =>
    obtain ⟨z, hz, hrest⟩ := (Machine.run_cons_eq_some _).mp h
    obtain ⟨s', hs', rfl⟩ := instrument_step_eq_some.mp hz
    exact M.run_cons_eq_some.mpr ⟨s', hs', ih hrest⟩

/-- Every run of the machine is one of the instrumented machine. -/
theorem exists_instrument_run {s r : S} {ls : List L} (h : M.run s ls = some r) (g : G) :
    ∃ g', (M.instrument g₀ update).run (s, g) ls = some (r, g') := by
  induction ls generalizing s g with
  | nil =>
    cases h
    exact ⟨g, rfl⟩
  | cons l ls ih =>
    obtain ⟨s', hs', hrest⟩ := M.run_cons_eq_some.mp h
    obtain ⟨g', hg'⟩ := ih hrest (update s g l)
    exact ⟨g', (Machine.run_cons_eq_some _).mpr
      ⟨(s', update s g l), instrument_step_eq_some.mpr ⟨s', hs', rfl⟩, hg'⟩⟩

end Instrument

/-! ## Simulation by a machine that reads the events -/

variable {A E : Type*}

/-- `M` is simulated by `N`: the relation `R` holds initially, and whenever `M`
takes a step from a state related to `a`, `N` can read the events of that step
from `a` and arrive at a related state.  A step without events is a stutter. -/
structure Simulation (M : Machine S L) (N : Machine A E) (ev : S → L → List E)
    (R : S → A → Prop) : Prop where
  init : R M.init N.init
  step : ∀ s l s' a, R s a → M.step s l = some s' →
    ∃ a', N.run a (ev s l) = some a' ∧ R s' a'

/-- **Simulation over whole runs**: the events of a run of `M` are a run of `N`,
and the two end in related states. -/
theorem Simulation.run {N : Machine A E} {ev : S → L → List E} {R : S → A → Prop}
    (sim : Simulation M N ev R) {ls : List L} {s : S} (h : M.run M.init ls = some s) :
    ∃ a, N.run N.init (M.trace ev M.init ls) = some a ∧ R s a := by
  suffices key : ∀ (ls : List L) (s r : S) (a : A), R s a → M.run s ls = some r →
      ∃ b, N.run a (M.trace ev s ls) = some b ∧ R r b from key ls _ s _ sim.init h
  intro ls
  induction ls with
  | nil =>
    intro s r a hR hr
    cases hr
    exact ⟨a, rfl, hR⟩
  | cons l ls ih =>
    intro s r a hR hr
    obtain ⟨s', hs, hr⟩ := M.run_cons_eq_some.mp hr
    obtain ⟨a', ha, hR'⟩ := sim.step s l s' a hR hs
    obtain ⟨b, hb, hRb⟩ := ih s' r a' hR' hr
    exact ⟨b, by rw [trace_cons hs]; exact N.run_append ha hb, hRb⟩

end Machine
end Sundries
