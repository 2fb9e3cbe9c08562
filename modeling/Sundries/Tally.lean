import Mathlib.Algebra.BigOperators.Group.Finset.Basic
import Mathlib.Algebra.Order.BigOperators.Group.Finset
import Mathlib.Data.Fintype.BigOperators

/-!
# Counting threads

`tally f p` is the number of threads `t` with `p (f t)`: how many threads stand
at a program point of a given kind.  A step of one thread changes the tally by
that thread's own contribution (`tally_update`), which is all the counting
invariants of a concurrent program need.
-/
namespace Sundries

/-- Two threads, for runs that are written out. -/
inductive Two where
  | a
  | b
  deriving DecidableEq

instance : Fintype Two := ⟨{.a, .b}, fun t => by cases t <;> simp⟩

variable {T X : Type*} [Fintype T]

/-- How many threads satisfy `p`. -/
def tally (f : T → X) (p : X → Bool) : Nat := ∑ t, (p (f t)).toNat

theorem tally_pos_of {f : T → X} {p : X → Bool} {t : T} (h : p (f t) = true) : 0 < tally f p := by
  have hle : (p (f t)).toNat ≤ tally f p :=
    Finset.single_le_sum (f := fun t => (p (f t)).toNat) (fun _ _ => Nat.zero_le _)
      (Finset.mem_univ t)
  rw [h] at hle
  exact hle

theorem tally_eq_zero {f : T → X} {p : X → Bool} : tally f p = 0 ↔ ∀ t, p (f t) = false := by
  simp [tally]

theorem exists_of_tally_pos {f : T → X} {p : X → Bool} (h : 0 < tally f p) :
    ∃ t, p (f t) = true := by
  by_contra hnone
  simp only [not_exists, Bool.not_eq_true] at hnone
  exact absurd (tally_eq_zero.mpr hnone) (by omega)

variable [DecidableEq T]

/-- **One thread moves**: its old contribution is exchanged for its new one. -/
theorem tally_update (f : T → X) (t : T) (x : X) (p : X → Bool) :
    tally (Function.update f t x) p + (p (f t)).toNat = tally f p + (p x).toNat := by
  have hrest : ∑ u ∈ Finset.univ.erase t, (p (Function.update f t x u)).toNat =
      ∑ u ∈ Finset.univ.erase t, (p (f u)).toNat :=
    Finset.sum_congr rfl fun u hu => by rw [Function.update_of_ne (Finset.ne_of_mem_erase hu)]
  have hnew := Finset.add_sum_erase Finset.univ
    (fun u => (p (Function.update f t x u)).toNat) (Finset.mem_univ t)
  have hold := Finset.add_sum_erase Finset.univ (fun u => (p (f u)).toNat) (Finset.mem_univ t)
  rw [hrest] at hnew
  simp only [Function.update_self] at hnew
  unfold tally
  omega

/-- A thread that moves between two points of the same standing leaves the
tally alone. -/
theorem tally_update_same {f : T → X} {t : T} {x : X} {p : X → Bool} (h : p x = p (f t)) :
    tally (Function.update f t x) p = tally f p := by
  have := tally_update f t x p
  rw [h] at this
  omega

/-- If only one thread satisfies `p`, any two that do are the same. -/
theorem eq_of_tally_eq_one {f : T → X} {p : X → Bool} (h : tally f p = 1) {t u : T}
    (ht : p (f t) = true) (hu : p (f u) = true) : t = u := by
  by_contra hne
  have hold := Finset.add_sum_erase Finset.univ (fun u => (p (f u)).toNat) (Finset.mem_univ t)
  have hle : (p (f u)).toNat ≤ ∑ v ∈ Finset.univ.erase t, (p (f v)).toNat :=
    Finset.single_le_sum (f := fun v => (p (f v)).toNat) (fun _ _ => Nat.zero_le _)
      (Finset.mem_erase.mpr ⟨Ne.symm hne, Finset.mem_univ u⟩)
  unfold tally at h
  rw [ht] at hold
  rw [hu] at hle
  simp only [Bool.toNat_true] at hold hle
  omega

end Sundries
