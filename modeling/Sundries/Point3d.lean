import Sundries.NotAbove

/-!
# The comparisons of `point3d`

`operator<` compares two points coordinate by coordinate and is content with one
coordinate that is smaller, whichever way the others lie.  So `p < q` says that `p` is
not above `q` in the componentwise order, and of two points with coordinates that
disagree each is less than the other, also of the two points of `test_less`.  The
operators are those of a strict total order exactly where the points are comparable
componentwise (`orderLaws_iff`); there they decide the lexicographic order
(`less_eq_lexLess`).

A coordinate is an `int`; the operators only compare coordinates, so it may be any
integer.
-/
namespace Sundries

/-- `point3d`. -/
@[ext]
structure Point3d where
  x : ℤ
  y : ℤ
  z : ℤ
  deriving DecidableEq

namespace Point3d

/-- `operator==`. -/
def equal (p q : Point3d) : Bool := p.x = q.x && p.y = q.y && p.z = q.z

/-- `operator!=`. -/
def notEqual (p q : Point3d) : Bool := !p.equal q

/-- `operator<`. -/
def less (p q : Point3d) : Bool := p.x < q.x || p.y < q.y || p.z < q.z

/-- The componentwise order. -/
instance : PartialOrder Point3d where
  le p q := p.x ≤ q.x ∧ p.y ≤ q.y ∧ p.z ≤ q.z
  le_refl p := ⟨Int.le_refl _, Int.le_refl _, Int.le_refl _⟩
  le_trans p q r hpq hqr :=
    ⟨hpq.1.trans hqr.1, hpq.2.1.trans hqr.2.1, hpq.2.2.trans hqr.2.2⟩
  le_antisymm p q hpq hqp :=
    Point3d.ext (Int.le_antisymm hpq.1 hqp.1) (Int.le_antisymm hpq.2.1 hqp.2.1)
      (Int.le_antisymm hpq.2.2 hqp.2.2)

variable {p q r : Point3d}

theorem le_iff : p ≤ q ↔ p.x ≤ q.x ∧ p.y ≤ q.y ∧ p.z ≤ q.z := Iff.rfl

theorem equal_iff : p.equal q = true ↔ p = q := by
  simp [equal, Point3d.ext_iff, and_assoc]

theorem notEqual_iff : p.notEqual q = true ↔ p ≠ q := by
  rw [notEqual, Bool.not_eq_true', ← Bool.not_eq_true, equal_iff]

/-- `p < q` says that `p` is not above `q`. -/
theorem less_iff : p.less q = true ↔ NotAbove p q := by
  simp only [less, Bool.or_eq_true, decide_eq_true_eq, NotAbove, le_iff]
  omega

theorem equal_eq_false (h : p ≠ q) : p.equal q = false := by
  rwa [← Bool.not_eq_true, equal_iff]

theorem less_eq_false : p.less q = false ↔ ¬ NotAbove p q := by
  rw [← Bool.not_eq_true, less_iff]

/-! ## The laws of an order -/

/-- Exactly one of the three is true. -/
def exactlyOne (a b c : Bool) : Prop := a.toNat + b.toNat + c.toNat = 1

/-- What ordered containers and sorting require of the operators, for three points. -/
structure OrderLaws (p q r : Point3d) : Prop where
  irrefl : p.less p = false
  asymm : ¬ (p.less q = true ∧ q.less p = true)
  trans : p.less q = true → q.less r = true → p.less r = true
  exactlyOne : exactlyOne (p.less q) (p.equal q) (q.less p)

/-- **The operators order the points that are comparable.**  The laws hold of `p`, `q`
and any third point if and only if no coordinate of `p` is smaller than that of `q`
while another one is greater. -/
theorem orderLaws_iff (p q r : Point3d) :
    OrderLaws p q r ↔
      (p.x ≤ q.x ∧ p.y ≤ q.y ∧ p.z ≤ q.z) ∨ (q.x ≤ p.x ∧ q.y ≤ p.y ∧ q.z ≤ p.z) := by
  rw [← le_iff, ← le_iff]
  constructor
  · intro h
    by_contra hcomp
    obtain ⟨hpq, hqp⟩ := notAbove_both_iff.mpr hcomp
    exact h.asymm ⟨less_iff.mpr hpq, less_iff.mpr hqp⟩
  · intro hcomp
    have hasymm : ¬ (p.less q = true ∧ q.less p = true) := by
      rw [less_iff, less_iff, notAbove_both_iff]
      exact not_not_intro hcomp
    refine ⟨?_, hasymm, fun hpq hqr => ?_, ?_⟩
    · exact less_eq_false.mpr (NotAbove.irrefl p)
    · rw [less_iff] at hpq hqr ⊢
      exact hpq.trans hqr hcomp
    · rcases NotAbove.total p q with hpq | rfl | hqp
      · have hne : p.equal q = false := equal_eq_false hpq.ne
        have hnot : q.less p = false := less_eq_false.mpr (hpq.asymm hcomp)
        rw [Point3d.exactlyOne, less_iff.mpr hpq, hne, hnot]
        rfl
      · have hirrefl : p.less p = false := less_eq_false.mpr (NotAbove.irrefl p)
        rw [Point3d.exactlyOne, equal_iff.mpr rfl, hirrefl]
        rfl
      · have hne : p.equal q = false := equal_eq_false hqp.ne.symm
        have hnot : p.less q = false := less_eq_false.mpr (hqp.asymm hcomp.symm)
        rw [Point3d.exactlyOne, less_iff.mpr hqp, hne, hnot]
        rfl

/-- The points of `test_less`, each of which is less than the other. -/
theorem testLess_not_orderLaws :
    (⟨1, 2, 3⟩ : Point3d).less ⟨3, 2, 1⟩ = true ∧ (⟨3, 2, 1⟩ : Point3d).less ⟨1, 2, 3⟩ = true ∧
      ¬ ∀ p q r : Point3d, OrderLaws p q r :=
  ⟨rfl, rfl, fun h => (h ⟨1, 2, 3⟩ ⟨3, 2, 1⟩ ⟨1, 2, 3⟩).asymm ⟨rfl, rfl⟩⟩

/-- **The points a container may hold**: the operators order them if and only if any
two of them are comparable. -/
theorem less_strictTotalOn_iff (S : Set Point3d) :
    StrictTotalOn (fun p q => p.less q = true) S ↔ IsChain (· ≤ ·) S := by
  have hless : (fun p q : Point3d => p.less q = true) = NotAbove := by
    funext p q
    exact propext less_iff
  rw [hless, strictTotalOn_notAbove_iff]

/-! ## The lexicographic order -/

/-- The coordinates are compared in turn, the next one if they are equal. -/
def lexLess (p q : Point3d) : Bool :=
  p.x < q.x || p.x = q.x && (p.y < q.y || p.y = q.y && p.z < q.z)

/-- Where the operators are those of an order, it is the lexicographic one. -/
theorem less_eq_lexLess (h : p ≤ q ∨ q ≤ p) : p.less q = p.lexLess q := by
  simp only [le_iff] at h
  rw [Bool.eq_iff_iff]
  simp only [less, lexLess, Bool.or_eq_true, Bool.and_eq_true, decide_eq_true_eq]
  omega

end Point3d
end Sundries
