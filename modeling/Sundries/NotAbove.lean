import Mathlib.Order.Preorder.Chain

/-!
# What is not above

In a partial order, `a` is *not above* `b` if `b ≤ a` fails.  A comparison that goes
over the coordinates of two tuples and is content with one that is smaller decides
this relation for the componentwise order.  Nothing is not above itself, and of two
elements at least one is not above the other (`NotAbove.total`), so the relation looks
like a strict total order; but each of two elements is not above the other when they
are incomparable (`notAbove_both_iff`).  It is a strict total order on the chains, and
on nothing else (`strictTotalOn_notAbove_iff`).
-/
namespace Sundries

variable {A : Type*}

/-- `lt` is a strict total order on the elements of `S`. -/
structure StrictTotalOn (lt : A → A → Prop) (S : Set A) : Prop where
  irrefl : ∀ a ∈ S, ¬ lt a a
  asymm : ∀ a ∈ S, ∀ b ∈ S, lt a b → ¬ lt b a
  trans : ∀ a ∈ S, ∀ b ∈ S, ∀ c ∈ S, lt a b → lt b c → lt a c
  total : ∀ a ∈ S, ∀ b ∈ S, lt a b ∨ a = b ∨ lt b a

variable [PartialOrder A] {a b c : A}

/-- `a` is not above `b`. -/
def NotAbove (a b : A) : Prop := ¬ b ≤ a

namespace NotAbove

theorem irrefl (a : A) : ¬ NotAbove a a := fun h => h le_rfl

theorem ne (h : NotAbove a b) : a ≠ b := fun hab => h hab.ge

theorem total (a b : A) : NotAbove a b ∨ a = b ∨ NotAbove b a := by
  by_cases hba : b ≤ a
  · by_cases hab : a ≤ b
    · exact Or.inr (Or.inl (le_antisymm hab hba))
    · exact Or.inr (Or.inr hab)
  · exact Or.inl hba

/-- For comparable elements it is the order itself. -/
theorem lt (h : NotAbove a b) (hcomp : a ≤ b ∨ b ≤ a) : a < b :=
  lt_of_le_not_ge (hcomp.resolve_right h) h

theorem asymm (h : NotAbove a b) (hcomp : a ≤ b ∨ b ≤ a) : ¬ NotAbove b a :=
  fun hba => hba (h.lt hcomp).le

/-- The third element need not be comparable to the others. -/
theorem trans (h : NotAbove a b) (h' : NotAbove b c) (hcomp : a ≤ b ∨ b ≤ a) : NotAbove a c :=
  fun hca => h' (hca.trans (h.lt hcomp).le)

end NotAbove

theorem notAbove_both_iff : NotAbove a b ∧ NotAbove b a ↔ ¬ (a ≤ b ∨ b ≤ a) := by
  rw [not_or, and_comm]
  exact Iff.rfl

/-- **It is a strict total order on the chains.** -/
theorem strictTotalOn_notAbove_iff {S : Set A} :
    StrictTotalOn NotAbove S ↔ IsChain (· ≤ ·) S := by
  constructor
  · intro h a ha b hb _
    by_contra hcomp
    obtain ⟨hab, hba⟩ := notAbove_both_iff.mpr hcomp
    exact h.asymm a ha b hb hab hba
  · intro h
    exact ⟨fun a _ => NotAbove.irrefl a, fun a ha b hb hab => hab.asymm (h.total ha hb),
      fun a ha b hb c _ hab hbc => hab.trans hbc (h.total ha hb),
      fun a _ b _ => NotAbove.total a b⟩

end Sundries
