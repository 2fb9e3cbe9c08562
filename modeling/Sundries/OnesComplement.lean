import Mathlib.Data.List.Basic

/-!
# Sums with the carry taken round

Addition of the digits of a number in base `b` where the carry is added at the low end again.  The
sum is the one modulo `b - 1`, with two digits for zero: it is `0` only if every summand is
(`sum_eq_top_iff`), so that a sum of `b - 1` shows every change of one summand, but for the
exchange of the two zeros (`eq_of_sum_set`).
-/
namespace Sundries.OnesComplement

def add (b m n : ℕ) : ℕ := (m + n) % b + (m + n) / b

def sum (b : ℕ) (ws : List ℕ) : ℕ := ws.foldl (add b) 0

/-- The sum without a bound. -/
def total (ws : List ℕ) : ℕ := ws.foldr (· + ·) 0

@[simp] theorem total_nil : total [] = 0 := rfl

@[simp] theorem total_cons (w : ℕ) (ws : List ℕ) : total (w :: ws) = w + total ws := rfl

@[simp] theorem total_append (ws vs : List ℕ) : total (ws ++ vs) = total ws + total vs := by
  induction ws with
  | nil => simp
  | cons w ws ih => simp [ih, Nat.add_assoc]

theorem total_set {ws : List ℕ} {i v : ℕ} (h : ws[i]? = some v) (w : ℕ) :
    total (ws.set i w) + v = total ws + w := by
  induction ws generalizing i with
  | nil => cases h
  | cons u ws ih =>
    cases i with
    | zero =>
      cases h
      simp only [List.set_cons_zero, total_cons]
      omega
    | succ i =>
      have := ih h
      simp only [List.set_cons_succ, total_cons]
      omega

theorem total_le {ws : List ℕ} {m : ℕ} (h : ∀ w ∈ ws, w ≤ m) : total ws ≤ ws.length * m := by
  induction ws with
  | nil => simp
  | cons w ws ih =>
    have hle := ih fun x hx => h x (List.mem_cons_of_mem w hx)
    have hw := h w List.mem_cons_self
    rw [total_cons, List.length_cons, Nat.succ_mul]
    omega

section
variable {b : ℕ} (hb : 1 < b)
include hb

theorem add_spec {m n : ℕ} (hm : m < b) (hn : n < b) :
    add b m n < b ∧ add b m n % (b - 1) = (m + n) % (b - 1) ∧ (add b m n = 0 ↔ m + n = 0) := by
  rw [add]
  rcases Nat.lt_or_ge (m + n) b with hlt | hge
  · rw [Nat.mod_eq_of_lt hlt, Nat.div_eq_of_lt hlt, Nat.add_zero]
    exact ⟨hlt, rfl, Iff.rfl⟩
  · have hdiv : (m + n) / b = 1 := by
      rw [Nat.div_eq_iff (by omega)]
      omega
    have hmod : (m + n) % b = m + n - b := by
      rw [Nat.mod_eq_sub_mod hge, Nat.mod_eq_of_lt (by omega)]
    rw [hdiv, hmod]
    refine ⟨by omega, ?_, by omega⟩
    have hsplit : m + n = m + n - b + 1 + (b - 1) := by omega
    rw [hsplit, Nat.add_mod_right, ← hsplit]

theorem foldl_spec {ws : List ℕ} (hws : ∀ w ∈ ws, w < b) {m : ℕ} (hm : m < b) :
    ws.foldl (add b) m < b ∧ ws.foldl (add b) m % (b - 1) = (m + total ws) % (b - 1) ∧
      (ws.foldl (add b) m = 0 ↔ m + total ws = 0) := by
  induction ws generalizing m with
  | nil => exact ⟨hm, rfl, Iff.rfl⟩
  | cons w ws ih =>
    obtain ⟨hlt, hmod, hzero⟩ := add_spec hb hm (hws w List.mem_cons_self)
    obtain ⟨hlt', hmod', hzero'⟩ := ih (fun x hx => hws x (List.mem_cons_of_mem w hx)) hlt
    refine ⟨hlt', ?_, ?_⟩
    · rw [List.foldl_cons, hmod', Nat.add_mod, hmod, ← Nat.add_mod, total_cons, Nat.add_assoc]
    · rw [List.foldl_cons, hzero', total_cons]
      omega

/-- The sum is the largest digit exactly if the summands are zero modulo it, but not all zero. -/
theorem sum_eq_top_iff {ws : List ℕ} (hws : ∀ w ∈ ws, w < b) :
    sum b ws = b - 1 ↔ total ws % (b - 1) = 0 ∧ total ws ≠ 0 := by
  obtain ⟨hlt, hmod, hzero⟩ := foldl_spec hb hws (m := 0) (by omega)
  rw [Nat.zero_add] at hmod hzero
  constructor
  · intro htop
    rw [sum] at htop
    rw [htop, Nat.mod_self] at hmod
    exact ⟨hmod.symm, fun hall => by have := hzero.mpr hall; omega⟩
  · rintro ⟨htotal, hne⟩
    rw [htotal] at hmod
    have hpos : sum b ws ≠ 0 := fun h => hne (hzero.mp h)
    have hle := Nat.le_of_dvd (Nat.pos_of_ne_zero hpos) (Nat.dvd_of_mod_eq_zero hmod)
    have hlt : sum b ws < b := hlt
    omega

/-- **One summand that is changed is noticed**, unless it is one zero for the other. -/
theorem eq_of_sum_set {ws : List ℕ} (hws : ∀ w ∈ ws, w < b) (hsum : sum b ws = b - 1) {i v w : ℕ}
    (hv : ws[i]? = some v) (hw : w < b) (hsum' : sum b (ws.set i w) = b - 1) :
    w = v ∨ (w = 0 ∧ v = b - 1) ∨ (w = b - 1 ∧ v = 0) := by
  have hvb : v < b := hws v (List.mem_of_getElem? hv)
  have hws' : ∀ x ∈ ws.set i w, x < b := by
    intro x hx
    rcases List.mem_or_eq_of_mem_set hx with hx | rfl
    · exact hws x hx
    · exact hw
  have htotal := ((sum_eq_top_iff hb hws).mp hsum).1
  have htotal' := ((sum_eq_top_iff hb hws').mp hsum').1
  have hset := total_set hv w
  -- `w` and `v` differ by a multiple of `b - 1`
  have hmod : w % (b - 1) = v % (b - 1) := by
    have hw' : (total ws + w) % (b - 1) = w % (b - 1) := by
      rw [Nat.add_mod, htotal, Nat.zero_add, Nat.mod_mod]
    have hv' : (total (ws.set i w) + v) % (b - 1) = v % (b - 1) := by
      rw [Nat.add_mod, htotal', Nat.zero_add, Nat.mod_mod]
    rw [← hw', ← hset, hv']
  rcases Nat.lt_or_ge w (b - 1) with hw1 | hw1 <;> rcases Nat.lt_or_ge v (b - 1) with hv1 | hv1
  · rw [Nat.mod_eq_of_lt hw1, Nat.mod_eq_of_lt hv1] at hmod
    exact .inl hmod
  · obtain rfl : v = b - 1 := by omega
    rw [Nat.mod_eq_of_lt hw1, Nat.mod_self] at hmod
    exact .inr (.inl ⟨hmod, rfl⟩)
  · obtain rfl : w = b - 1 := by omega
    rw [Nat.mod_eq_of_lt hv1, Nat.mod_self] at hmod
    exact .inr (.inr ⟨rfl, hmod.symm⟩)
  · exact .inl (by omega)

end
end Sundries.OnesComplement
