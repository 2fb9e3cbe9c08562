import Mathlib.Data.List.Induction

/-!
# Scanners

A scanner reads its input one symbol at a time and says after each symbol whether it accepts,
rejects or wants more.  Input may come in pieces: what a scanner makes of it depends only on
their concatenation, and what comes after the deciding symbol is left unread.
-/
namespace Sundries

/-- What a scanner says after a symbol. -/
inductive Verdict where
  | accept | reject | more
  deriving DecidableEq

/-- A scanner with states `S` for symbols `A`. -/
structure Scanner (S A : Type*) where
  step : S → A → Verdict × S

namespace Scanner
variable {S A : Type*} (M : Scanner S A)

/-- Reads until a symbol decides: the verdict, the state reached and what is unread. -/
def scan : S → List A → Verdict × S × List A
  | s, [] => (.more, s, [])
  | s, a :: as =>
    match M.step s a with
    | (.more, s') => scan s' as
    | (.accept, s') => (.accept, s', as)
    | (.reject, s') => (.reject, s', as)

@[simp] theorem scan_nil (s : S) : M.scan s [] = (.more, s, []) := rfl

variable {M} {s s' u : S} {a : A} {as bs rest : List A} {v : Verdict}

theorem scan_cons_more (h : M.step s a = (.more, u)) : M.scan s (a :: as) = M.scan u as := by
  simp [scan, h]

theorem scan_cons_decided (h : M.step s a = (v, s')) (hv : v ≠ .more) :
    M.scan s (a :: as) = (v, s', as) := by
  cases v with
  | accept | reject => simp [scan, h]
  | more => exact absurd rfl hv

/-- As long as more is wanted, reading goes on where it has stopped. -/
theorem scan_append (h : M.scan s as = (.more, s', rest)) (bs : List A) :
    M.scan s (as ++ bs) = M.scan s' bs := by
  induction as generalizing s with
  | nil =>
    cases h
    rfl
  | cons a as ih =>
    rw [scan] at h
    split at h
    · rename_i u hstep
      rw [List.cons_append, scan_cons_more hstep, ih h]
    · cases h
    · cases h

/-- What follows the deciding symbol is not looked at. -/
theorem scan_append_decided (h : M.scan s as = (v, s', rest)) (hv : v ≠ .more) (bs : List A) :
    M.scan s (as ++ bs) = (v, s', rest ++ bs) := by
  induction as generalizing s with
  | nil =>
    cases h
    exact absurd rfl hv
  | cons a as ih =>
    rw [scan] at h
    split at h
    · rename_i u hstep
      rw [List.cons_append, scan_cons_more hstep, ih h]
    · rename_i u hstep
      cases h
      rw [List.cons_append, scan_cons_decided hstep hv]
    · rename_i u hstep
      cases h
      rw [List.cons_append, scan_cons_decided hstep hv]

/-- Before the symbol that decides, more is wanted. -/
theorem more_of_scan_append (h : M.scan s (as ++ bs) = (v, s', [])) (hbs : bs ≠ []) :
    (M.scan s as).1 = .more := by
  by_contra hdecided
  obtain ⟨x, u, rest, hx⟩ : ∃ x u rest, M.scan s as = (x, u, rest) := ⟨_, _, _, rfl⟩
  rw [hx] at hdecided
  rw [scan_append_decided hx hdecided] at h
  have hrest := congrArg (fun x => x.2.2) h
  exact hbs (List.append_eq_nil_iff.mp hrest).2

/-- A decision is the verdict on one symbol, after some for which more was wanted. -/
theorem exists_of_decided (h : M.scan s as = (v, s', rest)) (hv : v ≠ .more) :
    ∃ before a u, as = before ++ a :: rest ∧ M.scan s before = (.more, u, []) ∧
      M.step u a = (v, s') := by
  induction as generalizing s with
  | nil =>
    cases h
    exact absurd rfl hv
  | cons a as ih =>
    rw [scan] at h
    split at h
    · rename_i u hstep
      obtain ⟨before, b, w, rfl, hw, hb⟩ := ih h
      exact ⟨a :: before, b, w, rfl, by rw [scan_cons_more hstep, hw], hb⟩
    · rename_i u hstep
      cases h
      exact ⟨[], a, s, rfl, rfl, hstep⟩
    · rename_i u hstep
      cases h
      exact ⟨[], a, s, rfl, rfl, hstep⟩

/-- **The invariant rule.**  What holds initially and is preserved by each symbol for which more is
wanted holds of what has been read and of the state reached. -/
theorem scan_induction {P : List A → S → Prop} (initial : P [] s)
    (next : ∀ as u a u', P as u → M.step u a = (.more, u') → P (as ++ [a]) u')
    (h : M.scan s as = (.more, s', rest)) : P as s' := by
  induction as using List.reverseRecOn generalizing s' rest with
  | nil =>
    cases h
    exact initial
  | append_singleton as a ih =>
    obtain ⟨⟨v, u, r⟩, hu⟩ : ∃ x, M.scan s as = x := ⟨_, rfl⟩
    by_cases hv : v = .more
    · subst hv
      rw [scan_append hu] at h
      cases hstep : M.step u a with
      | mk w u' =>
        by_cases hw : w = .more
        · subst hw
          rw [scan_cons_more hstep] at h
          cases h
          exact next as u a _ (ih hu) hstep
        · rw [scan_cons_decided hstep hw] at h
          cases h
          exact absurd rfl hw
    · rw [scan_append_decided hu hv] at h
      cases h
      exact absurd rfl hv

/-- Symbols that are collected one by one into an accumulator. -/
theorem scan_collect {B : Type*} (f : B → S) (g : B → A → B)
    (h : ∀ a ∈ as, ∀ b, M.step (f b) a = (.more, f (g b a))) (b : B) (bs : List A) :
    M.scan (f b) (as ++ bs) = M.scan (f (as.foldl g b)) bs := by
  induction as generalizing b with
  | nil => rfl
  | cons a as ih =>
    rw [List.cons_append, scan_cons_more (h a List.mem_cons_self b),
      ih (fun x hx => h x (List.mem_cons_of_mem a hx)), List.foldl_cons]

/-! ## Two scanners -/

/-- A scanner follows another one as long as that one wants more. -/
theorem scan_follows {T : Type*} {N : Scanner T A} {R : S → T → Prop}
    (hstep : ∀ s t a t', R s t → N.step t a = (.more, t') →
      ∃ s', M.step s a = (.more, s') ∧ R s' t')
    {t t' : T} (h : R s t) (ht : N.scan t as = (.more, t', rest)) :
    ∃ s', M.scan s as = (.more, s', []) ∧ R s' t' := by
  induction as generalizing s t with
  | nil =>
    cases ht
    exact ⟨s, rfl, h⟩
  | cons a as ih =>
    rw [scan] at ht
    split at ht
    · rename_i t₁ ht₁
      obtain ⟨s₁, hs₁, h₁⟩ := hstep s t a t₁ h ht₁
      obtain ⟨s', hs', h'⟩ := ih h₁ ht
      exact ⟨s', by rw [scan_cons_more hs₁, hs'], h'⟩
    · cases ht
    · cases ht

/-- The scanner that also rejects the symbols it refuses. -/
def restrict (M : Scanner S A) (refuses : S → A → Bool) : Scanner S A where
  step s a := if refuses s a then (.reject, s) else M.step s a

section
variable {refuses : S → A → Bool} {inv good : S → Prop}
  (hinv : ∀ s a s', inv s → M.step s a = (.more, s') → inv s')
  (hstep : ∀ s a v s', inv s → M.step s a = (v, s') → v ≠ .reject →
    (good s' ↔ good s ∧ refuses s a = false))
include hinv hstep

theorem good_of_scan (hs : inv s) (h : M.scan s as = (v, s', rest)) (hv : v ≠ .reject)
    (hgood : good s') : good s := by
  induction as generalizing s with
  | nil =>
    cases h
    exact hgood
  | cons a as ih =>
    rw [scan] at h
    split at h
    · rename_i u hu
      exact ((hstep s a _ u hs hu (by simp)).mp (ih (hinv s a u hs hu) h)).1
    · rename_i u hu
      cases h
      exact ((hstep s a _ _ hs hu hv).mp hgood).1
    · cases h
      exact absurd rfl hv

/-- If exactly the refused symbols leave the good states, what is not rejected are the inputs that
lead to a good state. -/
theorem scan_restrict (hs : inv s) (hgood : good s) (hv : v ≠ .reject) :
    (M.restrict refuses).scan s as = (v, s', rest) ↔
      M.scan s as = (v, s', rest) ∧ good s' := by
  induction as generalizing s with
  | nil =>
    constructor
    · intro h
      cases h
      exact ⟨rfl, hgood⟩
    · exact And.left
  | cons a as ih =>
    cases hr : refuses s a with
    | true =>
      have hrefused : (M.restrict refuses).step s a = (.reject, s) := if_pos hr
      rw [scan_cons_decided hrefused (by simp)]
      constructor
      · intro h
        cases h
        exact absurd rfl hv
      · rintro ⟨h, hgood'⟩
        -- a good state at the end would make the first one after the refused symbol good
        have hlost : ∀ w u, M.step s a = (w, u) → w ≠ .reject → ¬ good u := by
          intro w u hu hw hgood
          exact absurd (hr.symm.trans ((hstep s a w u hs hu hw).mp hgood).2) (by simp)
        rw [scan] at h
        split at h
        · rename_i u hu
          exact absurd (good_of_scan hinv hstep (hinv s a u hs hu) h hv hgood')
            (hlost _ u hu (by simp))
        · rename_i u hu
          cases h
          exact absurd hgood' (hlost _ _ hu hv)
        · cases h
          exact absurd rfl hv
    | false =>
      have hsame : (M.restrict refuses).step s a = M.step s a := by
        simp [restrict, hr]
      cases hu : M.step s a with
      | mk w u =>
        by_cases hmore : w = .more
        · subst hmore
          have hgood : good u := (hstep s a _ u hs hu (by simp)).mpr ⟨hgood, hr⟩
          rw [scan_cons_more (hsame.trans hu), scan_cons_more hu]
          exact ih (hinv s a u hs hu) hgood
        · rw [scan_cons_decided (hsame.trans hu) hmore, scan_cons_decided hu hmore]
          constructor
          · intro h
            cases h
            exact ⟨rfl, (hstep s a _ _ hs hu hv).mpr ⟨hgood, hr⟩⟩
          · exact And.left

end

end Scanner
end Sundries
