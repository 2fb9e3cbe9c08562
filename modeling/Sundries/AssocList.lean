import Mathlib.Data.List.Induction
import Mathlib.Data.List.Perm.Basic

/-!
# Association lists and ordered maps

Lists of key-value pairs whose keys are compared by `==`, any equivalence.  `lookup`
answers the value of the first pair with an equal key, `put` overwrites that value or
appends a pair, `erase` removes that pair.  On lists with `UniqueKeys` these are the
operations of a finite map.

`insertSorted lt` is the insertion of an ordered map: it keeps the pairs ordered by
their keys and leaves a map with an equivalent key as it is.  Inserting the pairs of a
list with unique keys, in any order, gives a sorted rearrangement of that list
(`insertAll_perm`, `insertAll_sorted`).
-/
namespace Sundries.AssocList

variable {K V : Type*} [BEq K]

def lookup (k : K) : List (K × V) → Option V
  | [] => none
  | e :: l => if e.1 == k then some e.2 else lookup k l

def put (k : K) (v : V) : List (K × V) → List (K × V)
  | [] => [(k, v)]
  | e :: l => if e.1 == k then (e.1, v) :: l else e :: put k v l

def erase (k : K) : List (K × V) → List (K × V)
  | [] => []
  | e :: l => if e.1 == k then l else e :: erase k l

/-- No two pairs have equal keys. -/
def UniqueKeys (l : List (K × V)) : Prop := l.Pairwise fun e e' => ¬ (e.1 == e'.1)

section Lookup
variable [EquivBEq K] {k k' : K} {v : V} {e : K × V} {l l' : List (K × V)}

omit [EquivBEq K] in
theorem lookup_eq_none_iff : lookup k l = none ↔ ∀ e ∈ l, ¬ (e.1 == k) := by
  induction l with
  | nil => simp [lookup]
  | cons e l ih => by_cases he : (e.1 == k) = true <;> simp [lookup, he, ih]

omit [EquivBEq K] in
theorem mem_of_lookup (h : lookup k l = some v) : ∃ e ∈ l, (e.1 == k) ∧ e.2 = v := by
  induction l with
  | nil => cases h
  | cons e l ih =>
    by_cases he : (e.1 == k) = true
    · rw [lookup, if_pos he] at h
      exact ⟨e, List.mem_cons_self, he, Option.some.inj h⟩
    · rw [lookup, if_neg he] at h
      obtain ⟨e', hmem, hrest⟩ := ih h
      exact ⟨e', List.mem_cons_of_mem _ hmem, hrest⟩

theorem lookup_eq_some_iff (hu : UniqueKeys l) :
    lookup k l = some v ↔ ∃ e ∈ l, (e.1 == k) ∧ e.2 = v := by
  refine ⟨mem_of_lookup, ?_⟩
  induction l with
  | nil =>
    rintro ⟨e, he, -⟩
    cases he
  | cons e l ih =>
    obtain ⟨hhead, htail⟩ := List.pairwise_cons.mp hu
    rintro ⟨e', hmem, hk, hv⟩
    rcases List.mem_cons.mp hmem with rfl | hmem
    · rw [lookup, if_pos hk, hv]
    · have hne : ¬ (e.1 == k) := fun he => hhead e' hmem (BEq.trans he (BEq.symm hk))
      rw [lookup, if_neg hne]
      exact ih htail ⟨e', hmem, hk, hv⟩

/-- In a list with unique keys the order of the pairs does not matter. -/
theorem lookup_perm (hu : UniqueKeys l) (hp : l.Perm l') : lookup k l = lookup k l' := by
  have hsymm : ∀ e e' : K × V, ¬ (e.1 == e'.1) → ¬ (e'.1 == e.1) :=
    fun _ _ hne heq => hne (BEq.symm heq)
  have hu' : UniqueKeys l' := (hp.pairwise_iff (fun {e e'} => hsymm e e')).mp hu
  refine Option.ext fun v => ?_
  rw [lookup_eq_some_iff hu, lookup_eq_some_iff hu']
  simp only [hp.mem_iff]

theorem lookup_put : lookup k' (put k v l) = if k == k' then some v else lookup k' l := by
  induction l with
  | nil => rfl
  | cons e l ih =>
    by_cases he : (e.1 == k) = true
    · have hcongr : (e.1 == k') = (k == k') := BEq.congr_left he
      rw [put, if_pos he, lookup, lookup, hcongr]
      split <;> rfl
    · rw [put, if_neg he, lookup, lookup, ih]
      by_cases hk : (e.1 == k') = true
      · have hne : ¬ (k == k') := fun hkk => he (BEq.trans hk (BEq.symm hkk))
        rw [if_pos hk, if_pos hk, if_neg hne]
      · rw [if_neg hk, if_neg hk]

theorem lookup_erase (hu : UniqueKeys l) :
    lookup k' (erase k l) = if k == k' then none else lookup k' l := by
  induction l with
  | nil => simp [erase, lookup]
  | cons e l ih =>
    obtain ⟨hhead, htail⟩ := List.pairwise_cons.mp hu
    by_cases he : (e.1 == k) = true
    · have hcongr : (e.1 == k') = (k == k') := BEq.congr_left he
      rw [erase, if_pos he, lookup, hcongr]
      split
      · next hk =>
        -- the pair removed was the only one with this key
        exact lookup_eq_none_iff.mpr fun e' hmem hk' =>
          hhead e' hmem (BEq.trans (hcongr.trans hk) (BEq.symm hk'))
      · rfl
    · rw [erase, if_neg he, lookup, lookup, ih htail]
      by_cases hk : (e.1 == k') = true
      · have hne : ¬ (k == k') := fun hkk => he (BEq.trans hk (BEq.symm hkk))
        rw [if_pos hk, if_pos hk, if_neg hne]
      · rw [if_neg hk, if_neg hk]

end Lookup

section Unique
variable {k : K} {v : V} {e : K × V} {l : List (K × V)}

/-- `put` brings in no key but `k`. -/
theorem mem_put (h : e ∈ put k v l) : e.1 = k ∨ ∃ e' ∈ l, e'.1 = e.1 := by
  induction l with
  | nil => exact Or.inl (congrArg Prod.fst (List.mem_singleton.mp h))
  | cons e' l ih =>
    rw [put] at h
    split at h
    · rcases List.mem_cons.mp h with rfl | hmem
      · exact Or.inr ⟨e', List.mem_cons_self, rfl⟩
      · exact Or.inr ⟨e, List.mem_cons_of_mem _ hmem, rfl⟩
    · rcases List.mem_cons.mp h with rfl | hmem
      · exact Or.inr ⟨e, List.mem_cons_self, rfl⟩
      · exact (ih hmem).imp_right fun ⟨e'', hold, hk⟩ => ⟨e'', List.mem_cons_of_mem _ hold, hk⟩

theorem erase_sublist : (erase k l).Sublist l := by
  induction l with
  | nil => exact List.Sublist.refl _
  | cons e l ih =>
    rw [erase]
    split
    · exact List.sublist_cons_self e l
    · exact ih.cons_cons e

theorem UniqueKeys.erase (hu : UniqueKeys l) : UniqueKeys (erase k l) :=
  hu.sublist erase_sublist

theorem UniqueKeys.put (hu : UniqueKeys l) : UniqueKeys (put k v l) := by
  induction l with
  | nil => exact List.pairwise_singleton _ _
  | cons e l ih =>
    obtain ⟨hhead, htail⟩ := List.pairwise_cons.mp hu
    rw [AssocList.put]
    split
    · exact List.pairwise_cons.mpr ⟨hhead, htail⟩
    · next hne =>
      refine List.pairwise_cons.mpr ⟨fun e' hmem => ?_, ih htail⟩
      rcases mem_put hmem with hk | ⟨e'', hold, hk⟩
      · rwa [hk]
      · rw [← hk]
        exact hhead e'' hold

end Unique

/-! ## Ordered maps -/

/-- `lt` is a strict total order whose equality is `==`. -/
structure StrictTotalOrder (lt : K → K → Bool) : Prop where
  irrefl : ∀ a b, a == b → lt a b = false
  trans : ∀ a b c, lt a b = true → lt b c = true → lt a c = true
  total : ∀ a b, lt a b = false → lt b a = false → a == b

/-- Insertion of a pair into a list of pairs sorted by their keys. -/
def insertSorted (lt : K → K → Bool) (e : K × V) : List (K × V) → List (K × V)
  | [] => [e]
  | e' :: l =>
    if lt e.1 e'.1 then e :: e' :: l
    else if lt e'.1 e.1 then e' :: insertSorted lt e l
    else e' :: l

/-- The pairs of a list, inserted one after the other. -/
def insertAll (lt : K → K → Bool) (l : List (K × V)) : List (K × V) :=
  l.foldl (fun res e => insertSorted lt e res) []

def Sorted (lt : K → K → Bool) (l : List (K × V)) : Prop :=
  l.Pairwise fun e e' => lt e.1 e'.1 = true

section Sorted
variable {lt : K → K → Bool} {e : K × V} {l : List (K × V)}

omit [BEq K] in
theorem insertAll_concat (l : List (K × V)) (e : K × V) :
    insertAll lt (l ++ [e]) = insertSorted lt e (insertAll lt l) := by
  simp [insertAll]

omit [BEq K] in
theorem mem_insertSorted {e' : K × V} (h : e' ∈ insertSorted lt e l) : e' = e ∨ e' ∈ l := by
  induction l with
  | nil => exact Or.inl (List.mem_singleton.mp h)
  | cons a l ih =>
    rw [insertSorted] at h
    split at h
    · exact List.mem_cons.mp h
    · split at h
      · rcases List.mem_cons.mp h with rfl | hmem
        · exact Or.inr List.mem_cons_self
        · exact (ih hmem).imp_right (List.mem_cons_of_mem a)
      · exact Or.inr h

variable (order : StrictTotalOrder lt)
include order

theorem insertSorted_sorted (h : Sorted lt l) : Sorted lt (insertSorted lt e l) := by
  induction l with
  | nil => exact List.pairwise_singleton _ _
  | cons a l ih =>
    obtain ⟨hhead, htail⟩ := List.pairwise_cons.mp h
    rw [insertSorted]
    split
    · next hlt =>
      refine List.pairwise_cons.mpr ⟨fun b hb => ?_, h⟩
      rcases List.mem_cons.mp hb with rfl | hmem
      · exact hlt
      · exact order.trans _ _ _ hlt (hhead b hmem)
    · split
      · next hgt =>
        refine List.pairwise_cons.mpr ⟨fun b hb => ?_, ih htail⟩
        rcases mem_insertSorted hb with rfl | hmem
        · exact hgt
        · exact hhead b hmem
      · exact h

/-- A pair whose key is not there is put in. -/
theorem insertSorted_perm (h : ∀ e' ∈ l, ¬ (e.1 == e'.1)) :
    (insertSorted lt e l).Perm (e :: l) := by
  induction l with
  | nil => exact List.Perm.refl _
  | cons a l ih =>
    rw [insertSorted]
    split
    · exact List.Perm.refl _
    · next hlt =>
      split
      · exact ((ih fun e' hmem => h e' (List.mem_cons_of_mem a hmem)).cons a).trans
          (List.Perm.swap e a l)
      · next hgt =>
        exact absurd (order.total _ _ (eq_false_of_ne_true hlt)
          (eq_false_of_ne_true hgt)) (h a List.mem_cons_self)

theorem insertAll_sorted (l : List (K × V)) : Sorted lt (insertAll lt l) := by
  induction l using List.reverseRecOn with
  | nil => exact List.Pairwise.nil
  | append_singleton l e ih =>
    rw [insertAll_concat]
    exact insertSorted_sorted order ih

theorem insertAll_perm [EquivBEq K] (hu : UniqueKeys l) : (insertAll lt l).Perm l := by
  induction l using List.reverseRecOn with
  | nil => exact List.Perm.refl _
  | append_singleton l e ih =>
    obtain ⟨hl, -, hcross⟩ := List.pairwise_append.mp hu
    rw [insertAll_concat]
    have hperm := ih hl
    refine (insertSorted_perm order fun e' hmem heq => ?_).trans ?_
    · exact hcross e' (hperm.mem_iff.mp hmem) e (List.mem_singleton.mpr rfl) (BEq.symm heq)
    · exact (hperm.cons e).trans (List.perm_append_singleton e l).symm

end Sorted
end Sundries.AssocList
