import Mathlib.Data.List.Basic
import Mathlib.Data.List.Nodup
import Mathlib.Logic.Function.Basic

/-!
# Linked segments

`next a` is the address stored in the link field of the cell at `a`, `none` for
a null link.  `Segment next p l q` says that from the pointer `p`, following
the links, one meets exactly the cells `l`, in order, and arrives at the pointer
`q`; a list ended by null is a segment to `none`.

A segment depends on the links of its own cells only (`Segment.congr`), which is
the frame rule the concurrent structures below rely on.  A segment to null is
determined by its first pointer (`Segment.unique`), so it has no repeated cell.
A `LinkedStack` is a segment to null whose cells hold given values, and `follower l a` is
what the link of `a` should be if the cells `l` are to be a segment.
-/
namespace Sundries

variable {A : Type*}

/-- From `p` the links lead through exactly the cells `l` to `q`. -/
def Segment (next : A → Option A) : Option A → List A → Option A → Prop
  | p, [], q => p = q
  | p, a :: l, q => p = some a ∧ Segment next (next a) l q

namespace Segment
variable {next next' : A → Option A} {p q r : Option A} {a : A} {l l' : List A}

@[simp] theorem nil_iff : Segment next p [] q ↔ p = q := Iff.rfl

@[simp] theorem cons_iff :
    Segment next p (a :: l) q ↔ p = some a ∧ Segment next (next a) l q := Iff.rfl

/-- **The frame rule**: only the links of the segment's own cells matter. -/
theorem congr (h : Segment next p l q) (hag : ∀ a ∈ l, next' a = next a) :
    Segment next' p l q := by
  induction l generalizing p with
  | nil => exact h
  | cons a l ih =>
    obtain ⟨hp, hrest⟩ := h
    refine ⟨hp, ?_⟩
    rw [hag a List.mem_cons_self]
    exact ih hrest fun b hb => hag b (List.mem_cons_of_mem _ hb)

theorem append_iff :
    Segment next p (l ++ l') r ↔ ∃ q, Segment next p l q ∧ Segment next q l' r := by
  induction l generalizing p with
  | nil => simp
  | cons a l ih => simp [ih, and_assoc]

theorem append (h : Segment next p l q) (h' : Segment next q l' r) :
    Segment next p (l ++ l') r :=
  append_iff.mpr ⟨q, h, h'⟩

/-- A segment that goes on from its last pointer `some a` by one more cell. -/
theorem concat (h : Segment next p l (some a)) : Segment next p (l ++ [a]) (next a) :=
  h.append ⟨rfl, rfl⟩

/-- A pointer leads to null along one list of cells only. -/
theorem unique (h : Segment next p l none) (h' : Segment next p l' none) : l = l' := by
  induction l generalizing p l' with
  | nil =>
    cases h
    cases l' with
    | nil => rfl
    | cons b l' => cases h'.1
  | cons a l ih =>
    obtain ⟨rfl, hrest⟩ := h
    cases l' with
    | nil => cases h'
    | cons b l' =>
      obtain ⟨hb, hrest'⟩ := h'
      cases hb
      rw [ih hrest hrest']

/-- A pointer leads to a cell for the first time along one list of cells only. -/
theorem unique_until {b : A} (h : Segment next p l (some b)) (h' : Segment next p l' (some b))
    (hb : b ∉ l) (hb' : b ∉ l') : l = l' := by
  induction l generalizing p l' with
  | nil =>
    cases h
    cases l' with
    | nil => rfl
    | cons c l' =>
      obtain ⟨hc, -⟩ := h'
      cases hc
      exact absurd List.mem_cons_self hb'
  | cons a l ih =>
    obtain ⟨rfl, hrest⟩ := h
    rw [List.mem_cons, not_or] at hb
    cases l' with
    | nil =>
      cases h'
      exact absurd rfl hb.1
    | cons c l' =>
      obtain ⟨hc, hrest'⟩ := h'
      cases hc
      rw [List.mem_cons, not_or] at hb'
      rw [ih hrest hrest' hb.2 hb'.2]

/-- A segment cut at one of its cells. -/
theorem cut (h : Segment next p l q) (ha : a ∈ l) :
    ∃ l₁ l₂, l = l₁ ++ a :: l₂ ∧ Segment next p l₁ (some a) ∧ Segment next (next a) l₂ q := by
  obtain ⟨l₁, l₂, rfl⟩ := List.append_of_mem ha
  obtain ⟨r, hfront, rfl, hrest⟩ := append_iff.mp h
  exact ⟨l₁, l₂, rfl, hfront, hrest⟩

/-- A null-ended segment repeats no cell: from a repeated cell the links would
lead to null along two lists of different length. -/
theorem nodup (h : Segment next p l none) : l.Nodup := by
  induction l generalizing p with
  | nil => exact List.nodup_nil
  | cons a l ih =>
    refine List.nodup_cons.mpr ⟨?_, ih h.2⟩
    intro hmem
    obtain ⟨l₁, l₂, rfl, -, htail⟩ := h.2.cut hmem
    have hlong : Segment next (some a) (a :: (l₁ ++ a :: l₂)) none := ⟨rfl, h.2⟩
    have hshort : Segment next (some a) (a :: l₂) none := ⟨rfl, htail⟩
    have heq := unique hlong hshort
    have := congrArg List.length heq
    simp at this
    omega

/-- A null-ended segment from a cell starts with that cell. -/
theorem exists_cons (h : Segment next (some a) l none) : ∃ l', l = a :: l' := by
  cases l with
  | nil => cases h
  | cons b l =>
    obtain ⟨hb, -⟩ := h
    cases hb
    exact ⟨l, rfl⟩

/-- The first pointer leads to a cell of the segment, or is its end. -/
theorem first_mem (h : Segment next (some a) l q) : a ∈ l ∨ q = some a := by
  cases l with
  | nil => exact Or.inr h.symm
  | cons b l =>
    obtain ⟨hb, -⟩ := h
    cases hb
    exact Or.inl List.mem_cons_self

/-- Links lead from cells of a segment to cells of it. -/
theorem link_mem {b : A} (h : Segment next p l none) (ha : a ∈ l) (hb : next a = some b) :
    b ∈ l := by
  obtain ⟨l₁, l₂, rfl, -, hrest⟩ := h.cut ha
  rw [hb] at hrest
  have hmem : b ∈ l₂ := hrest.first_mem.resolve_right (Option.some_ne_none b).symm
  exact List.mem_append_right _ (List.mem_cons_of_mem _ hmem)

/-- No link leads back to the first pointer. -/
theorem link_ne_first (h : Segment next p l none) (ha : a ∈ l) : next a ≠ p := by
  rintro rfl
  obtain ⟨l₁, l₂, rfl, -, hrest⟩ := h.cut ha
  have hlength := congrArg List.length (h.unique hrest)
  simp at hlength
  omega

/-- A segment in the image of the cells. -/
theorem map {B : Type*} {next' : B → Option B} (f : A → B) (h : Segment next p l q)
    (hnext : ∀ a ∈ l, next' (f a) = (next a).map f) :
    Segment next' (p.map f) (l.map f) (q.map f) := by
  induction l generalizing p with
  | nil => exact congrArg (Option.map f) h
  | cons a l ih =>
    obtain ⟨rfl, hrest⟩ := h
    refine ⟨rfl, ?_⟩
    rw [hnext a List.mem_cons_self]
    exact ih hrest fun b hb => hnext b (List.mem_cons_of_mem _ hb)

theorem eq_nil (h : Segment next none l q) : l = [] := by
  cases l with
  | nil => rfl
  | cons b l => cases h.1

end Segment

/-! ## Linked stacks -/

/-- From `p` the links lead through the cells `l` to null, and their data is the
list of values `q`. -/
structure LinkedStack {V : Type*} (next : A → Option A) (data : A → Option V) (p : Option A)
    (l : List A) (q : List V) : Prop where
  chain : Segment next p l none
  data_eq : l.map data = q.map some

namespace LinkedStack
variable {V : Type*} {next next' : A → Option A} {data data' : A → Option V} {p : Option A}
  {a : A} {l : List A} {q : List V}

theorem empty : LinkedStack next data none [] [] := ⟨rfl, rfl⟩

/-- **The frame rule**: only the cells in the stack matter. -/
theorem congr (h : LinkedStack next data p l q) (hnext : ∀ a ∈ l, next' a = next a)
    (hdata : ∀ a ∈ l, data' a = data a) : LinkedStack next' data' p l q :=
  ⟨h.chain.congr hnext, by rw [← h.data_eq]; exact List.map_congr_left hdata⟩

/-- A cell linked to the first one is the new first one. -/
theorem push {v : V} (h : LinkedStack next data (next a) l q) (hv : data a = some v) :
    LinkedStack next data (some a) (a :: l) (v :: q) :=
  ⟨⟨rfl, h.chain⟩, by simp [hv, h.data_eq]⟩

/-- The first cell and what is left without it. -/
theorem pop (h : LinkedStack next data (some a) l q) :
    ∃ l' v q', l = a :: l' ∧ q = v :: q' ∧ data a = some v ∧
      LinkedStack next data (next a) l' q' := by
  obtain ⟨l', rfl⟩ := h.chain.exists_cons
  cases q with
  | nil => simpa using h.data_eq
  | cons v q' =>
    have hdata := h.data_eq
    simp only [List.map_cons, List.cons.injEq] at hdata
    exact ⟨l', v, q', rfl, rfl, hdata.1, h.chain.2, hdata.2⟩

theorem eq_nil_of_none (h : LinkedStack next data none l q) : l = [] ∧ q = [] := by
  have hl := h.chain.eq_nil
  subst hl
  exact ⟨rfl, by simpa using h.data_eq.symm⟩

theorem nodup (h : LinkedStack next data p l q) : l.Nodup := h.chain.nodup

end LinkedStack

/-- A cell can be appended to a stack of cells: the last one's link is set to it. -/
theorem Segment.snoc [DecidableEq A] {next : A → Option A} {p : Option A} {a n : A} {l : List A}
    (h : Segment next p (l ++ [a]) none) (hn : n ∉ l ++ [a]) (hnull : next n = none) :
    Segment (Function.update next a (some n)) p (l ++ [a] ++ [n]) none := by
  obtain ⟨q, hl, rfl, -⟩ := Segment.append_iff.mp h
  have hnodup := h.nodup
  have ha : a ∉ l := fun hmem =>
    List.disjoint_of_nodup_append hnodup hmem (List.mem_singleton.mpr rfl)
  have hna : n ≠ a := fun he => hn (by simp [he])
  have hfront : Segment (Function.update next a (some n)) p l (some a) :=
    hl.congr fun b hb => Function.update_of_ne (ne_of_mem_of_not_mem hb ha) _ _
  rw [List.append_assoc]
  refine hfront.append ⟨rfl, ?_⟩
  rw [Function.update_self]
  exact ⟨rfl, by rw [Function.update_of_ne hna]; exact hnull⟩

/-! ## Linked queues with a dummy cell -/

/-- From `p` the links lead through the cells `l`, whose data are the values `q`, to the
cell `tl`, which holds no value and has a null link. -/
structure LinkedQueue {V : Type*} (next : A → Option A) (data : A → Option V) (p : Option A)
    (l : List A) (tl : A) (q : List V) : Prop where
  chain : Segment next p l (some tl)
  data_eq : l.map data = q.map some
  null : next tl = none
  dummy : data tl = none

namespace LinkedQueue
variable {V : Type*} {next next' : A → Option A} {data data' : A → Option V} {p : Option A}
  {a tl n : A} {l : List A} {q : List V}

theorem nodup (h : LinkedQueue next data p l tl q) : (l ++ [tl]).Nodup :=
  (h.null ▸ h.chain.concat).nodup

theorem tail_not_mem (h : LinkedQueue next data p l tl q) : tl ∉ l := by
  intro hmem
  exact List.disjoint_of_nodup_append h.nodup hmem (List.mem_singleton.mpr rfl)

/-- **The frame rule**: only the cells in the queue matter. -/
theorem congr (h : LinkedQueue next data p l tl q)
    (hnext : ∀ a, a ∈ l ∨ a = tl → next' a = next a)
    (hdata : ∀ a, a ∈ l ∨ a = tl → data' a = data a) : LinkedQueue next' data' p l tl q where
  chain := h.chain.congr fun a ha => hnext a (Or.inl ha)
  data_eq := by
    rw [← h.data_eq]
    exact List.map_congr_left fun a ha => hdata a (Or.inl ha)
  null := (hnext tl (Or.inr rfl)).trans h.null
  dummy := (hdata tl (Or.inr rfl)).trans h.dummy

/-- The queue is empty exactly when it starts with the dummy cell. -/
theorem eq_nil_iff (h : LinkedQueue next data p l tl q) : q = [] ↔ p = some tl := by
  have hlength : l.length = q.length := by simpa using congrArg List.length h.data_eq
  cases l with
  | nil => exact iff_of_true (List.eq_nil_of_length_eq_zero hlength.symm) h.chain
  | cons a l =>
    refine iff_of_false (fun hq => by simp [hq] at hlength) fun hp => ?_
    have hcell : p = some a := h.chain.1
    rw [hp] at hcell
    exact h.tail_not_mem (Option.some.inj hcell ▸ List.mem_cons_self)

/-- The dummy cell is filled and linked to a new one. -/
theorem push [DecidableEq A] (h : LinkedQueue next data p l tl q) (v : V)
    (hne : n ≠ tl) (hnull : next n = none) (hdummy : data n = none) :
    LinkedQueue (Function.update next tl (some n)) (Function.update data tl (some v)) p
      (l ++ [tl]) n (q ++ [v]) where
  chain := by
    have hfront : Segment (Function.update next tl (some n)) p l (some tl) :=
      h.chain.congr fun b hb => Function.update_of_ne (ne_of_mem_of_not_mem hb h.tail_not_mem) _ _
    exact hfront.append ⟨rfl, by rw [Function.update_self]; rfl⟩
  data_eq := by
    have hfront : l.map (Function.update data tl (some v)) = l.map data :=
      List.map_congr_left fun b hb =>
        Function.update_of_ne (ne_of_mem_of_not_mem hb h.tail_not_mem) _ _
    simp [hfront, h.data_eq]
  null := by rw [Function.update_of_ne hne]; exact hnull
  dummy := by rw [Function.update_of_ne hne]; exact hdummy

/-- The first cell of a queue that is not empty, and what is left without it. -/
theorem pop {v : V} (h : LinkedQueue next data p l tl (v :: q)) :
    ∃ a l', l = a :: l' ∧ p = some a ∧ a ∉ l' ∧ a ≠ tl ∧ data a = some v ∧
      LinkedQueue next data (next a) l' tl q := by
  have hnodup := h.nodup
  cases l with
  | nil => simpa using h.data_eq
  | cons a l' =>
    have hdata := h.data_eq
    simp only [List.map_cons, List.cons.injEq] at hdata
    obtain ⟨hp, hrest⟩ := h.chain
    rw [List.cons_append, List.nodup_cons, List.mem_append, List.mem_singleton, not_or] at hnodup
    exact ⟨a, l', rfl, hp, hnodup.1.1, hnodup.1.2, hdata.1,
      ⟨hrest, hdata.2, h.null, h.dummy⟩⟩

end LinkedQueue
/-! ## What stands behind an element of a list -/

section Follower
variable [DecidableEq A] {next : A → Option A} {a b c : A} {l l₁ l₂ l₃ : List A}

/-- The element right behind `a` in the list. -/
def follower : List A → A → Option A
  | [], _ => none
  | b :: l, a => if a = b then l.head? else follower l a

theorem follower_cons_self : follower (a :: l) a = l.head? := if_pos rfl

theorem follower_cons_of_ne (h : a ≠ b) : follower (b :: l) a = follower l a := if_neg h

/-- Elements further in front do not matter. -/
theorem follower_append_right (h : a ∉ l₁) : follower (l₁ ++ l₂) a = follower l₂ a := by
  induction l₁ with
  | nil => rfl
  | cons b l₁ ih =>
    rw [List.mem_cons, not_or] at h
    rw [List.cons_append, follower_cons_of_ne h.1, ih h.2]

/-- Behind an element of the front only the first element of the rest can matter. -/
theorem follower_append_left (h : a ∈ l₁) (hhead : l₂.head? = l₃.head?) :
    follower (l₁ ++ l₂) a = follower (l₁ ++ l₃) a := by
  induction l₁ with
  | nil => cases h
  | cons b l₁ ih =>
    by_cases hab : a = b
    · subst b
      rw [List.cons_append, List.cons_append, follower_cons_self, follower_cons_self,
        List.head?_append, List.head?_append, hhead]
    · rw [List.cons_append, List.cons_append, follower_cons_of_ne hab, follower_cons_of_ne hab,
        ih ((List.mem_cons.mp h).resolve_left hab)]

theorem exists_split_of_follower (h : follower l a = some b) :
    ∃ l₁ l₂, l = l₁ ++ a :: b :: l₂ ∧ a ∉ l₁ := by
  induction l with
  | nil => cases h
  | cons c l ih =>
    by_cases hac : a = c
    · subst c
      rw [follower_cons_self] at h
      obtain ⟨l₂, rfl⟩ := List.head?_eq_some_iff.mp h
      exact ⟨[], l₂, rfl, List.not_mem_nil⟩
    · rw [follower_cons_of_ne hac] at h
      obtain ⟨l₁, l₂, rfl, hnot⟩ := ih h
      exact ⟨c :: l₁, l₂, rfl, fun hmem => hnot ((List.mem_cons.mp hmem).resolve_left hac)⟩

theorem mem_of_follower (h : follower l a = some b) : a ∈ l ∧ b ∈ l := by
  obtain ⟨l₁, l₂, rfl, -⟩ := exists_split_of_follower h
  simp

/-- An element is taken out: the one before it is followed by the one behind it. -/
theorem follower_erase (hnodup : l.Nodup) (h : follower l a = some b) (hc : c ≠ b) :
    follower (l.erase b) c = if c = a then follower l b else follower l c := by
  obtain ⟨l₁, l₂, rfl, ha⟩ := exists_split_of_follower h
  have hb : b ∉ l₁ ++ [a] := fun hmem => by
    rw [← List.singleton_append, ← List.append_assoc] at hnodup
    exact List.disjoint_of_nodup_append hnodup hmem List.mem_cons_self
  rw [List.mem_append, List.mem_singleton, not_or] at hb
  have herase : (l₁ ++ a :: b :: l₂).erase b = l₁ ++ a :: l₂ := by
    rw [List.erase_append_right _ hb.1, List.erase_cons_tail (by simp [Ne.symm hb.2]),
      List.erase_cons_head]
  rw [herase]
  split
  · next hca =>
    subst c
    rw [follower_append_right ha, follower_cons_self, follower_append_right hb.1,
      follower_cons_of_ne hb.2, follower_cons_self]
  · next hca =>
    by_cases hmem : c ∈ l₁
    · exact follower_append_left hmem rfl
    · rw [follower_append_right hmem, follower_append_right hmem, follower_cons_of_ne hca,
        follower_cons_of_ne hca, follower_cons_of_ne hc]

/-- Links that lead from each element to the one behind it, or nowhere, lead through a front
of the list. -/
theorem exists_segment_of_follower (hnodup : l.Nodup)
    (h : ∀ a ∈ l, next a = follower l a ∨ next a = none) :
    ∃ l', l' <+: l ∧ Segment next l.head? l' none := by
  induction l with
  | nil => exact ⟨[], List.prefix_rfl, rfl⟩
  | cons b l ih =>
    obtain ⟨hb, hl⟩ := List.nodup_cons.mp hnodup
    obtain ⟨l', hpre, hseg⟩ := ih hl fun a ha => by
      have hne : a ≠ b := ne_of_mem_of_not_mem ha hb
      rw [← follower_cons_of_ne (l := l) hne]
      exact h a (List.mem_cons_of_mem b ha)
    rcases h b List.mem_cons_self with hnext | hnull
    · rw [follower_cons_self] at hnext
      exact ⟨b :: l', List.prefix_cons_inj b |>.mpr hpre, rfl, hnext ▸ hseg⟩
    · exact ⟨[b], by simp, rfl, hnull⟩

/-- Links that lead from each element to the one behind it. -/
theorem segment_of_follower (hnodup : l.Nodup) (h : ∀ a ∈ l, next a = follower l a) :
    Segment next l.head? l none := by
  induction l with
  | nil => rfl
  | cons b l ih =>
    obtain ⟨hb, hl⟩ := List.nodup_cons.mp hnodup
    refine ⟨rfl, ?_⟩
    rw [h b List.mem_cons_self, follower_cons_self]
    refine ih hl fun a ha => ?_
    rw [← follower_cons_of_ne (l := l) (ne_of_mem_of_not_mem ha hb)]
    exact h a (List.mem_cons_of_mem b ha)

/-- The elements behind `a` in the list. -/
def behind : List A → A → List A
  | [], _ => []
  | b :: l, a => if a = b then l else behind l a

theorem behind_cons_self : behind (a :: l) a = l := if_pos rfl

theorem behind_cons_of_ne (h : a ≠ b) : behind (b :: l) a = behind l a := if_neg h

theorem head?_behind : (behind l a).head? = follower l a := by
  induction l with
  | nil => rfl
  | cons b l ih =>
    by_cases hab : a = b
    · subst b
      rw [behind_cons_self, follower_cons_self]
    · rw [behind_cons_of_ne hab, follower_cons_of_ne hab, ih]

theorem behind_suffix : behind l a <:+ l := by
  induction l with
  | nil => exact List.suffix_rfl
  | cons b l ih =>
    by_cases hab : a = b
    · subst b
      rw [behind_cons_self]
      exact List.suffix_cons a l
    · rw [behind_cons_of_ne hab]
      exact ih.trans (List.suffix_cons b l)

theorem mem_tail_of_behind (h : b ∈ behind l a) : b ∈ l.tail := by
  cases l with
  | nil => cases h
  | cons c l =>
    by_cases hac : a = c
    · subst c
      rwa [behind_cons_self] at h
    · rw [behind_cons_of_ne hac] at h
      exact behind_suffix.subset h

/-- One step further along the list. -/
theorem behind_of_follower (hnodup : l.Nodup) (h : follower l a = some b) :
    behind l a = b :: behind l b := by
  induction l with
  | nil => cases h
  | cons c l ih =>
    obtain ⟨hc, hl⟩ := List.nodup_cons.mp hnodup
    by_cases hac : a = c
    · subst c
      rw [follower_cons_self] at h
      obtain ⟨l', rfl⟩ := List.head?_eq_some_iff.mp h
      have hba : b ≠ a := fun he => hc (he ▸ List.mem_cons_self)
      rw [behind_cons_self, behind_cons_of_ne hba, behind_cons_self]
    · rw [follower_cons_of_ne hac] at h
      have hbc : b ≠ c := fun he => hc (he ▸ (mem_of_follower h).2)
      rw [behind_cons_of_ne hac, behind_cons_of_ne hbc, ih hl h]

/-- Another element is taken out. -/
theorem behind_erase (hnodup : l.Nodup) (h : a ≠ b) :
    behind (l.erase b) a = (behind l a).erase b := by
  induction l with
  | nil => rfl
  | cons c l ih =>
    obtain ⟨hc, hl⟩ := List.nodup_cons.mp hnodup
    by_cases hcb : c = b
    · subst c
      rw [List.erase_cons_head, behind_cons_of_ne h,
        List.erase_of_not_mem fun hmem => hc (behind_suffix.subset hmem)]
    · rw [List.erase_cons_tail (by simpa using hcb)]
      by_cases hac : a = c
      · subst c
        rw [behind_cons_self, behind_cons_self]
      · rw [behind_cons_of_ne hac, behind_cons_of_ne hac, ih hl]

end Follower

end Sundries
