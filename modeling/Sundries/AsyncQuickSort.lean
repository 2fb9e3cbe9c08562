import Sundries.QuickSort

/-!
# `sequential_quick_sort` and `parallel_quick_sort`

`parallel_quick_sort` sorts the lower part in a task of `std::async` and the higher part by
recursion, and then splices what the future has.  The task may have a thread of its own from the
beginning or be deferred until `get` is called, and each of the calls in it likewise, so a call is
the tree of the calls that it waits for and a label is a path into it.
-/
namespace Sundries.AsyncQuickSort

open QuickSort (Sorts)
open QuickSort.State (Partitioned)

/-- A call of `parallel_quick_sort` before the statement that comes next; `fork` has `lower_part`
and what is left of `input`, and a future is the call of its task. -/
inductive Call (A : Type) where
  | entry (input : List A)
  | partition (pivot : A) (input : List A)
  | fork (pivot : A) (lowerPart input : List A)
  /-- In the recursive call; `launched` if the task has a thread of its own. -/
  | higher (pivot : A) (launched : Bool) (newLower newHigher : Call A)
  | get (pivot : A) (newLower : Call A) (newHigher : List A)
  | returned (result : List A)
  deriving DecidableEq

/-- `partition low high` is the `std::partition` that leaves `low` before the divide point. -/
inductive Label (A : Type) where
  | splicePivot
  | partition (low high : List A)
  | async (launched : Bool)
  | spliceHigher
  | spliceLower
  | lower (l : Label A)
  | higher (l : Label A)

variable {A : Type}

section Step
variable [LT A] [DecidableEq A] [DecidableLT A]

def step : Call A → Label A → Option (Call A)
  | .entry [], .splicePivot => some (.returned [])
  | .entry (pivot :: input), .splicePivot => some (.partition pivot input)
  | .partition pivot input, .partition low high =>
    if Partitioned pivot low high input then some (.fork pivot low high) else none
  | .fork pivot lowerPart input, .async launched =>
    some (.higher pivot launched (.entry lowerPart) (.entry input))
  | .higher pivot launched newLower newHigher, .lower l =>
    if launched then (step newLower l).map fun c => .higher pivot launched c newHigher else none
  | .higher pivot launched newLower newHigher, .higher l =>
    (step newHigher l).map fun c => .higher pivot launched newLower c
  | .higher pivot _ newLower (.returned result), .spliceHigher => some (.get pivot newLower result)
  -- a task that has been deferred runs now
  | .get pivot newLower newHigher, .lower l =>
    (step newLower l).map fun c => .get pivot c newHigher
  | .get pivot (.returned result) newHigher, .spliceLower =>
    some (.returned (result ++ pivot :: newHigher))
  | _, _ => none

/-- `parallel_quick_sort(input)` -/
def parallelQuickSort (input : List A) : Machine (Call A) (Label A) := ⟨.entry input, step⟩

end Step

/-- **What a step does.** -/
inductive Moves [LT A] : Call A → Label A → Call A → Prop
  | nil : Moves (.entry []) .splicePivot (.returned [])
  | splicePivot {pivot : A} {input : List A} :
      Moves (.entry (pivot :: input)) .splicePivot (.partition pivot input)
  | partition {pivot : A} {input low high : List A} (h : Partitioned pivot low high input) :
      Moves (.partition pivot input) (.partition low high) (.fork pivot low high)
  | async {pivot : A} {lowerPart input : List A} {launched : Bool} :
      Moves (.fork pivot lowerPart input) (.async launched)
        (.higher pivot launched (.entry lowerPart) (.entry input))
  | lowerLaunched {pivot : A} {launched : Bool} {c c' newHigher : Call A} {l : Label A}
      (h : Moves c l c') :
      Moves (.higher pivot launched c newHigher) (.lower l)
        (.higher pivot launched c' newHigher)
  | higher {pivot : A} {launched : Bool} {c c' newLower : Call A} {l : Label A}
      (h : Moves c l c') :
      Moves (.higher pivot launched newLower c) (.higher l) (.higher pivot launched newLower c')
  | spliceHigher {pivot : A} {launched : Bool} {newLower : Call A} {result : List A} :
      Moves (.higher pivot launched newLower (.returned result)) .spliceHigher
        (.get pivot newLower result)
  | lower {pivot : A} {c c' : Call A} {newHigher : List A} {l : Label A} (h : Moves c l c') :
      Moves (.get pivot c newHigher) (.lower l) (.get pivot c' newHigher)
  | spliceLower {pivot : A} {result newHigher : List A} :
      Moves (.get pivot (.returned result) newHigher) .spliceLower
        (.returned (result ++ pivot :: newHigher))

theorem moves_of_step [LT A] [DecidableEq A] [DecidableLT A] {c c' : Call A} {l : Label A}
    (h : step c l = some c') : Moves c l c' := by
  induction c generalizing l c' with
  | entry input =>
    cases input <;> cases l <;> simp only [step, Option.some.injEq, reduceCtorEq] at h <;> subst h
    · exact .nil
    · exact .splicePivot
  | partition pivot input =>
    cases l <;> simp only [step, reduceCtorEq] at h
    obtain ⟨hparts, h⟩ := Option.ite_none_right_eq_some.mp h
    cases h
    exact .partition hparts
  | fork pivot lowerPart input =>
    cases l <;> simp only [step, Option.some.injEq, reduceCtorEq] at h
    subst h
    exact .async
  | higher pivot launched newLower newHigher ihLower ihHigher =>
    cases l with
    | lower l =>
      obtain ⟨-, h⟩ := Option.ite_none_right_eq_some.mp h
      obtain ⟨c, hc, rfl⟩ := Option.map_eq_some_iff.mp h
      exact .lowerLaunched (ihLower hc)
    | higher l =>
      obtain ⟨c, hc, rfl⟩ := Option.map_eq_some_iff.mp h
      exact .higher (ihHigher hc)
    | spliceHigher =>
      cases newHigher <;> simp only [step, Option.some.injEq, reduceCtorEq] at h
      subst h
      exact .spliceHigher
    | splicePivot | partition | async | spliceLower => simp [step] at h
  | get pivot newLower newHigher ih =>
    cases l with
    | lower l =>
      obtain ⟨c, hc, rfl⟩ := Option.map_eq_some_iff.mp h
      exact .lower (ih hc)
    | spliceLower =>
      cases newLower <;> simp only [step, Option.some.injEq, reduceCtorEq] at h
      subst h
      exact .spliceLower
    | splicePivot | partition | async | spliceHigher | higher => simp [step] at h
  | returned result => simp [step] at h

/-! ## The number of steps -/

/-- The steps that are left. -/
def Call.size : Call A → ℕ
  | .entry input => 6 * input.length + 1
  | .partition _ input => 6 * input.length + 6
  | .fork _ lowerPart input => 6 * (lowerPart.length + input.length) + 5
  | .higher _ _ newLower newHigher => newLower.size + newHigher.size + 2
  | .get _ newLower _ => newLower.size + 1
  | .returned _ => 0

theorem Moves.size [LT A] {c c' : Call A} {l : Label A} (h : Moves c l c') :
    c'.size + 1 = c.size := by
  induction h with
  | nil | splicePivot | spliceHigher | spliceLower => simp [Call.size] <;> omega
  | partition hparts =>
    have hlength := hparts.1.length_eq
    rw [List.length_append] at hlength
    simp only [Call.size]
    omega
  | async | lowerLaunched _ ih | higher _ ih | lower _ ih =>
    simp only [Call.size]
    omega

/-- A `std::partition` that keeps the order on both sides. -/
def stablePartition [LT A] [DecidableLT A] (pivot : A) (input : List A) :
    { x : List A × List A // Partitioned pivot x.1 x.2 input } :=
  ⟨(input.filter (· < pivot), input.filter fun x => !decide (x < pivot)),
    List.filter_append_perm _ input, fun _ hx => of_decide_eq_true (List.mem_filter.mp hx).2,
    fun _ hy => by simpa using (List.mem_filter.mp hy).2⟩

section Progress
variable [LT A] [DecidableEq A] [DecidableLT A]

/-- A call that has not returned goes on. -/
theorem exists_step (c : Call A) : (∃ r, c = .returned r) ∨ ∃ l c', step c l = some c' := by
  induction c with
  | entry input => cases input <;> exact .inr ⟨.splicePivot, _, rfl⟩
  | partition pivot input =>
    exact .inr ⟨.partition _ _, _, if_pos (stablePartition pivot input).2⟩
  | fork pivot lowerPart input => exact .inr ⟨.async true, _, rfl⟩
  | higher pivot launched newLower newHigher _ ih =>
    rcases ih with ⟨r, rfl⟩ | ⟨l, c', hstep⟩
    · exact .inr ⟨.spliceHigher, _, rfl⟩
    · exact .inr ⟨.higher l, _, by rw [step, hstep]; rfl⟩
  | get pivot newLower newHigher ih =>
    rcases ih with ⟨r, rfl⟩ | ⟨l, c', hstep⟩
    · exact .inr ⟨.spliceLower, _, rfl⟩
    · exact .inr ⟨.lower l, _, by rw [step, hstep]; rfl⟩
  | returned result => exact .inl ⟨result, rfl⟩

theorem size_run {input : List A} {c : Call A} {ls : List (Label A)}
    (hrun : (parallelQuickSort input).run (parallelQuickSort input).init ls = some c) :
    ls.length + c.size = 6 * input.length + 1 := by
  refine (parallelQuickSort input).run_induction
    (P := fun ls c => ls.length + c.size = 6 * input.length + 1) (Nat.zero_add _) ?_ hrun
  intro ls c l c' h hstep
  have hsize := (moves_of_step hstep).size
  rw [List.length_append, List.length_singleton]
  omega

end Progress

/-! ## What is returned -/

variable [LT A]

/-- The call has been given `given`, less what it has taken apart. -/
def Call.Sorting : Call A → List A → Prop
  | .entry input, given => input = given
  | .partition pivot input, given => pivot :: input = given
  | .fork pivot lowerPart input, given => ∃ rest,
      Partitioned pivot lowerPart input rest ∧ pivot :: rest = given
  | .higher pivot _ newLower newHigher, given => ∃ low high rest, newLower.Sorting low ∧
      newHigher.Sorting high ∧ Partitioned pivot low high rest ∧ pivot :: rest = given
  | .get pivot newLower newHigher, given => ∃ low high rest, newLower.Sorting low ∧
      Sorts newHigher high ∧ Partitioned pivot low high rest ∧ pivot :: rest = given
  | .returned result, given => Sorts result given

theorem Moves.sorting {c c' : Call A} {l : Label A} (h : Moves c l c') {given : List A}
    (hc : c.Sorting given) : c'.Sorting given := by
  induction h generalizing given with
  | nil => exact hc ▸ Sorts.nil
  | splicePivot => exact hc
  | partition hparts => exact ⟨_, hparts, hc⟩
  | async =>
    obtain ⟨rest, hparts, hgiven⟩ := hc
    exact ⟨_, _, rest, rfl, rfl, hparts, hgiven⟩
  | lowerLaunched _ ih =>
    obtain ⟨low, high, rest, hlower, hhigher, hrest⟩ := hc
    exact ⟨low, high, rest, ih hlower, hhigher, hrest⟩
  | higher _ ih =>
    obtain ⟨low, high, rest, hlower, hhigher, hrest⟩ := hc
    exact ⟨low, high, rest, hlower, ih hhigher, hrest⟩
  | spliceHigher => exact hc
  | lower _ ih =>
    obtain ⟨low, high, rest, hlower, hrest⟩ := hc
    exact ⟨low, high, rest, ih hlower, hrest⟩
  | spliceLower =>
    obtain ⟨low, high, rest, hlower, hhigher, hparts, hgiven⟩ := hc
    exact Sorts.splice hlower hhigher hparts (hgiven ▸ .refl _)

/-- `sequential_quick_sort(input)`, with any `std::partition`. -/
def sequentialQuickSort
    (partition : (pivot : A) → (input : List A) →
      { x : List A × List A // Partitioned pivot x.1 x.2 input }) : List A → List A
  | [] => []
  | pivot :: input =>
    sequentialQuickSort partition (partition pivot input).1.1 ++
      pivot :: sequentialQuickSort partition (partition pivot input).1.2
termination_by input => input.length
decreasing_by
  all_goals
    have hlength := (partition pivot input).2.1.length_eq
    rw [List.length_append] at hlength
    simp only [List.length_cons]
    omega

theorem sorts_sequentialQuickSort
    (partition : (pivot : A) → (input : List A) →
      { x : List A × List A // Partitioned pivot x.1 x.2 input }) (input : List A) :
    Sorts (sequentialQuickSort partition input) input := by
  induction input using sequentialQuickSort.induct partition with
  | case1 =>
    rw [sequentialQuickSort]
    exact Sorts.nil
  | case2 pivot input ihLower ihHigher =>
    rw [sequentialQuickSort]
    exact Sorts.splice ihLower ihHigher (partition pivot input).2 (.refl _)

/-- Where `<` is total, there is only one way to sort. -/
theorem Sorts.unique {r r' l : List A} (hstrict : IsStrictOrder A (· < ·))
    (htotal : ∀ x y : A, x < y ∨ x = y ∨ y < x) (h : Sorts r l) (h' : Sorts r' l) : r = r' := by
  refine List.Perm.eq_of_pairwise (fun x y _ _ hyx hxy => ?_) (h.2 hstrict) (h'.2 hstrict)
    (h.1.trans h'.1.symm)
  exact ((htotal x y).resolve_left hxy).resolve_right hyx

/-- **Both sorts sort.**  Whatever tasks are launched or deferred, however the threads are
interleaved and whatever the partitions are, `parallel_quick_sort` takes six steps for each element
and one more, does not stop before it has returned, and returns what `sequential_quick_sort`
does up to the order of equivalent elements. -/
theorem parallelQuickSort_sorts [DecidableEq A] [DecidableLT A]
    (partition : (pivot : A) → (input : List A) →
      { x : List A × List A // Partitioned pivot x.1 x.2 input }) {input : List A} {c : Call A}
    {ls : List (Label A)}
    (hrun : (parallelQuickSort input).run (parallelQuickSort input).init ls = some c) :
    ls.length ≤ 6 * input.length + 1 ∧
    (ls.length = 6 * input.length + 1 ↔ ∃ r, c = .returned r) ∧
    ((∃ r, c = .returned r) ∨ ∃ l c', step c l = some c') ∧
    ∀ r, c = .returned r → Sorts r input ∧ Sorts (sequentialQuickSort partition input) input ∧
      (IsStrictOrder A (· < ·) → (∀ x y : A, x < y ∨ x = y ∨ y < x) →
        r = sequentialQuickSort partition input) := by
  have hsize := size_run hrun
  have hsorting : c.Sorting input :=
    (Machine.reachable_of_run ls hrun).invariant (P := fun c => c.Sorting input) rfl
      fun _ _ _ h hstep => (moves_of_step hstep).sorting h
  have hsequential := sorts_sequentialQuickSort partition input
  refine ⟨by omega, ⟨fun hlength => ?_, ?_⟩, exists_step c, ?_⟩
  · rcases exists_step c with hreturned | ⟨l, c', hstep⟩
    · exact hreturned
    · have hmore := (moves_of_step hstep).size
      omega
  · rintro ⟨r, rfl⟩
    exact hsize
  · rintro r rfl
    exact ⟨hsorting, hsequential, fun hstrict htotal => Sorts.unique hstrict htotal hsorting
      hsequential⟩

/-- The lower part is deferred until `get`; in it the lower part has a thread. -/
def deferred : List (Label ℕ) :=
  [.splicePivot, .partition [1] [], .async false, .higher .splicePivot, .spliceHigher,
    .lower .splicePivot, .lower (.partition [] []), .lower (.async true),
    .lower (.lower .splicePivot), .lower (.higher .splicePivot), .lower .spliceHigher,
    .lower .spliceLower, .spliceLower]

theorem deferred_sorts :
    (parallelQuickSort [2, 1]).run (parallelQuickSort [2, 1]).init deferred =
      some (.returned [1, 2]) ∧ [1, 2] = sequentialQuickSort stablePartition [2, 1] := by
  have hrun : (parallelQuickSort [2, 1]).run (parallelQuickSort [2, 1]).init deferred =
      some (.returned [1, 2]) := by decide
  obtain ⟨-, -, heq⟩ := (parallelQuickSort_sorts stablePartition hrun).2.2.2 _ rfl
  exact ⟨hrun, heq { irrefl := Nat.lt_irrefl, trans := fun _ _ _ => Nat.lt_trans }
    Nat.lt_trichotomy⟩

end Sundries.AsyncQuickSort
