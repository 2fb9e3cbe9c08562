import Mathlib.Algebra.Group.Nat.Defs
import Mathlib.Data.List.Nodup
import Sundries.BlockPartition
import Sundries.ForkJoin

/-!
# `parallel_for_each`

Each further block of the range has a thread of its own that applies `f` to the elements of
the block in order; the calling thread does the final block.  An application is one step, so
the runs of the machine are the interleavings of the applications.  `f` is given a reference
to an element: what it does may depend on which element this is and on its value, and it may
throw, having changed the element or not.

A block task that throws keeps its exception in its future.  An exception of the final block
leaves the function at once; otherwise the futures are read in the order of the blocks, and
the first exception among them leaves the function.  On each way out `join_threads` joins the
threads.
-/
namespace Sundries

variable {V E : Type}

/-- `std::for_each` on the elements from position `pos` on: what they are afterwards, and the
exception that ended it, if any. -/
def forEach (f : ℕ → V → V × Option E) : ℕ → List V → List V × Option E
  | _, [] => ([], none)
  | pos, v :: vals =>
    match f pos v with
    | (v', some e) => (v' :: vals, some e)
    | (v', none) =>
      let rest := forEach f (pos + 1) vals
      (v' :: rest.1, rest.2)

namespace ParallelForEach

/-- The range: its contents, and the positions to which `f` has been applied. -/
structure Elements (V : Type) where
  contents : List V
  applied : List ℕ

/-- The element at `pos` has become `v`. -/
def Elements.apply (s : Elements V) (pos : ℕ) (v : V) : Elements V :=
  ⟨s.contents.set pos v, s.applied ++ [pos]⟩

/-- The loop of a `std::for_each`: where its iterator is and where it ends. -/
structure Loop where
  pos : ℕ
  last : ℕ

/-- A round of the loop; an application past the elements has undefined behaviour. -/
def forEachStep (f : ℕ → V → V × Option E) (s : Elements V) (loop : Loop) :
    Option (Elements V × (Loop ⊕ Except E Unit)) :=
  if loop.pos = loop.last then some (s, .inr (.ok ()))
  else
    match s.contents[loop.pos]? with
    | none => none
    | some v =>
      match f loop.pos v with
      | (v', none) => some (s.apply loop.pos v', .inl ⟨loop.pos + 1, loop.last⟩)
      | (v', some e) => some (s.apply loop.pos v', .inr (.error e))

/-- The threads and the calling one on their blocks. -/
def onBlocks (f : ℕ → V → V × Option E) (threads : List Block) (final : Block) :
    ForkJoin (Elements V) Loop Unit E Unit where
  work := forEachStep f
  workers := threads.map fun b => ⟨b.start, b.stop⟩
  own := ⟨final.start, final.stop⟩
  start := ()
  add _ _ := ()

/-- `parallel_for_each` on the elements `vals`. -/
def parallelForEach (w : ℕ) (hc : BitVec 32) (f : ℕ → V → V × Option E) (vals : List V) :
    Machine (ForkJoin.State (Elements V) Loop Unit E Unit) ForkJoin.Label :=
  match BlockPartition.partition w vals.length hc with
  | .empty => (onBlocks f [] ⟨0, 0⟩).machine ⟨vals, []⟩ (.done (.ok ()))
  | .undefined => (onBlocks f [] ⟨0, 0⟩).machine ⟨vals, []⟩ .fault
  | .blocks threads final => (onBlocks f threads final).program ⟨vals, []⟩

/-! ## How far a block is -/

variable {w : ℕ} {f : ℕ → V → V × Option E} {vals : List V} {threads : List Block} {final : Block}

/-- The exception that `f` throws on the element at `p`, if any. -/
def throwsAt (f : ℕ → V → V × Option E) (vals : List V) (p : ℕ) : Option E :=
  vals[p]?.bind fun v => (f p v).2

/-- What `f` makes of the element at `p`. -/
def after (f : ℕ → V → V × Option E) (vals : List V) (p : ℕ) : Option V :=
  vals[p]?.map fun v => (f p v).1

/-- `f` has been applied once to the elements of `b` before `pos`, and not yet to the others. -/
structure Progress (f : ℕ → V → V × Option E) (vals : List V) (b : Block) (pos : ℕ)
    (s : Elements V) : Prop where
  length : s.contents.length = vals.length
  inside : ∀ p ∈ s.applied, p < vals.length
  before : ∀ p, b.start ≤ p → p < pos → s.contents[p]? = after f vals p ∧ s.applied.count p = 1
  rest : ∀ p, pos ≤ p → p < b.stop → s.contents[p]? = vals[p]? ∧ s.applied.count p = 0

theorem progress_start (b : Block) : Progress f vals b b.start ⟨vals, []⟩ := by
  constructor
  · rfl
  · intro p hp
    cases hp
  · intro p hstart hlt
    omega
  · intro p _ _
    exact ⟨rfl, List.count_nil⟩

section Apply
variable {s : Elements V} {p q : ℕ} {v : V}

theorem apply_self (hp : p < s.contents.length) :
    (s.apply p v).contents[p]? = some v ∧
      (s.apply p v).applied.count p = s.applied.count p + 1 := by
  constructor
  · exact List.getElem?_set_self hp
  · show (s.applied ++ [p]).count p = _
    rw [List.count_append, List.count_singleton_self]

theorem apply_of_ne (hne : p ≠ q) :
    (s.apply p v).contents[q]? = s.contents[q]? ∧
      (s.apply p v).applied.count q = s.applied.count q := by
  constructor
  · exact List.getElem?_set_ne hne
  · show (s.applied ++ [p]).count q = _
    rw [List.count_append, List.count_cons_of_ne hne, List.count_nil, Nat.add_zero]

theorem mem_apply {hi : ℕ} (h : ∀ r ∈ s.applied, r < hi) (hp : p < hi) :
    ∀ r ∈ (s.apply p v).applied, r < hi := by
  intro r hr
  rcases List.mem_append.mp hr with hr | hr
  · exact h r hr
  · rw [List.mem_singleton.mp hr]
    exact hp

end Apply

/-- The block applies `f` to its next element. -/
theorem Progress.apply_self {b : Block} {pos : ℕ} {s : Elements V} (h : Progress f vals b pos s)
    (hstop : pos < b.stop) {v : V} (hv : vals[pos]? = some v) :
    Progress f vals b (pos + 1) (s.apply pos (f pos v).1) := by
  obtain ⟨hlt, -⟩ := List.getElem?_eq_some_iff.mp hv
  have hlen := h.length
  obtain ⟨hget, hcount⟩ := ParallelForEach.apply_self (s := s) (v := (f pos v).1)
    (show pos < s.contents.length by omega)
  constructor
  · rw [Elements.apply, List.length_set, hlen]
  · exact mem_apply h.inside hlt
  · intro p hp hppos
    by_cases heq : pos = p
    · subst heq
      rw [hget, hcount, (h.rest pos (Nat.le_refl _) hstop).2, after, hv]
      exact ⟨rfl, rfl⟩
    · obtain ⟨hget', hcount'⟩ := apply_of_ne (s := s) (v := (f pos v).1) heq
      rw [hget', hcount']
      exact h.before p hp (by omega)
  · intro p hp hpstop
    obtain ⟨hget', hcount'⟩ := apply_of_ne (s := s) (v := (f pos v).1) (show pos ≠ p by omega)
    rw [hget', hcount']
    exact h.rest p (by omega) hpstop

/-- Another block applies `f` to an element of its own. -/
theorem Progress.apply_other {b : Block} {pos p : ℕ} {s : Elements V} (h : Progress f vals b pos s)
    (hpos : pos ≤ b.stop) (hp : p < vals.length) (hout : ¬ (b.start ≤ p ∧ p < b.stop)) (v : V)
    (hstart : b.start ≤ pos) : Progress f vals b pos (s.apply p v) := by
  constructor
  · rw [Elements.apply, List.length_set, h.length]
  · exact mem_apply h.inside hp
  · intro q hq hqpos
    obtain ⟨hget, hcount⟩ := apply_of_ne (s := s) (v := v) (show p ≠ q by omega)
    rw [hget, hcount]
    exact h.before q hq hqpos
  · intro q hq hqstop
    obtain ⟨hget, hcount⟩ := apply_of_ne (s := s) (v := v) (show p ≠ q by omega)
    rw [hget, hcount]
    exact h.rest q hq hqstop

/-! ## Each part does its block -/

/-- `f` throws on no element from `lo` up to `hi`. -/
def NoThrow (f : ℕ → V → V × Option E) (vals : List V) (lo hi : ℕ) : Prop :=
  ∀ p, lo ≤ p → p < hi → throwsAt f vals p = none

/-- The first element of `b` on which `f` throws is at `q`, and it throws `e` there. -/
structure ThrowsFirst (f : ℕ → V → V × Option E) (vals : List V) (b : Block) (q : ℕ) (e : E) :
    Prop where
  start_le : b.start ≤ q
  lt_stop : q < b.stop
  throws : throwsAt f vals q = some e
  before : NoThrow f vals b.start q

/-- Part `k` is at work on its block, and `f` has not thrown there. -/
def Local (f : ℕ → V → V × Option E) (vals : List V) (blocks : List Block) (k : ℕ) (s : Elements V)
    (loop : Loop) : Prop :=
  ∃ b, blocks[k]? = some b ∧ loop.last = b.stop ∧ b.start ≤ loop.pos ∧ loop.pos ≤ b.stop ∧
    Progress f vals b loop.pos s ∧ NoThrow f vals b.start loop.pos

/-- Part `k` has done its block, or has ended with the first exception of its block. -/
def Post (f : ℕ → V → V × Option E) (vals : List V) (blocks : List Block) (k : ℕ) (s : Elements V)
    (r : Except E Unit) : Prop :=
  ∃ b, blocks[k]? = some b ∧ b.start ≤ b.stop ∧
    match r with
    | .ok _ => Progress f vals b b.stop s ∧ NoThrow f vals b.start b.stop
    | .error e => ∃ q, ThrowsFirst f vals b q e ∧ Progress f vals b (q + 1) s

/-- An application in one block is none of the others' business. -/
theorem meets_apply (htiles : Tiles 0 (threads ++ [final]) vals.length) {j k p : ℕ} {b : Block}
    (hb : (threads ++ [final])[k]? = some b) (hp : b.start ≤ p ∧ p < b.stop) (hjk : j ≠ k)
    {s : Elements V} (v : V) (task : ForkJoin.Task Loop Unit E)
    (h : task.Meets (Local f vals (threads ++ [final]) j) (Post f vals (threads ++ [final]) j) s) :
    task.Meets (Local f vals (threads ++ [final]) j) (Post f vals (threads ++ [final]) j)
      (s.apply p v) := by
  obtain ⟨-, -, hhi⟩ := htiles.mem (List.mem_of_getElem? hb)
  have hout : ∀ {c : Block}, (threads ++ [final])[j]? = some c → ¬ (c.start ≤ p ∧ p < c.stop) :=
    fun hc => htiles.disjoint (Ne.symm hjk) hb hc hp
  cases task with
  | running loop =>
    obtain ⟨c, hc, hlast, hstart, hstop, hprog, hno⟩ := h
    exact ⟨c, hc, hlast, hstart, hstop, hprog.apply_other hstop (by omega) (hout hc) v hstart, hno⟩
  | ended r =>
    obtain ⟨c, hc, hle, hr⟩ := h
    refine ⟨c, hc, hle, ?_⟩
    cases r with
    | ok u =>
      obtain ⟨hprog, hno⟩ := hr
      exact ⟨hprog.apply_other (Nat.le_refl _) (by omega) (hout hc) v hle, hno⟩
    | error e =>
      obtain ⟨q, hq, hprog⟩ := hr
      have hlt := hq.lt_stop
      have hge := hq.start_le
      exact ⟨q, hq, hprog.apply_other (by omega) (by omega) (hout hc) v (by omega)⟩

theorem sound (htiles : Tiles 0 (threads ++ [final]) vals.length) :
    (onBlocks f threads final).Sound (Local f vals (threads ++ [final]))
      (Post f vals (threads ++ [final])) := by
  constructor
  rintro k s loop ⟨b, hb, hlast, hstart, hstop, hprog, hno⟩
  show ∃ shared' out, forEachStep f s loop = some (shared', out) ∧ _
  rw [forEachStep]
  by_cases hend : loop.pos = loop.last
  · rw [if_pos hend]
    rw [hend, hlast] at hprog hno
    exact ⟨s, _, rfl, ⟨b, hb, by omega, hprog, hno⟩, fun j task _ h => h⟩
  · rw [if_neg hend]
    have hlt : loop.pos < b.stop := by omega
    obtain ⟨-, -, hhi⟩ := htiles.mem (List.mem_of_getElem? hb)
    obtain ⟨v, hv⟩ : ∃ v, vals[loop.pos]? = some v :=
      ⟨_, List.getElem?_eq_getElem (show loop.pos < vals.length by omega)⟩
    -- the position lies in the block of this part, hence in no other's
    have hkeep : ∀ j task, j ≠ k → ForkJoin.Task.Meets (Local f vals (threads ++ [final]) j)
        (Post f vals (threads ++ [final]) j) s task →
        ForkJoin.Task.Meets (Local f vals (threads ++ [final]) j)
          (Post f vals (threads ++ [final]) j) (s.apply loop.pos (f loop.pos v).1) task :=
      fun j task hjk h => meets_apply htiles hb ⟨hstart, hlt⟩ hjk _ task h
    have hnext := hprog.apply_self hlt hv
    have hthrows : throwsAt f vals loop.pos = (f loop.pos v).2 := by rw [throwsAt, hv]; rfl
    rw [(hprog.rest loop.pos (Nat.le_refl _) hlt).1, hv]
    cases hf : f loop.pos v with
    | mk v' thrown =>
      rw [hf] at hkeep hnext hthrows
      cases thrown with
      | none =>
        simp only [hf]
        refine ⟨_, _, rfl, ⟨b, hb, hlast, ?_, ?_, hnext, ?_⟩, hkeep⟩
        · show b.start ≤ loop.pos + 1
          omega
        · show loop.pos + 1 ≤ b.stop
          omega
        · intro p hp hppos
          by_cases heq : p = loop.pos
          · rw [heq]
            exact hthrows
          · have hppos' : p < loop.pos + 1 := hppos
            exact hno p hp (by omega)
      | some e =>
        simp only [hf]
        exact ⟨_, _, rfl, ⟨b, hb, by omega, loop.pos, ⟨hstart, hlt, hthrows, hno⟩, hnext⟩, hkeep⟩

theorem local_start {blocks : List Block} (htiles : Tiles 0 blocks vals.length) {k : ℕ} {b : Block}
    (hb : blocks[k]? = some b) : Local f vals blocks k ⟨vals, []⟩ ⟨b.start, b.stop⟩ := by
  obtain ⟨-, hle, -⟩ := htiles.mem (List.mem_of_getElem? hb)
  refine ⟨b, hb, rfl, Nat.le_refl _, hle, progress_start b, fun p hp hlt => ?_⟩
  have : p < b.start := hlt
  omega

theorem local_workers (htiles : Tiles 0 (threads ++ [final]) vals.length) (i : ℕ) (loop : Loop)
    (hi : (onBlocks f threads final).workers[i]? = some loop) :
    Local f vals (threads ++ [final]) i ⟨vals, []⟩ loop := by
  obtain ⟨b, hb, rfl⟩ : ∃ b, threads[i]? = some b ∧ ⟨b.start, b.stop⟩ = loop := by
    simpa [onBlocks] using hi
  obtain ⟨hlt, -⟩ := List.getElem?_eq_some_iff.mp hb
  apply local_start htiles
  rw [List.getElem?_append_left hlt]
  exact hb

theorem local_own (htiles : Tiles 0 (threads ++ [final]) vals.length) :
    Local f vals (threads ++ [final]) (onBlocks f threads final).workers.length ⟨vals, []⟩
      (onBlocks f threads final).own := by
  have hlen : (onBlocks f threads final).workers.length = threads.length := List.length_map _
  rw [hlen]
  exact local_start htiles List.getElem?_concat_length

theorem forEachStep_rank {blocks : List Block} (k : ℕ) (s : Elements V) (loop : Loop)
    (s' : Elements V) (loop' : Loop) (h : Local f vals blocks k s loop)
    (hwork : forEachStep f s loop = some (s', .inl loop')) :
    loop'.last - loop'.pos < loop.last - loop.pos := by
  obtain ⟨b, -, hlast, -, hstop, -⟩ := h
  rw [forEachStep] at hwork
  split at hwork
  · cases hwork
  · split at hwork
    · cases hwork
    · split at hwork
      · cases hwork
        show loop.last - (loop.pos + 1) < loop.last - loop.pos
        omega
      · cases hwork

/-! ## How the function leaves -/

/-- The outcome that the exceptions on the blocks call for: that of the final block, or else that
of the first of the other blocks with one, or else none. -/
def RightOutcome (f : ℕ → V → V × Option E) (vals : List V) (threads : List Block) (final : Block) :
    Except E Unit → Prop
  | .ok _ => ∀ b ∈ threads ++ [final], NoThrow f vals b.start b.stop
  | .error e => (∃ q, ThrowsFirst f vals final q e) ∨
      NoThrow f vals final.start final.stop ∧ ∃ before b after q, threads = before ++ b :: after ∧
        ThrowsFirst f vals b q e ∧ ∀ c ∈ before, NoThrow f vals c.start c.stop

/-- What a thread has ended with is the end of its block. -/
theorem ended_thread {s : ForkJoin.State (Elements V) Loop Unit E Unit}
    (hinv : ForkJoin.Invariant (onBlocks f threads final) (Local f vals (threads ++ [final]))
      (Post f vals (threads ++ [final])) s) (hlen : s.tasks.length = threads.length) {i : ℕ}
    {r : Except E Unit} (hi : s.tasks[i]? = some (.ended r)) :
    ∃ b, threads[i]? = some b ∧ match r with
      | .ok _ => Progress f vals b b.stop s.shared ∧ NoThrow f vals b.start b.stop
      | .error e => ∃ q, ThrowsFirst f vals b q e := by
  obtain ⟨hlt, -⟩ := List.getElem?_eq_some_iff.mp hi
  obtain ⟨b, hb, -, hr⟩ : Post f vals (threads ++ [final]) i s.shared r := hinv.tasks i _ hi
  rw [List.getElem?_append_left (by omega)] at hb
  refine ⟨b, hb, ?_⟩
  cases r with
  | ok u => exact hr
  | error e =>
    obtain ⟨q, hq, -⟩ := hr
    exact ⟨q, hq⟩

/-- The first threads, if they have ended without an exception, have done their blocks. -/
theorem done_of_ended {s : ForkJoin.State (Elements V) Loop Unit E Unit}
    (hinv : ForkJoin.Invariant (onBlocks f threads final) (Local f vals (threads ++ [final]))
      (Post f vals (threads ++ [final])) s) (hlen : s.tasks.length = threads.length)
    {rs : List Unit} {rest : List (ForkJoin.Task Loop Unit E)}
    (htasks : s.tasks = rs.map (fun r => .ended (.ok r)) ++ rest) {j : ℕ} {b : Block}
    (hj : j < rs.length) (hb : threads[j]? = some b) :
    Progress f vals b b.stop s.shared ∧ NoThrow f vals b.start b.stop := by
  have hjat : s.tasks[j]? = some (.ended (.ok rs[j])) := by
    rw [htasks, List.getElem?_append_left (by rw [List.length_map]; exact hj), List.getElem?_map,
      List.getElem?_eq_getElem hj]
    rfl
  obtain ⟨b', hb', hend⟩ := ended_thread hinv hlen hjat
  cases hb.symm.trans hb'
  exact hend

/-- **The exit of the function on its blocks**: all threads have ended, the outcome is the right
one, and where it is no exception every block is done. -/
theorem exit (htiles : Tiles 0 (threads ++ [final]) vals.length)
    {s : ForkJoin.State (Elements V) Loop Unit E Unit} {o : Except E Unit}
    (h : ((onBlocks f threads final).program ⟨vals, []⟩).Reachable s) (hdone : s.main = .done o) :
    ForkJoin.AllEnded s.tasks ∧ RightOutcome f vals threads final o ∧
      (o = .ok () → ∀ b ∈ threads ++ [final], Progress f vals b b.stop s.shared) := by
  have hinv := (sound htiles).invariant (local_workers htiles) (local_own htiles) h
  obtain ⟨own, ends, htasks, hlen, hout, ⟨b, hb, -, hown⟩, -⟩ := hinv.of_done hdone
  have hcount : (onBlocks f threads final).workers.length = threads.length := List.length_map _
  rw [hcount] at hlen hb
  rw [List.getElem?_concat_length] at hb
  cases hb
  have hlen' : s.tasks.length = threads.length := by rw [htasks, List.length_map, hlen]
  refine ⟨?_, ?_⟩
  · intro task htask
    rw [htasks] at htask
    obtain ⟨r, -, rfl⟩ := List.mem_map.mp htask
    exact ⟨r, rfl⟩
  cases hout with
  | own e he =>
    subst he
    obtain ⟨q, hq, -⟩ := hown
    exact ⟨Or.inl ⟨q, hq⟩, fun heq => by cases heq⟩
  | worker last before e after hlast hsplit =>
    -- `get` came to this thread first, so those before it have done their blocks
    subst hlast
    refine ⟨Or.inr ⟨hown.2, ?_⟩, fun heq => by cases heq⟩
    have hat : s.tasks[before.length]? = some (.ended (.error e)) := by
      rw [hsplit, List.getElem?_append_right (by simp)]
      simp
    obtain ⟨b, hb, q, hq⟩ := ended_thread hinv hlen' hat
    obtain ⟨hlt, hget⟩ := List.getElem?_eq_some_iff.mp hb
    refine ⟨threads.take before.length, b, threads.drop (before.length + 1), q, ?_, hq, ?_⟩
    · rw [← hget, List.getElem_cons_drop, List.take_append_drop]
    · intro c hc
      obtain ⟨j, hj⟩ := List.mem_iff_getElem?.mp hc
      obtain ⟨hjlt, -⟩ := List.getElem?_eq_some_iff.mp hj
      rw [List.length_take] at hjlt
      rw [List.getElem?_take_of_lt (by omega)] at hj
      exact (done_of_ended hinv hlen' hsplit (by omega) hj).2
  | all last rs hlast hall =>
    subst hlast
    have hthread : ∀ b ∈ threads, Progress f vals b b.stop s.shared ∧
        NoThrow f vals b.start b.stop := by
      intro b hb
      obtain ⟨j, hj⟩ := List.mem_iff_getElem?.mp hb
      obtain ⟨hjlt, -⟩ := List.getElem?_eq_some_iff.mp hj
      have hrs : rs.length = threads.length := by rw [← hlen', hall, List.length_map]
      have hall' : s.tasks = rs.map (fun r => .ended (.ok r)) ++ [] := by rw [hall, List.append_nil]
      exact done_of_ended hinv hlen' hall' (by omega) hj
    have heach : ∀ b ∈ threads ++ [final], Progress f vals b b.stop s.shared ∧
        NoThrow f vals b.start b.stop := by
      intro b hb
      rcases List.mem_append.mp hb with hb | hb
      · exact hthread b hb
      · rw [List.mem_singleton.mp hb]
        exact hown
    exact ⟨fun b hb => (heach b hb).2, fun _ b hb => (heach b hb).1⟩

/-- If `f` throws on no element of any block it throws nowhere. -/
theorem throwsAt_eq_none (htiles : Tiles 0 (threads ++ [final]) vals.length)
    (hno : ∀ b ∈ threads ++ [final], NoThrow f vals b.start b.stop) (p : ℕ) :
    throwsAt f vals p = none := by
  by_cases hp : p < vals.length
  · obtain ⟨k, b, hb, hstart, hstop⟩ := htiles.cover (Nat.zero_le p) hp
    exact hno b (List.mem_of_getElem? hb) p hstart hstop
  · rw [throwsAt, List.getElem?_eq_none (by omega)]
    rfl

/-! ## The function without exceptions -/

/-- An `f` that does not throw changes each element on its own. -/
theorem forEach_getElem? (hf : ∀ p v, (f p v).2 = none) (pos : ℕ) (vals : List V) (i : ℕ) :
    (forEach f pos vals).1[i]? = vals[i]?.map fun v => (f (pos + i) v).1 := by
  induction vals generalizing pos i with
  | nil => rfl
  | cons v vals ih =>
    have hthrown := hf pos v
    cases hfv : f pos v with
    | mk v' thrown =>
      rw [hfv] at hthrown
      cases hthrown
      simp only [forEach, hfv]
      cases i with
      | zero => simp [hfv]
      | succ i =>
        rw [List.getElem?_cons_succ, List.getElem?_cons_succ, ih, Nat.add_assoc, Nat.add_comm 1 i]

/-- The blocks, all done, are the range done. -/
theorem done_eq_forEach (hf : ∀ p v, (f p v).2 = none)
    (htiles : Tiles 0 (threads ++ [final]) vals.length) {s : Elements V}
    (hdone : ∀ b ∈ threads ++ [final], Progress f vals b b.stop s) :
    s.applied.Perm (List.range vals.length) ∧ s.contents = (forEach f 0 vals).1 := by
  have hfinal := hdone final (List.mem_append_right _ (List.mem_singleton.mpr rfl))
  have heach : ∀ p, p < vals.length → s.contents[p]? = after f vals p ∧ s.applied.count p = 1 := by
    intro p hp
    obtain ⟨k, b, hb, hstart, hstop⟩ := htiles.cover (Nat.zero_le p) hp
    exact (hdone b (List.mem_of_getElem? hb)).before p hstart hstop
  constructor
  · rw [List.perm_iff_count]
    intro p
    by_cases hp : p < vals.length
    · rw [(heach p hp).2, List.count_eq_one_of_mem List.nodup_range (List.mem_range.mpr hp)]
    · rw [List.count_eq_zero_of_not_mem, List.count_eq_zero_of_not_mem]
      · rw [List.mem_range]
        exact hp
      · intro hmem
        exact hp (hfinal.inside p hmem)
  · apply List.ext_getElem?
    intro p
    rw [forEach_getElem? hf, Nat.zero_add]
    by_cases hp : p < vals.length
    · rw [(heach p hp).1, after]
    · have hlen := hfinal.length
      rw [List.getElem?_eq_none (by omega), List.getElem?_eq_none (by omega)]
      rfl

/-- **`parallel_for_each` is `std::for_each`** for an `f` that does not throw.  No step has
undefined behaviour, whatever the number of hardware threads and the order of the applications;
the call comes to an end, and then `f` has been applied to every element once and the contents
are those after `std::for_each`. -/
theorem parallelForEach_eq_forEach (w : ℕ) (hc : BitVec 32) (f : ℕ → V → V × Option E)
    (vals : List V) (hw : 32 ≤ w) (hfit : vals.length + 24 < 2 ^ w)
    (hf : ∀ p v, (f p v).2 = none) :
    (∀ s, (parallelForEach w hc f vals).Reachable s → s.main ≠ .fault ∧ ∀ o, s.main = .done o →
      o = .ok () ∧ s.shared.applied.Perm (List.range vals.length) ∧
        s.shared.contents = (forEach f 0 vals).1) ∧
      (parallelForEach w hc f vals).Terminates fun s => ∃ o, s.main = .done o := by
  have hmod : vals.length % 2 ^ w = vals.length := Nat.mod_eq_of_lt (by omega)
  unfold parallelForEach
  by_cases hempty : vals.length = 0
  · rw [BlockPartition.partition_of_length_eq_zero hc (hmod.trans hempty)]
    refine ⟨fun s hs => ?_, ForkJoin.terminates_of_done _ _⟩
    cases ForkJoin.eq_of_done hs
    constructor
    · intro hfault
      cases hfault
    · intro o hdone
      cases hdone
      rw [List.eq_nil_of_length_eq_zero hempty]
      exact ⟨rfl, List.Perm.refl _, rfl⟩
  · obtain ⟨threads, final, hpart, htiles⟩ :=
      BlockPartition.partition_of_not_wrap hw hc (hmod.symm ▸ hempty) (hmod.symm ▸ hfit)
    rw [hpart]
    refine ⟨fun s hs => ⟨?_, fun o hdone => ?_⟩, ?_⟩
    · exact ((sound htiles).invariant (local_workers htiles) (local_own htiles) hs).ne_fault
    · obtain ⟨-, hout, hblocks⟩ := exit htiles hs hdone
      cases o with
      | ok u => exact ⟨rfl, done_eq_forEach hf htiles (hblocks rfl)⟩
      | error e =>
        have hnone : ∀ p, throwsAt f vals p = none := by
          intro p
          rw [throwsAt]
          cases vals[p]? with
          | none => rfl
          | some v => exact hf p v
        rcases hout with ⟨q, hq⟩ | ⟨-, -, b, -, q, -, hq, -⟩
        · exact absurd ((hnone q).symm.trans hq.throws) (by simp)
        · exact absurd ((hnone q).symm.trans hq.throws) (by simp)
    · exact (sound htiles).terminates forEachStep_rank (local_workers htiles) (local_own htiles)

/-- Doubling forty elements. -/
theorem doubling_eq_forEach :
    (∀ s, (parallelForEach 32 4#32 (fun _ v => (v * 2, (none : Option Empty)))
        (List.range 40)).Reachable s → s.main ≠ .fault ∧ ∀ o, s.main = .done o →
      o = .ok () ∧ s.shared.applied.Perm (List.range 40) ∧
        s.shared.contents = (forEach (fun _ v => (v * 2, (none : Option Empty))) 0
          (List.range 40)).1) ∧
      (parallelForEach 32 4#32 (fun _ v => (v * 2, (none : Option Empty)))
        (List.range 40)).Terminates fun s => ∃ o, s.main = .done o :=
  parallelForEach_eq_forEach 32 4#32 (fun _ v => (v * 2, none)) (List.range 40) (by decide)
    (by decide) fun _ _ => rfl

/-! ## The function with exceptions -/

/-- **The error path is sound**: no undefined behaviour; the call throws if and only if `f` throws
on some element; what it throws is the first exception of the final block, or else that of the
first block with one; all threads have ended when it leaves; and it does leave. -/
structure SoundErrors (w : ℕ) (hc : BitVec 32) (f : ℕ → V → V × Option E) (vals : List V) :
    Prop where
  defined : ∀ s, (parallelForEach w hc f vals).Reachable s → s.main ≠ .fault
  throws : ∀ s o, (parallelForEach w hc f vals).Reachable s → s.main = .done o →
    ((∃ e, o = .error e) ↔ ∃ p e, throwsAt f vals p = some e)
  exception : ∀ s e, (parallelForEach w hc f vals).Reachable s → s.main = .done (.error e) →
    ∃ threads final, BlockPartition.partition w vals.length hc = .blocks threads final ∧
      RightOutcome f vals threads final (.error e)
  joined : ∀ s o, (parallelForEach w hc f vals).Reachable s → s.main = .done o →
    ForkJoin.AllEnded s.tasks
  leaves : (parallelForEach w hc f vals).Terminates fun s => ∃ o, s.main = .done o

theorem not_soundErrors_of_wrap (hc : BitVec 32) (hw : 32 ≤ w)
    (hwrap : 2 ^ w ≤ vals.length % 2 ^ w + 24) : ¬ SoundErrors w hc f vals := by
  intro h
  apply h.defined _ Machine.Reachable.init
  unfold parallelForEach
  rw [BlockPartition.partition_of_wrap hw hc hwrap]
  rfl

theorem not_soundErrors_of_empty (hc : BitVec 32) (hempty : vals.length % 2 ^ w = 0) {p : ℕ} {e : E}
    (hp : throwsAt f vals p = some e) : ¬ SoundErrors w hc f vals := by
  intro h
  have hdone : (parallelForEach w hc f vals).init.main = .done (.ok ()) := by
    unfold parallelForEach
    rw [BlockPartition.partition_of_length_eq_zero hc hempty]
    rfl
  obtain ⟨e', he'⟩ := (h.throws _ _ Machine.Reachable.init hdone).mpr ⟨p, e, hp⟩
  cases he'

/-- A range that is taken for empty: the call returns at once, soundly if `f` throws nowhere. -/
theorem soundErrors_of_empty (hc : BitVec 32) (hempty : vals.length % 2 ^ w = 0)
    (hnone : ∀ p, throwsAt f vals p = none) : SoundErrors w hc f vals := by
  have hrun : parallelForEach w hc f vals =
      (onBlocks f [] ⟨0, 0⟩).machine ⟨vals, []⟩ (.done (.ok ())) := by
    unfold parallelForEach
    rw [BlockPartition.partition_of_length_eq_zero hc hempty]
  have hstays : ∀ s, (parallelForEach w hc f vals).Reachable s →
      s = ⟨⟨vals, []⟩, [], .done (.ok ())⟩ := by
    intro s hs
    rw [hrun] at hs
    exact ForkJoin.eq_of_done hs
  constructor
  · intro s hs hfault
    cases hstays s hs
    cases hfault
  · intro s o hs hdone
    cases hstays s hs
    cases hdone
    constructor
    · rintro ⟨e, he⟩
      cases he
    · rintro ⟨p, e, hp⟩
      rw [hnone p] at hp
      cases hp
  · intro s e hs hdone
    cases hstays s hs
    cases hdone
  · intro s o hs hdone task htask
    cases hstays s hs
    cases htask
  · rw [hrun]
    exact ForkJoin.terminates_of_done _ _

/-- A range in blocks that tile it: what the exit of the function says. -/
theorem soundErrors_of_blocks {hc : BitVec 32}
    (hpart : BlockPartition.partition w vals.length hc = .blocks threads final)
    (htiles : Tiles 0 (threads ++ [final]) vals.length) : SoundErrors w hc f vals := by
  have hrun : parallelForEach w hc f vals = (onBlocks f threads final).program ⟨vals, []⟩ := by
    unfold parallelForEach
    rw [hpart]
  constructor
  · intro s hs
    rw [hrun] at hs
    exact ((sound htiles).invariant (local_workers htiles) (local_own htiles) hs).ne_fault
  · intro s o hs hdone
    rw [hrun] at hs
    obtain ⟨-, hout, -⟩ := exit htiles hs hdone
    cases o with
    | ok u =>
      constructor
      · rintro ⟨e, he⟩
        cases he
      · rintro ⟨p, e, hp⟩
        rw [throwsAt_eq_none htiles hout p] at hp
        cases hp
    | error e =>
      refine ⟨fun _ => ?_, fun _ => ⟨e, rfl⟩⟩
      rcases hout with ⟨q, hq⟩ | ⟨-, -, b, -, q, -, hq, -⟩
      · exact ⟨q, e, hq.throws⟩
      · exact ⟨q, e, hq.throws⟩
  · intro s e hs hdone
    rw [hrun] at hs
    obtain ⟨-, hout, -⟩ := exit htiles hs hdone
    exact ⟨threads, final, hpart, hout⟩
  · intro s o hs hdone
    rw [hrun] at hs
    exact (exit htiles hs hdone).1
  · rw [hrun]
    exact (sound htiles).terminates forEachStep_rank (local_workers htiles) (local_own htiles)

/-- **When the error path is sound**: the length as it is stored leaves room for rounding up, and
a range that is taken for empty holds no element on which `f` throws. -/
theorem soundErrors_iff (w : ℕ) (hc : BitVec 32) (f : ℕ → V → V × Option E) (vals : List V)
    (hw : 32 ≤ w) :
    SoundErrors w hc f vals ↔ vals.length % 2 ^ w + 24 < 2 ^ w ∧
      (vals.length % 2 ^ w = 0 → ∀ p, throwsAt f vals p = none) := by
  constructor
  · intro h
    constructor
    · by_contra hwrap
      exact not_soundErrors_of_wrap hc hw (by omega) h
    · intro hempty p
      cases hp : throwsAt f vals p with
      | none => rfl
      | some e => exact absurd h (not_soundErrors_of_empty hc hempty hp)
  · rintro ⟨hroom, hnone⟩
    by_cases hempty : vals.length % 2 ^ w = 0
    · exact soundErrors_of_empty hc hempty (hnone hempty)
    · obtain ⟨threads, final, hpart, htiles⟩ :=
        BlockPartition.partition_of_not_wrap hw hc hempty hroom
      exact soundErrors_of_blocks hpart htiles

/-- Thirty elements, the last of which throws. -/
theorem lastThrows_sound :
    SoundErrors 32 4#32 (fun p (v : ℕ) => (v, if p = 29 then some () else none))
      (List.range 30) :=
  (soundErrors_iff 32 4#32 (fun p v => (v, if p = 29 then some () else none)) (List.range 30)
    (by decide)).mpr ⟨by decide, fun h => absurd h (by decide)⟩

/-- With 32 bits and an `f` that always throws: a range that is taken for empty, and one on which
the code divides by zero. -/
theorem longRanges_not_sound :
    ¬ SoundErrors 32 4#32 (fun _ (v : Unit) => (v, some ())) (List.replicate (2 ^ 32) ()) ∧
      ¬ SoundErrors 32 4#32 (fun _ (v : Unit) => (v, some ()))
        (List.replicate (2 ^ 32 - 24) ()) := by
  constructor
  · apply not_soundErrors_of_empty (p := 0) (e := ())
    · rw [List.length_replicate]
      decide
    · rw [throwsAt, List.getElem?_replicate, if_pos (by decide)]
      rfl
  · apply not_soundErrors_of_wrap 4#32 (by decide)
    rw [List.length_replicate]
    decide

end ParallelForEach
end Sundries
