import Mathlib.Algebra.Group.Nat.Defs
import Sundries.BlockPartition
import Sundries.ForkJoin

/-!
# `parallel_accumulate` with a thread for each block

Each further block of the range is accumulated by a thread of its own, from `T()`; the
calling thread accumulates the final block and then adds up the results, in the order of the
blocks and beginning with `init`.  For an associative `+` with `T()` as its identity the sum
is that of `std::accumulate`, whatever the number of threads and however they interleave.
-/
namespace Sundries

/-- `std::accumulate`. -/
def accumulate {T : Type} [Add T] (xs : List T) (init : T) : T := xs.foldl (· + ·) init

theorem accumulate_concat {T : Type} [Add T] (xs : List T) (x init : T) :
    accumulate (xs ++ [x]) init = accumulate xs init + x := by
  simp [accumulate]

/-- The loop of a `std::accumulate`: where its iterator is, where it ends, its sum. -/
structure Loop (T : Type) where
  pos : ℕ
  last : ℕ
  acc : T

/-- One round of the loop over the elements `vals`, or its result; reading past them has
undefined behaviour. -/
def Loop.step {T : Type} [Add T] (vals : List T) (loop : Loop T) : Option (Loop T ⊕ T) :=
  if loop.pos = loop.last then some (.inr loop.acc)
  else vals[loop.pos]?.map fun v => .inl ⟨loop.pos + 1, loop.last, loop.acc + v⟩

/-- The loop has summed the elements from `start` up to its iterator, beginning with `init`. -/
structure Loop.Summed {T : Type} [Add T] (vals : List T) (start : ℕ) (init : T) (loop : Loop T) :
    Prop where
  start_le : start ≤ loop.pos
  le_last : loop.pos ≤ loop.last
  last_le : loop.last ≤ vals.length
  acc : loop.acc = accumulate (Block.slice ⟨start, loop.pos⟩ vals) init

theorem Loop.summed_start {T : Type} [Add T] {vals : List T} {start last : ℕ} (init : T)
    (h : start ≤ last) (hlast : last ≤ vals.length) :
    Summed vals start init ⟨start, last, init⟩ :=
  ⟨Nat.le_refl _, h, hlast, by rw [Block.slice_self]; rfl⟩

/-- **A round of the loop**: it goes on with one more element summed, or ends with the sum. -/
theorem Loop.Summed.step {T : Type} [Add T] {vals : List T} {start : ℕ} {init : T} {loop : Loop T}
    (h : Summed vals start init loop) :
    (∃ loop', loop.step vals = some (.inl loop') ∧ Summed vals start init loop' ∧
      loop'.last = loop.last ∧ loop.pos < loop.last ∧ loop'.pos = loop.pos + 1) ∨
    loop.step vals = some (.inr (accumulate (Block.slice ⟨start, loop.last⟩ vals) init)) := by
  rw [Loop.step]
  by_cases hend : loop.pos = loop.last
  · right
    rw [if_pos hend, h.acc, hend]
  · left
    have hle := h.le_last
    have hlast := h.last_le
    have hlt : loop.pos < vals.length := by omega
    have hget : vals[loop.pos]? = some vals[loop.pos] := List.getElem?_eq_getElem hlt
    rw [if_neg hend, hget]
    refine ⟨_, rfl, ⟨Nat.le_succ_of_le h.start_le, ?_, hlast, ?_⟩, rfl, by omega, rfl⟩
    · show loop.pos + 1 ≤ loop.last
      omega
    · rw [Block.slice_succ h.start_le hget, accumulate_concat, ← h.acc]

namespace ParallelAccumulate
variable {T : Type} [AddMonoid T]

/-- `accumulate_block`. -/
def accumulateBlock (b : Block) : Loop T := ⟨b.start, b.stop, 0⟩

/-- A round of the loop of a block. -/
def accumulateStep (vals : List T) (_ : Unit) (loop : Loop T) :
    Option (Unit × (Loop T ⊕ Except Empty T)) :=
  (loop.step vals).map fun out => ((), out.map id .ok)

/-- The threads and the calling one on their blocks. -/
def onBlocks (vals : List T) (init : T) (threads : List Block) (final : Block) :
    ForkJoin Unit (Loop T) T Empty T where
  work := accumulateStep vals
  workers := threads.map accumulateBlock
  own := accumulateBlock final
  start := init
  add := (· + ·)

/-- `parallel_accumulate` on the elements `vals`. -/
def parallelAccumulate (w : ℕ) (hc : BitVec 32) (vals : List T) (init : T) :
    Machine (ForkJoin.State Unit (Loop T) T Empty T) ForkJoin.Label :=
  match BlockPartition.partition w vals.length hc with
  | .empty => (onBlocks vals init [] ⟨0, 0⟩).machine () (.done (.ok init))
  | .undefined => (onBlocks vals init [] ⟨0, 0⟩).machine () .fault
  | .blocks threads final => (onBlocks vals init threads final).program ()

/-! ## The blocks are summed -/

variable {vals : List T} {init : T} {threads : List Block} {final : Block}

/-- Part `k` is summing its block. -/
def Local (vals : List T) (blocks : List Block) (k : ℕ) (_ : Unit) (loop : Loop T) : Prop :=
  ∃ b, blocks[k]? = some b ∧ loop.last = b.stop ∧ loop.Summed vals b.start 0

/-- Part `k` has ended with the sum of its block. -/
def Post (vals : List T) (blocks : List Block) (k : ℕ) (_ : Unit) (r : Except Empty T) : Prop :=
  ∃ b, blocks[k]? = some b ∧ r = .ok (accumulate (b.slice vals) 0)

theorem sound : (onBlocks vals init threads final).Sound (Local vals (threads ++ [final]))
    (Post vals (threads ++ [final])) := by
  constructor
  rintro k ⟨⟩ loop ⟨b, hb, hlast, hsum⟩
  show ∃ shared' out, accumulateStep vals () loop = some (shared', out) ∧ _
  rw [accumulateStep]
  rcases hsum.step with ⟨loop', hstep, hsum', hlast', -, -⟩ | hstep
  · rw [hstep]
    exact ⟨(), _, rfl, ⟨b, hb, hlast'.trans hlast, hsum'⟩, fun j task _ h => h⟩
  · rw [hstep, hlast]
    exact ⟨(), _, rfl, ⟨b, hb, rfl⟩, fun j task _ h => h⟩

/-- Each part begins with nothing summed. -/
theorem local_accumulateBlock {blocks : List Block} (htiles : Tiles 0 blocks vals.length) {k : ℕ}
    {b : Block} (hb : blocks[k]? = some b) : Local vals blocks k () (accumulateBlock b) := by
  obtain ⟨-, hle, hhi⟩ := htiles.mem (List.mem_of_getElem? hb)
  exact ⟨b, hb, rfl, Loop.summed_start 0 hle hhi⟩

theorem local_workers (htiles : Tiles 0 (threads ++ [final]) vals.length) (i : ℕ) (loop : Loop T)
    (hi : (onBlocks vals init threads final).workers[i]? = some loop) :
    Local vals (threads ++ [final]) i () loop := by
  obtain ⟨b, hb, rfl⟩ : ∃ b, threads[i]? = some b ∧ accumulateBlock b = loop := by
    simpa [onBlocks] using hi
  obtain ⟨hlt, -⟩ := List.getElem?_eq_some_iff.mp hb
  have hb' : (threads ++ [final])[i]? = some b := by
    rw [List.getElem?_append_left hlt]
    exact hb
  exact local_accumulateBlock htiles hb'

theorem local_own (htiles : Tiles 0 (threads ++ [final]) vals.length) :
    Local vals (threads ++ [final]) (onBlocks vals init threads final).workers.length ()
      (onBlocks vals init threads final).own := by
  have hlen : (onBlocks vals init threads final).workers.length = threads.length :=
    List.length_map _
  rw [hlen]
  exact local_accumulateBlock htiles List.getElem?_concat_length

/-- The results of the blocks, added up from `init`, are the sum of all elements. -/
theorem combine_eq (htiles : Tiles 0 (threads ++ [final]) vals.length) :
    (onBlocks vals init threads final).combine
      (threads.map fun b => accumulate (b.slice vals) 0) (accumulate (final.slice vals) 0) =
      accumulate vals init := by
  calc (onBlocks vals init threads final).combine
        (threads.map fun b => accumulate (b.slice vals) 0) (accumulate (final.slice vals) 0)
      = (((threads ++ [final]).map (Block.slice · vals)).map
          fun part => part.foldl (· + ·) 0).foldl (· + ·) init := by
        simp [ForkJoin.combine, onBlocks, accumulate, Function.comp_def]
    _ = ((threads ++ [final]).flatMap (Block.slice · vals)).foldl (· + ·) init := by
        rw [foldl_map_foldl, List.flatMap_def]
    _ = accumulate vals init := by
        rw [htiles.flatMap_slice_eq, accumulate]

/-- Whenever the calling thread leaves, it is with the sum of all elements. -/
theorem outcome_eq (htiles : Tiles 0 (threads ++ [final]) vals.length)
    {s : ForkJoin.State Unit (Loop T) T Empty T} {o : Except Empty T}
    (h : ((onBlocks vals init threads final).program ()).Reachable s) (hdone : s.main = .done o) :
    o = .ok (accumulate vals init) := by
  have hinv := sound.invariant (local_workers htiles) (local_own htiles) h
  obtain ⟨own, ends, htasks, hlen, hout, ⟨b, hb, rfl⟩, hends⟩ := hinv.of_done hdone
  have hcount : (onBlocks vals init threads final).workers.length = threads.length :=
    List.length_map _
  rw [hcount] at hlen hb
  rw [List.getElem?_concat_length] at hb
  cases hb
  -- every thread has ended with the sum of its block
  have hends' : ends = (threads.map fun b => accumulate (b.slice vals) 0).map .ok := by
    apply List.ext_getElem?
    intro i
    by_cases hi : i < threads.length
    · obtain ⟨r, hr⟩ : ∃ r, ends[i]? = some r := ⟨_, List.getElem?_eq_getElem (by omega)⟩
      obtain ⟨b, hb, rfl⟩ := hends i r hr
      rw [List.getElem?_append_left hi] at hb
      simp [hr, hb]
    · rw [List.getElem?_eq_none (by omega), List.getElem?_eq_none (by simp; omega)]
  cases hout with
  | own e _ => exact e.elim
  | worker _ _ e _ _ _ => exact e.elim
  | all last rs hown hrs =>
    cases hown
    have : rs = threads.map fun b => accumulate (b.slice vals) 0 := by
      rw [hrs, hends', List.map_map] at htasks
      exact List.map_injective_iff.mpr (fun r r' heq => by simpa using heq) htasks
    rw [this, combine_eq htiles]

theorem accumulateStep_rank {blocks : List Block} (k : ℕ) (shared : Unit) (loop : Loop T)
    (shared' : Unit) (loop' : Loop T) (h : Local vals blocks k shared loop)
    (hwork : accumulateStep vals shared loop = some (shared', .inl loop')) :
    loop'.last - loop'.pos < loop.last - loop.pos := by
  obtain ⟨b, -, -, hsum⟩ := h
  rw [accumulateStep] at hwork
  rcases hsum.step with ⟨next, hstep, -, hlast, hlt, hpos⟩ | hstep
  · rw [hstep] at hwork
    cases hwork
    show next.last - next.pos < loop.last - loop.pos
    omega
  · rw [hstep] at hwork
    cases hwork

/-- **`parallel_accumulate` is `std::accumulate`.**  The blocks follow one another through the
range and cover every position once; no step has undefined behaviour, whatever the number of
hardware threads and the order of the steps; the call comes to an end, and it returns the sum. -/
theorem parallelAccumulate_eq_accumulate (w : ℕ) (hc : BitVec 32) (vals : List T) (init : T)
    (hw : 32 ≤ w) (hfit : vals.length + 24 < 2 ^ w) :
    (match BlockPartition.partition w vals.length hc with
      | .empty => vals = []
      | .undefined => False
      | .blocks threads final => Tiles 0 (threads ++ [final]) vals.length ∧
          (threads ++ [final]).flatMap (Block.slice · (List.range vals.length)) =
            List.range vals.length) ∧
      (∀ s, (parallelAccumulate w hc vals init).Reachable s → s.main ≠ .fault ∧
        ∀ o, s.main = .done o → o = .ok (accumulate vals init)) ∧
      (parallelAccumulate w hc vals init).Terminates fun s => ∃ o, s.main = .done o := by
  have hmod : vals.length % 2 ^ w = vals.length := Nat.mod_eq_of_lt (by omega)
  unfold parallelAccumulate
  by_cases hempty : vals.length = 0
  · rw [BlockPartition.partition_of_length_eq_zero hc (hmod.trans hempty)]
    refine ⟨List.eq_nil_of_length_eq_zero hempty, fun s hs => ?_, ForkJoin.terminates_of_done _ _⟩
    cases ForkJoin.eq_of_done hs
    constructor
    · intro hfault
      cases hfault
    · intro o hdone
      cases hdone
      rw [List.eq_nil_of_length_eq_zero hempty]
      rfl
  · obtain ⟨threads, final, hpart, htiles⟩ :=
      BlockPartition.partition_of_not_wrap hw hc (hmod.symm ▸ hempty) (hmod.symm ▸ hfit)
    rw [hpart]
    refine ⟨⟨htiles, ?_⟩, fun s hs => ⟨?_, fun o hdone => outcome_eq htiles hs hdone⟩, ?_⟩
    · exact Tiles.flatMap_slice_eq (by rw [List.length_range]; exact htiles)
    · exact (sound.invariant (local_workers htiles) (local_own htiles) hs).ne_fault
    · exact sound.terminates accumulateStep_rank (local_workers htiles) (local_own htiles)

/-- Sixty ones on a machine with four hardware threads. -/
theorem sixtyOnes_accumulate :
    (∀ s, (parallelAccumulate 32 4#32 (List.replicate 60 1) 0).Reachable s → s.main ≠ .fault ∧
      ∀ o, s.main = .done o → o = .ok 60) ∧
      (parallelAccumulate 32 4#32 (List.replicate 60 1) 0).Terminates
        fun s => ∃ o, s.main = .done o :=
  (parallelAccumulate_eq_accumulate 32 4#32 (List.replicate 60 1) 0 (by decide) (by decide)).2

end ParallelAccumulate
end Sundries
