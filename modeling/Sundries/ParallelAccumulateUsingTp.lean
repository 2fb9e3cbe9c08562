import Mathlib.Algebra.Group.Nat.Defs
import Sundries.ParallelAccumulate

/-!
# `parallel_accmulate_using_tp`

The accumulation over a thread pool is to hand every block but the final one to the pool.
Its loop advances `block_start` where the other parallel algorithms advance `block_end`: each
task is given a range that begins `block_size` elements after its end, and `block_start` is
back where it was for the next one.  A task that is run on such a range reads on past the last
element.

Every submitted task is run, so a run of the function is determined by the blocks it submits
(`Run`).
-/
namespace Sundries.ParallelAccumulateUsingTp

/-- What the function submits to the pool, what it keeps for itself, and what it returns;
no result stands for undefined behaviour. -/
structure Run (T : Type) where
  submitted : List Block
  final : Option Block
  result : Option T

/-- `block_size`. -/
def blockSize : ℕ := 25

/-- `num_blocks`. -/
def numBlocks {w : ℕ} (length : BitVec w) : BitVec w :=
  (length + BitVec.ofNat w blockSize - 1#w) / BitVec.ofNat w blockSize

/-- The loop that submits the blocks, `block_start` being at `blockStart`: the blocks and where
`block_start` ends, if no iterator is moved past `last`. -/
def submitBlocks (last : ℕ) : ℕ → ℕ → Option (List Block × ℕ)
  | 0, blockStart => some ([], blockStart)
  | blocks + 1, blockStart =>
    let blockEnd := blockStart
    let blockStart := blockStart + blockSize
    if last < blockStart then none
    else (submitBlocks last blocks blockEnd).map fun (submitted, start) =>
      (⟨blockStart, blockEnd⟩ :: submitted, start)

variable {T : Type} [AddMonoid T]

/-- The loop of `std::accumulate` up to `stop`, with the iterator at `pos` and the elements from
there on; reading past them has undefined behaviour. -/
def accumulateUpTo (stop : ℕ) : ℕ → List T → T → Option T
  | pos, [], acc => if pos = stop then some acc else none
  | pos, v :: vals, acc =>
    if pos = stop then some acc else accumulateUpTo stop (pos + 1) vals (acc + v)

/-- `accumulate_block` on a block. -/
def accumulateBlock (vals : List T) (b : Block) : Option T :=
  accumulateUpTo b.stop b.start (vals.drop b.start) 0

/-- After the loop: the final block, from where `block_start` is, and the sum of the results. -/
def accumulateFinal (vals : List T) (init : T) (submitted : List Block) (blockStart : ℕ) : Run T :=
  let final := ⟨blockStart, vals.length⟩
  ⟨submitted, some final, do
    let lastResult ← accumulateBlock vals final
    let results ← submitted.mapM (accumulateBlock vals)
    return results.foldl (· + ·) init + lastResult⟩

/-- `parallel_accmulate_using_tp` on the elements `vals`. -/
def parallelAccmulateUsingTp (w : ℕ) (vals : List T) (init : T) : Run T :=
  let length := BlockPartition.length w vals.length
  if length = 0#w then ⟨[], none, some init⟩
  else
    match submitBlocks vals.length (numBlocks length - 1#w).toNat 0 with
    | none => ⟨[], none, none⟩
    | some (submitted, blockStart) => accumulateFinal vals init submitted blockStart

/-- The function does what `std::accumulate` does, on blocks that cover every element once. -/
structure Run.Agrees (run : Run T) (vals : List T) (init : T) : Prop where
  result : run.result = some (accumulate vals init)
  blocks : Tiles 0 (run.submitted ++ run.final.toList) vals.length

/-! ## The blocks that are submitted -/

variable {w : ℕ} {vals : List T} {init : T}

/-- Every block is the same: it begins `block_size` elements in and ends at the beginning. -/
theorem submitBlocks_eq {last : ℕ} (hlast : blockSize ≤ last) (blocks : ℕ) :
    submitBlocks last blocks 0 = some (List.replicate blocks ⟨blockSize, 0⟩, 0) := by
  induction blocks with
  | zero => rfl
  | succ blocks ih =>
    rw [submitBlocks, Nat.zero_add, if_neg (by omega), ih]
    rfl

/-- Such a block cannot be part of a tiling. -/
theorem not_tiles_of_submitted {blocks : ℕ} {rest : List Block} {hi : ℕ} :
    ¬ Tiles 0 (List.replicate (blocks + 1) ⟨blockSize, 0⟩ ++ rest) hi := by
  intro h
  have hstart : blockSize = 0 := h.1
  exact absurd hstart (by decide)

theorem accumulateUpTo_length (pos : ℕ) (vals : List T) (acc : T) :
    accumulateUpTo (pos + vals.length) pos vals acc = some (accumulate vals acc) := by
  induction vals generalizing pos acc with
  | nil =>
    rw [accumulateUpTo, List.length_nil, Nat.add_zero, if_pos rfl]
    rfl
  | cons v vals ih =>
    have hnext : pos + (v :: vals).length = pos + 1 + vals.length := by
      rw [List.length_cons]
      omega
    rw [accumulateUpTo, if_neg (by rw [List.length_cons]; omega), hnext, ih]
    rfl

/-- No block is submitted just for a length of at most one block: rounding up either does not
wrap, or gives no blocks at all, one less than which is as many as a word can count. -/
theorem toNat_numBlocks_sub_one (hw : 32 ≤ w) {n : BitVec w} (hn : n ≠ 0#w) :
    (numBlocks n - 1#w).toNat = 0 ↔ n.toNat ≤ blockSize := by
  have h1 : (1#w).toNat = 1 := BlockPartition.toNat_const hw (by decide)
  have hbig := BlockPartition.lt_two_pow hw (show 100 < 2 ^ 32 by decide)
  have hsame : numBlocks n = BlockPartition.maxThreads n := rfl
  have hpos : n.toNat ≠ 0 := fun h0 => hn (BitVec.eq_of_toNat_eq (by rw [h0]; simp))
  rw [hsame]
  by_cases hroom : n.toNat + 24 < 2 ^ w
  · have hmax := BlockPartition.toNat_maxThreads hw hroom
    have hle : 1#w ≤ BlockPartition.maxThreads n := by
      show (1#w).toNat ≤ (BlockPartition.maxThreads n).toNat
      omega
    rw [BitVec.toNat_sub_of_le hle, h1, hmax]
    show _ ↔ n.toNat ≤ 25
    omega
  · -- no block at all, and one less than that is the largest word
    have hmax := BlockPartition.toNat_maxThreads_of_wrap hw (n := n) (by omega)
    rw [BitVec.toNat_sub, h1, hmax, Nat.add_zero, Nat.mod_eq_of_lt (by omega)]
    show _ ↔ n.toNat ≤ 25
    omega

/-- The final block alone, if it is the whole range, gives the sum of all elements. -/
theorem agrees_final : (accumulateFinal vals init [] 0).Agrees vals init := by
  have hsum : accumulateBlock vals ⟨0, vals.length⟩ = some (accumulate vals 0) := by
    have hall := accumulateUpTo_length 0 vals (0 : T)
    rwa [Nat.zero_add] at hall
  constructor
  · simp only [accumulateFinal, hsum]
    show some (init + accumulate vals 0) = _
    rw [accumulate, ← foldl_add_start, add_zero, accumulate]
  · exact ⟨rfl, Nat.zero_le _, rfl⟩

/-- **When the function does what `std::accumulate` does**: on the empty range, and on the ranges
whose length, as it is stored, is that of one block at most. -/
theorem agrees_iff (w : ℕ) (vals : List T) (init : T) (hw : 32 ≤ w) :
    (parallelAccmulateUsingTp w vals init).Agrees vals init ↔
      vals.length = 0 ∨ vals.length % 2 ^ w ≠ 0 ∧ vals.length % 2 ^ w ≤ 25 := by
  by_cases hn : vals.length % 2 ^ w = 0
  · have hrun : parallelAccmulateUsingTp w vals init = ⟨[], none, some init⟩ :=
      if_pos (BlockPartition.length_eq_zero.mpr hn)
    rw [hrun]
    constructor
    · intro h
      exact Or.inl h.blocks.symm
    · rintro (hempty | ⟨hne, -⟩)
      · refine ⟨?_, hempty.symm⟩
        rw [List.eq_nil_of_length_eq_zero hempty]
        rfl
      · exact absurd hn hne
  · have hn' : BlockPartition.length w vals.length ≠ 0#w := fun h0 =>
      hn (BlockPartition.length_eq_zero.mp h0)
    have hzero := toNat_numBlocks_sub_one hw hn'
    rw [BlockPartition.toNat_length] at hzero
    have hle := Nat.mod_le vals.length (2 ^ w)
    have hrun : parallelAccmulateUsingTp w vals init =
        match submitBlocks vals.length
          (numBlocks (BlockPartition.length w vals.length) - 1#w).toNat 0 with
        | none => ⟨[], none, none⟩
        | some (submitted, blockStart) => accumulateFinal vals init submitted blockStart :=
      if_neg hn'
    rw [hrun]
    cases hblocks : (numBlocks (BlockPartition.length w vals.length) - 1#w).toNat with
    | zero =>
      constructor
      · intro _
        exact Or.inr ⟨hn, hzero.mp hblocks⟩
      · intro _
        exact agrees_final
    | succ blocks =>
      have hlong : ¬ vals.length % 2 ^ w ≤ blockSize := fun hshort => by
        have := hzero.mpr hshort
        omega
      -- the first block that is submitted ends before it begins
      rw [submitBlocks_eq (by omega)]
      constructor
      · intro h
        exact absurd h.blocks not_tiles_of_submitted
      · rintro (hempty | ⟨-, hshort⟩)
        · rw [hempty] at hn
          simp at hn
        · exact absurd hshort hlong

/-- As many elements as one block has. -/
theorem fullBlock_agrees :
    (parallelAccmulateUsingTp 64 (List.replicate 25 7) 1).Agrees (List.replicate 25 7) 1 ∧
      (parallelAccmulateUsingTp 64 (List.replicate 25 7) 1).result = some 176 :=
  ⟨(agrees_iff 64 (List.replicate 25 7) 1 (by decide)).mpr (Or.inr ⟨by decide, by decide⟩),
    by decide⟩

/-- For 26 elements one block is submitted, from position 25 back to position 0, and the final
block is the whole range. -/
theorem twentySixElements_not_agree :
    (parallelAccmulateUsingTp 64 (List.replicate 26 1) 0).submitted = [⟨25, 0⟩] ∧
      (parallelAccmulateUsingTp 64 (List.replicate 26 1) 0).result = none ∧
      ¬ (parallelAccmulateUsingTp 64 (List.replicate 26 1) 0).Agrees (List.replicate 26 1) 0 := by
  refine ⟨by decide, by decide, fun h => ?_⟩
  have hresult := h.result
  rw [show (parallelAccmulateUsingTp 64 (List.replicate 26 1) 0).result = none by decide] at hresult
  cases hresult

end Sundries.ParallelAccumulateUsingTp
