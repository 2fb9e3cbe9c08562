import Mathlib.Algebra.Group.Nat.Defs
import Sundries.Tiling

/-!
# The blocks of `parallel_accumulate` and `parallel_for_each`

The two functions cut `[first, last)` into blocks by the same arithmetic.  It is done in
`unsigned long`, of `w` bits, while the range may have any length a `std::distance` of 64
bits can return: the conversion keeps the low `w` bits (`length`), and rounding up to whole
blocks may carry out of them (`maxThreads`).

Positions of iterators are counted from `first`.  A division by zero and an iterator moved
past `last` have undefined behaviour, which `partition` shows as `undefined`.
-/
namespace Sundries.BlockPartition

/-- `const unsigned long length = std::distance(first, last)`, for `L` elements. -/
def length (w L : ℕ) : BitVec w := BitVec.ofNat w L

variable {w : ℕ}

/-- `min_per_thread`. -/
def minPerThread : BitVec w := 25#w

/-- `max_threads`. -/
def maxThreads (length : BitVec w) : BitVec w := (length + minPerThread - 1#w) / minPerThread

/-- `std::min`. -/
def stdMin (a b : BitVec w) : BitVec w := if b < a then b else a

/-- `hardware_threads`, converted from the `unsigned int` that `hardware_concurrency()`
returns, or 2 where it is not known. -/
def hardwareThreads (w : ℕ) (hardwareConcurrency : BitVec 32) : BitVec w :=
  let hardwareThreads := hardwareConcurrency.setWidth w
  if 0#w ≠ hardwareThreads then hardwareThreads else 2#w

/-- `num_threads`. -/
def numThreads (hardwareConcurrency : BitVec 32) (length : BitVec w) : BitVec w :=
  stdMin (hardwareThreads w hardwareConcurrency) (maxThreads length)

/-- `block_size = length / num_threads`, if that is not a division by zero. -/
def blockSize (hardwareConcurrency : BitVec 32) (length : BitVec w) : Option (BitVec w) :=
  if numThreads hardwareConcurrency length = 0#w then none
  else some (length / numThreads hardwareConcurrency length)

/-- The loop that forms a block for each further thread, `block_start` being at `blockStart`:
the blocks and where `block_start` ends, if no iterator is moved past `last`. -/
def formBlocks (last blockSize : ℕ) : ℕ → ℕ → Option (List Block × ℕ)
  | 0, blockStart => some ([], blockStart)
  | threads + 1, blockStart =>
    let blockEnd := blockStart + blockSize
    if last < blockEnd then none
    else (formBlocks last blockSize threads blockEnd).map fun (blocks, start) =>
      (⟨blockStart, blockEnd⟩ :: blocks, start)

/-- What the functions do with a range. -/
inductive Partition where
  /-- The early return. -/
  | empty
  /-- A division by zero, or an iterator past `last`. -/
  | undefined
  /-- A block for each further thread, and the final block for the calling one. -/
  | blocks (threads : List Block) (final : Block)
  deriving DecidableEq

/-- The partition of a range of `L` elements. -/
def partition (w L : ℕ) (hardwareConcurrency : BitVec 32) : Partition :=
  let length := length w L
  if length = 0#w then .empty
  else
    match blockSize hardwareConcurrency length with
    | none => .undefined
    | some size =>
      let further := numThreads hardwareConcurrency length - 1#w
      match formBlocks L size.toNat further.toNat 0 with
      | none => .undefined
      | some (threads, blockStart) => .blocks threads ⟨blockStart, L⟩

/-! ## The arithmetic -/

variable {L : ℕ} {hc : BitVec 32} {n : BitVec w}

theorem toNat_length : (length w L).toNat = L % 2 ^ w := BitVec.toNat_ofNat L w

theorem length_eq_zero : length w L = 0#w ↔ L % 2 ^ w = 0 := by
  rw [← BitVec.toNat_inj, toNat_length, BitVec.toNat_ofNat, Nat.zero_mod]

/-- The words are wide enough for the constants of the code. -/
theorem lt_two_pow (hw : 32 ≤ w) {k : ℕ} (hk : k < 2 ^ 32) : k < 2 ^ w :=
  Nat.lt_of_lt_of_le hk (Nat.pow_le_pow_right (by decide) hw)

theorem toNat_const (hw : 32 ≤ w) {k : ℕ} (hk : k < 2 ^ 32) : (BitVec.ofNat w k).toNat = k := by
  rw [BitVec.toNat_ofNat, Nat.mod_eq_of_lt (lt_two_pow hw hk)]

theorem add_minPerThread_sub_one (n : BitVec w) : n + minPerThread - 1#w = n + 24#w := by
  rw [minPerThread, show 25#w = 24#w + 1#w from BitVec.ofNat_add 24 1, ← BitVec.add_assoc,
    BitVec.add_sub_cancel]

/-- `max_threads` rounds up, as long as the sum does not wrap. -/
theorem toNat_maxThreads (hw : 32 ≤ w) (hn : n.toNat + 24 < 2 ^ w) :
    (maxThreads n).toNat = (n.toNat + 24) / 25 := by
  rw [maxThreads, add_minPerThread_sub_one, minPerThread, BitVec.toNat_udiv, BitVec.toNat_add,
    toNat_const hw (by decide), toNat_const hw (by decide), Nat.mod_eq_of_lt hn]

/-- Where the sum wraps, nothing is left of it but less than one block. -/
theorem toNat_maxThreads_of_wrap (hw : 32 ≤ w) (hn : 2 ^ w ≤ n.toNat + 24) :
    (maxThreads n).toNat = 0 := by
  have hlt := n.isLt
  have h24 := lt_two_pow hw (show 24 < 2 ^ 32 by decide)
  have hrest : (n.toNat + 24) % 2 ^ w < 25 := by
    rw [Nat.mod_eq_sub_mod hn, Nat.mod_eq_of_lt (by omega)]
    omega
  rw [maxThreads, add_minPerThread_sub_one, minPerThread, BitVec.toNat_udiv, BitVec.toNat_add,
    toNat_const hw (by decide), toNat_const hw (by decide), Nat.div_eq_of_lt hrest]

theorem toNat_hardwareThreads_pos (hw : 32 ≤ w) (hc : BitVec 32) :
    0 < (hardwareThreads w hc).toNat := by
  unfold hardwareThreads
  by_cases hzero : 0#w ≠ hc.setWidth w
  · rw [if_pos hzero]
    have : (hc.setWidth w).toNat ≠ 0 := by
      intro h0
      exact hzero (BitVec.eq_of_toNat_eq (by rw [h0]; simp))
    omega
  · rw [if_neg hzero, toNat_const hw (by decide)]
    decide

theorem toNat_numThreads (hc : BitVec 32) (n : BitVec w) :
    (numThreads hc n).toNat = min (maxThreads n).toNat (hardwareThreads w hc).toNat := by
  unfold numThreads stdMin
  by_cases hlt : maxThreads n < hardwareThreads w hc
  · rw [if_pos hlt]
    have : (maxThreads n).toNat < (hardwareThreads w hc).toNat := hlt
    omega
  · rw [if_neg hlt]
    have : ¬ (maxThreads n).toNat < (hardwareThreads w hc).toNat := hlt
    omega

/-- There is a thread if and only if rounding up did not wrap, for a range that is not empty. -/
theorem toNat_numThreads_pos_iff (hw : 32 ≤ w) (hc : BitVec 32) (hn : n ≠ 0#w) :
    0 < (numThreads hc n).toNat ↔ n.toNat + 24 < 2 ^ w := by
  have hhard := toNat_hardwareThreads_pos hw hc
  rw [toNat_numThreads]
  constructor
  · intro hpos
    by_contra hwrap
    rw [toNat_maxThreads_of_wrap hw (by omega)] at hpos
    omega
  · intro hlt
    have hne : n.toNat ≠ 0 := fun h0 => hn (BitVec.eq_of_toNat_eq (by rw [h0]; simp))
    rw [toNat_maxThreads hw hlt]
    omega

theorem blockSize_eq (hpos : 0 < (numThreads hc n).toNat) :
    blockSize hc n = some (n / numThreads hc n) := by
  have : numThreads hc n ≠ 0#w := by
    intro h0
    rw [h0] at hpos
    simp at hpos
  rw [blockSize, if_neg this]

/-- `num_threads - 1` does not wrap if there is a thread. -/
theorem toNat_numThreads_sub_one (hw : 32 ≤ w) (hpos : 0 < (numThreads hc n).toNat) :
    (numThreads hc n - 1#w).toNat = (numThreads hc n).toNat - 1 := by
  have h1 : (1#w).toNat = 1 := toNat_const hw (by decide)
  have hle : 1#w ≤ numThreads hc n := by
    show (1#w).toNat ≤ (numThreads hc n).toNat
    omega
  rw [BitVec.toNat_sub_of_le hle, h1]

/-- The further blocks together are no longer than the range. -/
theorem further_blocks_le (hc : BitVec 32) (n : BitVec w) :
    ((numThreads hc n).toNat - 1) * (n / numThreads hc n).toNat ≤ n.toNat := by
  rw [BitVec.toNat_udiv]
  calc ((numThreads hc n).toNat - 1) * (n.toNat / (numThreads hc n).toNat)
      ≤ (numThreads hc n).toNat * (n.toNat / (numThreads hc n).toNat) :=
        Nat.mul_le_mul_right _ (Nat.sub_le _ _)
    _ ≤ n.toNat := Nat.mul_div_le _ _

/-! ## The blocks -/

/-- **The loop forms a tiling** if the blocks fit into the range. -/
theorem formBlocks_tiles {last size threads start : ℕ} (hfit : start + threads * size ≤ last) :
    ∃ blocks, formBlocks last size threads start = some (blocks, start + threads * size) ∧
      blocks.length = threads ∧ Tiles start blocks (start + threads * size) := by
  induction threads generalizing start with
  | zero => exact ⟨[], by simp [formBlocks], rfl, by simp [Tiles]⟩
  | succ threads ih =>
    have hmul : start + (threads + 1) * size = start + size + threads * size := by
      rw [Nat.succ_mul]
      omega
    rw [hmul] at hfit ⊢
    obtain ⟨blocks, hform, hlen, htiles⟩ := ih hfit
    refine ⟨⟨start, start + size⟩ :: blocks, ?_, by simp [hlen], rfl, Nat.le_add_right _ _, htiles⟩
    have hin : ¬ last < start + size := by omega
    simp only [formBlocks, if_neg hin, hform, Option.map_some]

theorem partition_of_length_eq_zero (hc : BitVec 32) (h : L % 2 ^ w = 0) :
    partition w L hc = .empty := by
  simp only [partition, if_pos (length_eq_zero.mpr h)]

/-- If rounding up wraps, the code divides by zero. -/
theorem partition_of_wrap (hw : 32 ≤ w) (hc : BitVec 32) (h : 2 ^ w ≤ L % 2 ^ w + 24) :
    partition w L hc = .undefined := by
  have h24 := lt_two_pow hw (show 24 < 2 ^ 32 by decide)
  have hne : length w L ≠ 0#w := fun h0 => by
    rw [length_eq_zero] at h0
    omega
  -- no block is left, so there is no thread to divide by
  have hzero : numThreads hc (length w L) = 0#w := by
    have hpos := (toNat_numThreads_pos_iff hw hc hne).not.mpr (by rw [toNat_length]; omega)
    exact BitVec.eq_of_toNat_eq (by simpa using hpos)
  simp only [partition, if_neg hne, blockSize, if_pos hzero]

/-- **Otherwise the blocks tile the range**: there are `num_threads - 1` of them and the final
one, and none passes `last`. -/
theorem partition_of_not_wrap (hw : 32 ≤ w) (hc : BitVec 32) (hne : L % 2 ^ w ≠ 0)
    (h : L % 2 ^ w + 24 < 2 ^ w) :
    ∃ threads final, partition w L hc = .blocks threads final ∧
      Tiles 0 (threads ++ [final]) L := by
  have hlen : length w L ≠ 0#w := fun h0 => hne (length_eq_zero.mp h0)
  have hpos := (toNat_numThreads_pos_iff hw hc hlen).mpr (by rw [toNat_length]; omega)
  -- the stored length may be smaller than the length, so the further blocks fit all the more
  have hfit : 0 + ((numThreads hc (length w L)).toNat - 1) *
      (length w L / numThreads hc (length w L)).toNat ≤ L := by
    have hle := further_blocks_le hc (length w L)
    rw [toNat_length] at hle
    have := Nat.mod_le L (2 ^ w)
    omega
  obtain ⟨threads, hform, -, htiles⟩ := formBlocks_tiles hfit
  refine ⟨threads, ⟨_, L⟩, ?_, htiles.concat hfit⟩
  simp only [partition, if_neg hlen, blockSize_eq hpos, toNat_numThreads_sub_one hw hpos, hform]

/-! ## When the arithmetic is safe -/

/-- **The block arithmetic is safe** for a range of `L` elements: the early return is for the
empty range only, there is a thread, so that nothing is divided by zero and `num_threads - 1`
does not wrap, and the further blocks stay inside the range. -/
structure Safe (w L : ℕ) (hc : BitVec 32) : Prop where
  early : length w L = 0#w → L = 0
  max_pos : length w L ≠ 0#w → 1 ≤ (maxThreads (length w L)).toNat
  num_pos : length w L ≠ 0#w → 1 ≤ (numThreads hc (length w L)).toNat
  no_wrap : length w L ≠ 0#w →
    (numThreads hc (length w L) - 1#w).toNat = (numThreads hc (length w L)).toNat - 1
  inside : length w L ≠ 0#w → ∃ size, blockSize hc (length w L) = some size ∧
    ((numThreads hc (length w L)).toNat - 1) * size.toNat ≤ L
  defined : partition w L hc ≠ .undefined

theorem safe_of_room (hw : 32 ≤ w) (hearly : L % 2 ^ w = 0 → L = 0)
    (hroom : L % 2 ^ w + 24 < 2 ^ w) : Safe w L hc := by
  have hpos : length w L ≠ 0#w → 0 < (numThreads hc (length w L)).toNat := by
    intro hlen
    exact (toNat_numThreads_pos_iff hw hc hlen).mpr (by rw [toNat_length]; omega)
  constructor
  · intro h0
    exact hearly (length_eq_zero.mp h0)
  · intro hlen
    have := hpos hlen
    rw [toNat_numThreads] at this
    omega
  · exact hpos
  · intro hlen
    exact toNat_numThreads_sub_one hw (hpos hlen)
  · intro hlen
    refine ⟨_, blockSize_eq (hpos hlen), ?_⟩
    have hle := further_blocks_le hc (length w L)
    rw [toNat_length] at hle
    exact Nat.le_trans hle (Nat.mod_le L (2 ^ w))
  · by_cases h0 : L % 2 ^ w = 0
    · rw [partition_of_length_eq_zero hc h0]
      exact Partition.noConfusion
    · obtain ⟨threads, final, hpart, -⟩ := partition_of_not_wrap hw hc h0 hroom
      rw [hpart]
      exact Partition.noConfusion

/-- With 64 bits the arithmetic is safe for every length that a distance can have. -/
theorem safe_of_64_bits (hL : L < 2 ^ 63) (hc : BitVec 32) : Safe 64 L hc := by
  have hmod : L % 2 ^ 64 = L := Nat.mod_eq_of_lt (by omega)
  apply safe_of_room (by decide)
  · intro h0
    omega
  · omega

/-- **When the block arithmetic is safe**: the low bits of the length are not all zero unless
the range is empty, and they leave room for rounding up. -/
theorem blocks_safe_iff (w L : ℕ) (hc : BitVec 32) (hw : 32 ≤ w) :
    Safe w L hc ↔ (L % 2 ^ w = 0 → L = 0) ∧ L % 2 ^ w + 24 < 2 ^ w := by
  constructor
  · intro h
    refine ⟨fun h0 => h.early (length_eq_zero.mpr h0), ?_⟩
    by_contra hwrap
    exact h.defined (partition_of_wrap hw hc (by omega))
  · rintro ⟨hearly, hroom⟩
    exact safe_of_room hw hearly hroom

/-- The longest range that 32 bits leave room for. -/
theorem longestRange_safe : Safe 32 (2 ^ 32 - 25) 4#32 :=
  (blocks_safe_iff 32 (2 ^ 32 - 25) 4#32 (by decide)).mpr ⟨by decide, by decide⟩

/-- One element more and the code divides by zero; 24 more and it takes the range for empty. -/
theorem longerRanges_not_safe :
    ¬ Safe 32 (2 ^ 32 - 24) 4#32 ∧ ¬ Safe 32 (2 ^ 32) 4#32 := by
  constructor
  · intro h
    exact h.defined (by decide)
  · intro h
    exact absurd (h.early (by decide)) (by decide)

end Sundries.BlockPartition
