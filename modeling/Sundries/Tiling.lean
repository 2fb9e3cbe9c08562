import Mathlib.Algebra.Group.Defs
import Mathlib.Data.List.Basic

/-!
# Blocks that tile a range

A `Block` is the half-open range of positions between two iterators.  `Tiles lo blocks hi`
says that the blocks, taken in order, lead from `lo` to `hi`: each begins where the one
before it ends, and none runs backwards.  A list of such blocks cuts a sequence into slices
which, put one after the other, are the sequence again (`Tiles.flatMap_slice`), so every
element is in exactly one of them.

In a monoid the slices may be summed one by one (`foldl_map_foldl`), in the order of the
blocks; the sum need not commute.
-/
namespace Sundries

/-- The positions from `start` up to, and without, `stop`. -/
structure Block where
  start : ℕ
  stop : ℕ
  deriving DecidableEq

namespace Block

/-- The elements of `xs` at the positions of the block. -/
def slice {A : Type*} (b : Block) (xs : List A) : List A := (xs.take b.stop).drop b.start

end Block

/-- The blocks lead from `lo` to `hi`, each beginning where the one before it ends. -/
def Tiles : ℕ → List Block → ℕ → Prop
  | lo, [], hi => lo = hi
  | lo, b :: blocks, hi => b.start = lo ∧ b.start ≤ b.stop ∧ Tiles b.stop blocks hi

namespace Tiles
variable {lo hi : ℕ} {blocks : List Block}

theorem append_iff {blocks' : List Block} :
    Tiles lo (blocks ++ blocks') hi ↔ ∃ mid, Tiles lo blocks mid ∧ Tiles mid blocks' hi := by
  induction blocks generalizing lo with
  | nil => simp [Tiles]
  | cons b blocks ih => simp [Tiles, ih, and_assoc]

/-- A tiling that goes on with one more block. -/
theorem concat {b : Block} (h : Tiles lo blocks b.start) (hb : b.start ≤ b.stop) :
    Tiles lo (blocks ++ [b]) b.stop :=
  append_iff.mpr ⟨b.start, h, rfl, hb, rfl⟩

theorem le (h : Tiles lo blocks hi) : lo ≤ hi := by
  induction blocks generalizing lo with
  | nil => exact Nat.le_of_eq h
  | cons b blocks ih =>
    obtain ⟨hstart, hb, hrest⟩ := h
    have := ih hrest
    omega

/-- Every block lies inside the range. -/
theorem mem (h : Tiles lo blocks hi) {b : Block} (hb : b ∈ blocks) :
    lo ≤ b.start ∧ b.start ≤ b.stop ∧ b.stop ≤ hi := by
  induction blocks generalizing lo with
  | nil => cases hb
  | cons c blocks ih =>
    obtain ⟨hstart, hc, hrest⟩ := h
    rcases List.mem_cons.mp hb with rfl | hb
    · exact ⟨Nat.le_of_eq hstart.symm, hc, hrest.le⟩
    · obtain ⟨hlo, hle, hhi⟩ := ih hrest hb
      exact ⟨by omega, hle, hhi⟩

/-- A block ends before the later ones begin. -/
theorem stop_le_start (h : Tiles lo blocks hi) {i j : ℕ} {b c : Block} (hij : i < j)
    (hb : blocks[i]? = some b) (hc : blocks[j]? = some c) : b.stop ≤ c.start := by
  induction blocks generalizing lo i j with
  | nil => cases hb
  | cons d blocks ih =>
    obtain ⟨-, -, hrest⟩ := h
    obtain ⟨j, rfl⟩ := Nat.exists_eq_succ_of_ne_zero (show j ≠ 0 by omega)
    cases i with
    | zero =>
      cases hb
      exact (hrest.mem (List.mem_of_getElem? hc)).1
    | succ i => exact ih hrest (by omega) hb hc

/-- Two different blocks have no position in common. -/
theorem disjoint (h : Tiles lo blocks hi) {i j p : ℕ} {b c : Block} (hij : i ≠ j)
    (hb : blocks[i]? = some b) (hc : blocks[j]? = some c) (hpb : b.start ≤ p ∧ p < b.stop) :
    ¬ (c.start ≤ p ∧ p < c.stop) := by
  rcases Nat.lt_or_gt_of_ne hij with hlt | hlt
  · have := h.stop_le_start hlt hb hc
    omega
  · have := h.stop_le_start hlt hc hb
    omega

/-- Every position of the range is in some block. -/
theorem cover (h : Tiles lo blocks hi) {p : ℕ} (hlo : lo ≤ p) (hhi : p < hi) :
    ∃ (k : ℕ) (b : Block), blocks[k]? = some b ∧ b.start ≤ p ∧ p < b.stop := by
  induction blocks generalizing lo with
  | nil =>
    have : lo = hi := h
    omega
  | cons b blocks ih =>
    obtain ⟨hstart, -, hrest⟩ := h
    by_cases hp : p < b.stop
    · exact ⟨0, b, rfl, by omega, hp⟩
    · obtain ⟨k, c, hc, hin⟩ := ih hrest (by omega)
      exact ⟨k + 1, c, hc, hin⟩

/-- **The slices of a tiling, one after the other, are what it tiles.** -/
theorem flatMap_slice {A : Type*} (h : Tiles lo blocks hi) (xs : List A) :
    blocks.flatMap (Block.slice · xs) = (xs.take hi).drop lo := by
  induction blocks generalizing lo with
  | nil =>
    cases h
    simp
  | cons b blocks ih =>
    obtain ⟨rfl, hb, hrest⟩ := h
    have hle := hrest.le
    calc b.slice xs ++ blocks.flatMap (Block.slice · xs)
        = ((xs.take hi).take b.stop).drop b.start ++ (xs.take hi).drop b.stop := by
          rw [ih hrest, Block.slice, List.take_take, Nat.min_eq_left hle]
      _ = (xs.take hi).drop b.start := by
          conv_rhs => rw [← List.take_append_drop b.stop (xs.take hi)]
          rcases Nat.le_total (xs.take hi).length b.stop with hshort | hlong
          · rw [List.take_of_length_le hshort, List.drop_of_length_le hshort]
            simp
          · rw [List.drop_append_of_le_length (by rw [List.length_take]; omega)]

/-- A tiling of a whole sequence covers each of its elements exactly once. -/
theorem flatMap_slice_eq {A : Type*} {xs : List A} (h : Tiles 0 blocks xs.length) :
    blocks.flatMap (Block.slice · xs) = xs := by
  rw [h.flatMap_slice, List.take_length, List.drop_zero]

end Tiles

namespace Block
variable {A : Type*} {xs : List A} {b p : ℕ}

theorem slice_self (b : ℕ) (xs : List A) : slice ⟨b, b⟩ xs = [] := by
  simp [slice]

/-- A slice that takes in one more element. -/
theorem slice_succ {x : A} (hb : b ≤ p) (hx : xs[p]? = some x) :
    slice ⟨b, p + 1⟩ xs = slice ⟨b, p⟩ xs ++ [x] := by
  obtain ⟨hlt, -⟩ := List.getElem?_eq_some_iff.mp hx
  simp only [slice]
  rw [List.take_add_one, hx, Option.toList_some, List.drop_append_of_le_length]
  rw [List.length_take]
  omega

end Block

section Sums
variable {T : Type*} [AddMonoid T]

/-- What a sum starts from stands in front of it. -/
theorem foldl_add_start (xs : List T) (a b : T) :
    xs.foldl (· + ·) (a + b) = a + xs.foldl (· + ·) b := by
  induction xs generalizing b with
  | nil => rfl
  | cons x xs ih => rw [List.foldl_cons, List.foldl_cons, add_assoc, ih]

/-- **Partial sums may be added up.**  Summing the parts, each from zero, and then the sums, is
summing everything. -/
theorem foldl_map_foldl (parts : List (List T)) (a : T) :
    (parts.map fun part => part.foldl (· + ·) 0).foldl (· + ·) a =
      parts.flatten.foldl (· + ·) a := by
  induction parts generalizing a with
  | nil => rfl
  | cons part parts ih =>
    rw [List.map_cons, List.foldl_cons, List.flatten_cons, List.foldl_append, ih,
      ← foldl_add_start, add_zero]

end Sums

end Sundries
