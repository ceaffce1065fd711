/-
A polynomial authenticator: a message cut into blocks, each block a number,
and their polynomial at a secret point.

`blocks` cuts a message, `blockValue` reads a block with a one byte behind
it, so that trailing zeros count, and `poly` is the sum over the blocks with
falling powers of the point. `horner` computes the same sum block by block
(`horner_eq_poly`), and a message whose length is a whole number of blocks
can be absorbed before the rest is known (`horner_append`,
`blocks_append`): that is all a streaming implementation relies on.
`poly1305` is the instance with blocks of 16 bytes, the prime 2^130 - 5 and
a clamped point.
-/
import Mathlib.Algebra.BigOperators.Intervals
import Mathlib.Data.List.GetD
import Mathlib.Data.Nat.ModEq
import Remc.Lib.LittleEndian

namespace PolyMac

open LittleEndian

/-- How many blocks of `w` bytes `n` bytes take, the last may be shorter. -/
def numBlocks (w n : Nat) : Nat := (n + w - 1) / w

/-- The `i`-th block of `w` bytes. -/
def block (w : Nat) (m : List UInt8) (i : Nat) : List UInt8 :=
  (m.drop (w * i)).take w

/-- The blocks of a message. -/
def blocks (w : Nat) (m : List UInt8) : List (List UInt8) :=
  (List.range (numBlocks w m.length)).map (block w m)

/-- A block as a number, a one byte behind its last. -/
def blockValue (b : List UInt8) : Nat := ofBytes (b ++ [1])

/-- The polynomial of a message at `r`: the first block has the highest
power, the last one the first. -/
def poly (w r : Nat) (m : List UInt8) : Nat :=
  ∑ i ∈ Finset.range (numBlocks w m.length),
    blockValue (block w m i) * r ^ (numBlocks w m.length - i)

/-- One block more: add it and multiply by the point. -/
def absorb (r a : Nat) (b : List UInt8) : Nat := (a + blockValue b) * r

/-- The polynomial, block by block. -/
def horner (r : Nat) (bs : List (List UInt8)) : Nat := bs.foldl (absorb r) 0

-- ================================================================ Poly1305

/-- `2^130 - 5`. -/
def prime : Nat := 2 ^ 130 - 5

/-- The bits of the point that are kept. -/
def clampMask : Nat := 0x0ffffffc0ffffffc0ffffffc0fffffff

/-- The point in the first half of a key. -/
def point (key : List UInt8) : Nat := ofBytes (key.take 16) &&& clampMask

/-- The pad in the second half of a key. -/
def pad (key : List UInt8) : Nat := ofBytes ((key.drop 16).take 16)

/-- The tag of a message under a key of 32 bytes. -/
def poly1305 (key m : List UInt8) : List UInt8 :=
  toBytes 16 ((poly 16 (point key) m % prime + pad key) % 2 ^ 128)

-- the test vector of RFC 8439
example : poly1305
    [0x85, 0xd6, 0xbe, 0x78, 0x57, 0x55, 0x6d, 0x33, 0x7f, 0x44, 0x52, 0xfe,
      0x42, 0xd5, 0x06, 0xa8, 0x01, 0x03, 0x80, 0x8a, 0xfb, 0x0d, 0xb2, 0xfd,
      0x4a, 0xbf, 0xf6, 0xaf, 0x41, 0x49, 0xf5, 0x1b]
    [0x43, 0x72, 0x79, 0x70, 0x74, 0x6f, 0x67, 0x72, 0x61, 0x70, 0x68, 0x69,
      0x63, 0x20, 0x46, 0x6f, 0x72, 0x75, 0x6d, 0x20, 0x52, 0x65, 0x73, 0x65,
      0x61, 0x72, 0x63, 0x68, 0x20, 0x47, 0x72, 0x6f, 0x75, 0x70]
    = [0xa8, 0x06, 0x1d, 0xc1, 0x30, 0x51, 0x36, 0xc6, 0xc2, 0x2b, 0x8b, 0xaf,
      0x0c, 0x01, 0x27, 0xa9] := by decide +kernel

variable {w : Nat}

-- ================================================================== blocks

@[simp] theorem length_blocks (m : List UInt8) :
    (blocks w m).length = numBlocks w m.length := by
  rw [blocks, List.length_map, List.length_range]

theorem numBlocks_mul_add (hw : 0 < w) (q n : Nat) :
    numBlocks w (w * q + n) = q + numBlocks w n := by
  have hsum : w * q + n + w - 1 = n + w - 1 + w * q := by omega
  rw [numBlocks, hsum, Nat.add_mul_div_left _ _ hw, numBlocks, Nat.add_comm]

/-- A rest shorter than a block is one block, if anything. -/
theorem numBlocks_of_lt {n : Nat} (h : 0 < n) (hn : n ≤ w) :
    numBlocks w n = 1 := by
  rw [numBlocks]
  exact Nat.div_eq_of_lt_le (by omega) (by omega)

theorem numBlocks_zero (hw : 0 < w) : numBlocks w 0 = 0 :=
  Nat.div_eq_of_lt (by omega)

theorem blocks_nil (hw : 0 < w) : blocks w [] = [] := by
  rw [blocks, List.length_nil, numBlocks_zero hw]
  rfl

/-- Whole blocks are cut alike whatever follows them. -/
theorem blocks_append (hw : 0 < w) {q : Nat} {m₁ : List UInt8}
    (hq : m₁.length = w * q) (m₂ : List UInt8) :
    blocks w (m₁ ++ m₂) = blocks w m₁ ++ blocks w m₂ := by
  have hn₁ : numBlocks w m₁.length = q := by
    have h := numBlocks_mul_add hw q 0
    rw [numBlocks_zero hw] at h
    rw [hq]
    exact h
  have hn : numBlocks w (m₁ ++ m₂).length = q + numBlocks w m₂.length := by
    rw [List.length_append, hq, numBlocks_mul_add hw]
  unfold blocks
  rw [hn, hn₁, List.range_add, List.map_append, List.map_map]
  congr 1
  · apply List.map_congr_left
    intro i hi
    have hle : w * i + w ≤ m₁.length := by
      rw [hq, ← Nat.mul_succ]
      exact Nat.mul_le_mul_left w (List.mem_range.mp hi)
    unfold block
    rw [List.drop_append_of_le_length (by omega), List.take_append_of_le_length]
    rw [List.length_drop]
    omega
  · apply List.map_congr_left
    intro i _
    show block w (m₁ ++ m₂) (q + i) = block w m₂ i
    unfold block
    rw [Nat.mul_add, ← hq, List.drop_length_add_append]

/-- A message of at most one block is that block. -/
theorem blocks_of_le {m : List UInt8} (h : m ≠ []) (hm : m.length ≤ w) :
    blocks w m = [m] := by
  have hpos : 0 < m.length := List.length_pos_iff.mpr h
  rw [blocks, numBlocks_of_lt hpos hm]
  show [block w m 0] = [m]
  rw [block, Nat.mul_zero, List.drop_zero, List.take_of_length_le hm]

-- ================================================================== Horner

theorem horner_append (r : Nat) (bs cs : List (List UInt8)) :
    horner r (bs ++ cs) = cs.foldl (absorb r) (horner r bs) := by
  rw [horner, List.foldl_append, horner]

/-- Congruent start values stay congruent. -/
theorem foldl_absorb_modEq {M r a b : Nat} (bs : List (List UInt8))
    (h : a ≡ b [MOD M]) :
    bs.foldl (absorb r) a ≡ bs.foldl (absorb r) b [MOD M] := by
  induction bs generalizing a b with
  | nil => exact h
  | cons c bs ih => exact ih ((h.add_right _).mul_right r)

/-- The sum over a list of blocks, from any start value. -/
theorem foldl_absorb_eq_sum (r a : Nat) (bs : List (List UInt8)) :
    bs.foldl (absorb r) a = a * r ^ bs.length
      + ∑ i ∈ Finset.range bs.length,
          blockValue (bs.getD i []) * r ^ (bs.length - i) := by
  induction bs generalizing a with
  | nil => simp
  | cons b bs ih =>
      rw [List.foldl_cons, ih, List.length_cons, Finset.sum_range_succ']
      simp only [List.getD_cons_succ, List.getD_cons_zero, Nat.sub_zero,
        Nat.add_sub_add_right]
      unfold absorb
      ring

/-- Block by block or all at once. -/
theorem horner_eq_poly (r : Nat) (m : List UInt8) :
    horner r (blocks w m) = poly w r m := by
  rw [horner, foldl_absorb_eq_sum, Nat.zero_mul, Nat.zero_add, length_blocks,
    poly]
  apply Finset.sum_congr rfl
  intro i hi
  have hlt : i < (blocks w m).length := by
    rw [length_blocks]
    exact Finset.mem_range.mp hi
  rw [List.getD_eq_getElem _ _ hlt]
  simp only [blocks, List.getElem_map, List.getElem_range]

end PolyMac
