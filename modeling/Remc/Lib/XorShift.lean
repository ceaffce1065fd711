/-
The steps of shift-register generators, on words of any width: rotations, and
a word XORed with its own shift.

Neither loses anything. A rotation, which is linear over XOR, is undone by
the opposite one; a shift by `k` is undone by repeating it with `2k`, `4k`
and so on until it shifts everything out (`undo_leftShift`). A map that loses
nothing never reaches one of its fixed points from another state.
-/
import Mathlib.Data.BitVec
import Mathlib.Logic.Function.Iterate

namespace XorShift

variable {w : Nat}

-- ================================================================ rotations

theorem rotateLeft_xor (x y : BitVec w) (r : Nat) :
    (x ^^^ y).rotateLeft r = x.rotateLeft r ^^^ y.rotateLeft r := by
  ext i hi
  simp only [BitVec.getElem_rotateLeft, BitVec.getElem_xor]
  by_cases hlow : i < r % w
  · simp [hlow]
  · simp [hlow]

/-- Rotations by two amounts that make up the width. -/
theorem rotateLeft_rotateLeft {r s : Nat} (hr : r < w) (hs : s < w)
    (hsum : r + s = w) (x : BitVec w) :
    (x.rotateLeft r).rotateLeft s = x := by
  ext i hi
  simp only [BitVec.getElem_rotateLeft, Nat.mod_eq_of_lt hr,
    Nat.mod_eq_of_lt hs]
  by_cases hlow : i < s
  · have hhigh : ¬w - s + i < r := by omega
    have hindex : w - s + i - r = i := by omega
    simp [hlow, hhigh, hindex]
  · have hlow' : i - s < r := by omega
    have hindex : w - r + (i - s) = i := by omega
    simp [hlow, hlow', hindex]

-- =================================================================== shifts

/-- A word XORed with its shift by `k`. -/
def leftShift (k : Nat) (x : BitVec w) : BitVec w := x ^^^ x <<< k

/-- Twice the same shift is the double one. -/
theorem leftShift_leftShift (k : Nat) (x : BitVec w) :
    leftShift k (leftShift k x) = leftShift (2 * k) x := by
  simp only [leftShift, BitVec.shiftLeft_xor_distrib, ← BitVec.shiftLeft_add,
    ← Nat.two_mul]
  rw [BitVec.xor_assoc, ← BitVec.xor_assoc (x <<< k), BitVec.xor_self,
    BitVec.zero_xor]

/-- The shifts by `k`, `2k` and so on, `n` of them. -/
def undo : Nat → Nat → BitVec w → BitVec w
  | 0, _, x => x
  | n + 1, k, x => undo n (2 * k) (leftShift k x)

/-- As soon as the doubled shift leaves no bit, the word is recovered. -/
theorem undo_leftShift {n k : Nat} (h : w ≤ 2 ^ n * k) (x : BitVec w) :
    undo n k (leftShift k x) = x := by
  induction n generalizing k with
  | zero =>
      rw [pow_zero, Nat.one_mul] at h
      rw [undo, leftShift, BitVec.shiftLeft_eq_zero h, BitVec.xor_zero]
  | succ n ih =>
      rw [undo, leftShift_leftShift]
      apply ih
      rwa [← Nat.mul_assoc, ← pow_succ]

theorem leftShift_injective {n k : Nat} (h : w ≤ 2 ^ n * k) :
    Function.Injective (leftShift k : BitVec w → BitVec w) :=
  Function.LeftInverse.injective (undo_leftShift h)

theorem leftShift_undo {n k : Nat} (h : w ≤ 2 ^ n * k) (x : BitVec w) :
    leftShift k (undo n k x) = x := by
  induction n generalizing k x with
  | zero =>
      rw [pow_zero, Nat.one_mul] at h
      rw [undo, leftShift, BitVec.shiftLeft_eq_zero h, BitVec.xor_zero]
  | succ n ih =>
      have h' : w ≤ 2 ^ n * (2 * k) := by rwa [← Nat.mul_assoc, ← pow_succ]
      apply leftShift_injective h
      rw [undo, leftShift_leftShift, ih h']

-- ===================================================================== runs

variable {α : Type*} {f : α → α} {z x : α}

/-- A fixed point of an injective map is not reached from elsewhere. -/
theorem iterate_ne_fixed (hf : Function.Injective f) (hz : f z = z)
    (hx : x ≠ z) (n : Nat) : f^[n] x ≠ z := by
  intro hreach
  apply hx
  apply hf.iterate n
  rw [hreach, Function.iterate_fixed hz]

end XorShift
