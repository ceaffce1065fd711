/-
The limb arithmetic of Poly1305, read as numbers.

# No intermediate value wraps

The loop of `poly1305_blocks` keeps its limbs `Bounded`: below 2^26, up to
the second one, which a last carry may push over by less than 2^7. With
that and the limbs of `r` below 2^26 the columns of the product leave room
for the carries (`Columns.Fit`), and every statement of the loop body does
on machine words what `Radix` does on numbers: `products_nat`,
`partialReduce_nat`, and after the loop `fullCarry_nat` and `minusP_nat`.
Each comes from one chain of equations that also runs the statements in
exact arithmetic (`productsExact_eq` and the others).

# What is computed

- `blockStep_value`: one turn adds the block and multiplies by `r`, modulo
  2^130 - 5.
- `reduced_value`: carrying, subtracting and selecting leave the residue.
- `addPad_value` and `repack_value`: the last steps, modulo 2^128.
-/
import Remc.Crypto.Poly1305Exact
import Remc.Lib.PolyMac
import Remc.Lib.Radix

namespace Remc.Crypto

open LittleEndian
open ExactWords (add32 mul32 add64 narrow join32 add32_exact mul32_exact
  add64_exact narrow_exact bind_exact)

-- ================================================================ numbers

/-- The limbs as numbers. -/
def Limbs.nat (x : Limbs) : Radix.Limbs :=
  ⟨x.l0.toNat, x.l1.toNat, x.l2.toNat, x.l3.toNat, x.l4.toNat⟩

/-- The columns as numbers. -/
def Columns.nat (d : Columns) : Radix.Limbs :=
  ⟨d.d0.toNat, d.d1.toNat, d.d2.toNat, d.d3.toNat, d.d4.toNat⟩

/-- The number that five limbs stand for. -/
def Limbs.value (x : Limbs) : Nat := x.nat.value (2 ^ 26)

/-- What a turn of the loop leaves. -/
structure Limbs.Bounded (h : Limbs) : Prop where
  l0 : h.l0.toNat < 2 ^ 26
  l1 : h.l1.toNat < 2 ^ 26 + 2 ^ 7
  l2 : h.l2.toNat < 2 ^ 26
  l3 : h.l3.toNat < 2 ^ 26
  l4 : h.l4.toNat < 2 ^ 26

/-- The limbs once a block is added. -/
structure Limbs.Summed (h : Limbs) : Prop where
  l0 : h.l0.toNat < 2 ^ 27
  l1 : h.l1.toNat < 2 ^ 27 + 2 ^ 7
  l2 : h.l2.toNat < 2 ^ 27
  l3 : h.l3.toNat < 2 ^ 27
  l4 : h.l4.toNat < 2 ^ 27

/-- Column sums that leave room for the carries. -/
structure Columns.Fit (d : Columns) : Prop where
  d0 : d.d0.toNat ≤ 21 * (2 ^ 53 + 2 ^ 33)
  d1 : d.d1.toNat ≤ 17 * (2 ^ 53 + 2 ^ 33)
  d2 : d.d2.toNat ≤ 13 * (2 ^ 53 + 2 ^ 33)
  d3 : d.d3.toNat ≤ 9 * (2 ^ 53 + 2 ^ 33)
  d4 : d.d4.toNat ≤ 5 * (2 ^ 53 + 2 ^ 33)

-- ============================================================ word lemmas

theorem toNat_and_low (x : UInt32) :
    (x &&& 0x3ffffff).toNat = x.toNat % 2 ^ 26 := by
  rw [UInt32.toNat_and]
  exact Nat.and_two_pow_sub_one_eq_mod x.toNat 26

/-- Shifting by less than a word. -/
theorem toNat_ofNat_mod {k : Nat} (hk : k < 32) :
    (UInt32.ofNat k).toNat % 32 = k := by
  rw [UInt32.toNat_ofNat']
  omega

theorem toNat_shiftRight (x : UInt32) {k : Nat} (hk : k < 32) :
    (x >>> UInt32.ofNat k).toNat = x.toNat / 2 ^ k := by
  rw [UInt32.toNat_shiftRight, toNat_ofNat_mod hk, Nat.shiftRight_eq_div_pow]

theorem toNat_shiftRight_26 (x : UInt32) :
    (x >>> 26).toNat = x.toNat / 2 ^ 26 :=
  toNat_shiftRight x (k := 26) (by omega)

theorem toNat_shiftRight64 (d : UInt64) {k : Nat} (hk : k < 64) :
    (d >>> UInt64.ofNat k).toNat = d.toNat / 2 ^ k := by
  have hshift : (UInt64.ofNat k).toNat % 64 = k := by
    rw [UInt64.toNat_ofNat']
    omega
  rw [UInt64.toNat_shiftRight, hshift, Nat.shiftRight_eq_div_pow]

/-- The low limb of a column. -/
theorem toNat_toUInt32_and_low (d : UInt64) :
    (d.toUInt32 &&& 0x3ffffff).toNat = d.toNat % 2 ^ 26 := by
  rw [toNat_and_low, UInt64.toNat_toUInt32]
  omega

theorem toNat_shiftRight64_26 (d : UInt64) :
    (d >>> 26).toNat = d.toNat / 2 ^ 26 :=
  toNat_shiftRight64 d (k := 26) (by omega)

/-- The carry of a column that is small enough. -/
theorem narrow_carry {d : UInt64} (h : d.toNat < 2 ^ 58) :
    narrow (d >>> 26) = some (d >>> 26).toUInt32
      ∧ (d >>> 26).toUInt32.toNat = d.toNat / 2 ^ 26 := by
  have hshift := toNat_shiftRight64_26 d
  obtain ⟨hnarrow, hnat⟩ := narrow_exact (a := d >>> 26) (by omega)
  exact ⟨hnarrow, hnat.trans hshift⟩

/-- A carry into the next column. -/
theorem add64_carry {d : UInt64} {c : UInt32} (h : d.toNat < 2 ^ 63) :
    add64 d c.toUInt64 = some (d + c.toUInt64)
      ∧ (d + c.toUInt64).toNat = d.toNat + c.toNat := by
  have hc := c.toNat_lt
  have hwide : c.toUInt64.toNat = c.toNat := UInt32.toNat_toUInt64 c
  obtain ⟨hadd, hnat⟩ := add64_exact (a := d) (b := c.toUInt64) (by omega)
  exact ⟨hadd, hnat.trans (by rw [hwide])⟩

/-- A carry into the next limb. -/
theorem add32_carry {x y : UInt32} (h : y.toNat + x.toNat / 2 ^ 26 < 2 ^ 32) :
    add32 y (x >>> 26) = some (y + x >>> 26)
      ∧ (y + x >>> 26).toNat = y.toNat + x.toNat / 2 ^ 26 := by
  have hshift := toNat_shiftRight_26 x
  obtain ⟨hadd, hnat⟩ := add32_exact (x := y) (y := x >>> 26) (by omega)
  exact ⟨hadd, hnat.trans (by rw [hshift])⟩

theorem mul32_five {x : UInt32} (h : x.toNat * 5 < 2 ^ 32) :
    mul32 x 5 = some (x * 5) ∧ (x * 5).toNat = x.toNat * 5 :=
  mul32_exact (y := 5) h

/-- The last carry, five times, into the first limb. -/
theorem add32_five {c y : UInt32} (h : y.toNat + c.toNat * 5 < 2 ^ 32) :
    mul32 c 5 = some (c * 5) ∧ add32 y (c * 5) = some (y + c * 5)
      ∧ (y + c * 5).toNat = y.toNat + c.toNat * 5 := by
  obtain ⟨hmul, hfive⟩ := mul32_five (x := c) (by omega)
  obtain ⟨hadd, hnat⟩ := add32_exact (x := y) (y := c * 5) (by omega)
  exact ⟨hmul, hadd, hnat.trans (by rw [hfive])⟩

theorem mul64Exact_eq (a b : UInt32) :
    mul64Exact a b = some (mul64 a b)
      ∧ (mul64 a b).toNat = a.toNat * b.toNat := by
  have ha := a.toNat_lt
  have hb := b.toNat_lt
  have hlt : a.toNat * b.toNat < 2 ^ 32 * 2 ^ 32 := Nat.mul_lt_mul'' ha hb
  obtain ⟨hmul, hnat⟩ :=
    ExactWords.mul64_exact (a := a.toUInt64) (b := b.toUInt64) (by
      rw [UInt32.toNat_toUInt64, UInt32.toNat_toUInt64]
      exact hlt)
  rw [UInt32.toNat_toUInt64, UInt32.toNat_toUInt64] at hnat
  exact ⟨hmul, hnat⟩

-- =============================================================== products

theorem Limbs.Summed.atMost {h : Limbs} (hh : h.Summed) :
    h.nat.AtMost (2 ^ 27 + 2 ^ 7) := by
  obtain ⟨h0, h1, h2, h3, h4⟩ := hh
  refine ⟨?_, ?_, ?_, ?_, ?_⟩ <;> simp only [Limbs.nat] <;> omega

/-- A column whose sum fits, and with it all the sums before. -/
theorem columnExact_eq {h x : Limbs}
    (hlt : h.l0.toNat * x.l0.toNat + h.l1.toNat * x.l1.toNat
      + h.l2.toNat * x.l2.toNat + h.l3.toNat * x.l3.toNat
      + h.l4.toNat * x.l4.toNat < 2 ^ 64) :
    columnExact h x = some (mul64 h.l0 x.l0 + mul64 h.l1 x.l1
        + mul64 h.l2 x.l2 + mul64 h.l3 x.l3 + mul64 h.l4 x.l4)
      ∧ (mul64 h.l0 x.l0 + mul64 h.l1 x.l1 + mul64 h.l2 x.l2
          + mul64 h.l3 x.l3 + mul64 h.l4 x.l4).toNat
        = h.l0.toNat * x.l0.toNat + h.l1.toNat * x.l1.toNat
          + h.l2.toNat * x.l2.toNat + h.l3.toNat * x.l3.toNat
          + h.l4.toNat * x.l4.toNat := by
  obtain ⟨x0, e0⟩ := mul64Exact_eq h.l0 x.l0
  obtain ⟨x1, e1⟩ := mul64Exact_eq h.l1 x.l1
  obtain ⟨x2, e2⟩ := mul64Exact_eq h.l2 x.l2
  obtain ⟨x3, e3⟩ := mul64Exact_eq h.l3 x.l3
  obtain ⟨x4, e4⟩ := mul64Exact_eq h.l4 x.l4
  rw [← e0, ← e1, ← e2, ← e3, ← e4] at hlt ⊢
  obtain ⟨y1, f1⟩ := add64_exact (a := mul64 h.l0 x.l0) (b := mul64 h.l1 x.l1)
    (by omega)
  obtain ⟨y2, f2⟩ := add64_exact (a := mul64 h.l0 x.l0 + mul64 h.l1 x.l1)
    (b := mul64 h.l2 x.l2) (by omega)
  obtain ⟨y3, f3⟩ := add64_exact
    (a := mul64 h.l0 x.l0 + mul64 h.l1 x.l1 + mul64 h.l2 x.l2)
    (b := mul64 h.l3 x.l3) (by omega)
  obtain ⟨y4, f4⟩ := add64_exact
    (a := mul64 h.l0 x.l0 + mul64 h.l1 x.l1 + mul64 h.l2 x.l2
      + mul64 h.l3 x.l3)
    (b := mul64 h.l4 x.l4) (by omega)
  refine ⟨?_, by rw [f4, f3, f2, f1]⟩
  exact bind_exact x0 (bind_exact x1 (bind_exact x2 (bind_exact x3
    (bind_exact x4 (bind_exact y1 (bind_exact y2 (bind_exact y3 y4)))))))

/-- The products in exact arithmetic. -/
theorem productsExact_eq {r h : Limbs} (hr : r.nat.Reduced (2 ^ 26))
    (hh : h.Summed) :
    productsExact r h = some (products r h)
      ∧ (products r h).nat = Radix.Limbs.mul 5 r.nat h.nat := by
  obtain ⟨b0, b1, b2, b3, b4⟩ := Radix.Limbs.mul_le (c := 5) hh.atMost hr.atMost
  obtain ⟨-, r1, r2, r3, r4⟩ := hr
  simp only [Radix.Limbs.mul, Limbs.nat] at b0 b1 b2 b3 b4 r1 r2 r3 r4
  -- the multiples `s1` to `s4`
  obtain ⟨x1, s1⟩ := mul32_five (x := r.l1) (by omega)
  obtain ⟨x2, s2⟩ := mul32_five (x := r.l2) (by omega)
  obtain ⟨x3, s3⟩ := mul32_five (x := r.l3) (by omega)
  obtain ⟨x4, s4⟩ := mul32_five (x := r.l4) (by omega)
  simp only [← s1, ← s2, ← s3, ← s4] at b0 b1 b2 b3 b4
  obtain ⟨y0, d0⟩ := columnExact_eq (h := h)
    (x := ⟨r.l0, r.l4 * 5, r.l3 * 5, r.l2 * 5, r.l1 * 5⟩)
    (Nat.lt_of_le_of_lt b0 (by norm_num))
  obtain ⟨y1, d1⟩ := columnExact_eq (h := h)
    (x := ⟨r.l1, r.l0, r.l4 * 5, r.l3 * 5, r.l2 * 5⟩)
    (Nat.lt_of_le_of_lt b1 (by norm_num))
  obtain ⟨y2, d2⟩ := columnExact_eq (h := h)
    (x := ⟨r.l2, r.l1, r.l0, r.l4 * 5, r.l3 * 5⟩)
    (Nat.lt_of_le_of_lt b2 (by norm_num))
  obtain ⟨y3, d3⟩ := columnExact_eq (h := h)
    (x := ⟨r.l3, r.l2, r.l1, r.l0, r.l4 * 5⟩)
    (Nat.lt_of_le_of_lt b3 (by norm_num))
  obtain ⟨y4, d4⟩ := columnExact_eq (h := h)
    (x := ⟨r.l4, r.l3, r.l2, r.l1, r.l0⟩)
    (Nat.lt_of_le_of_lt b4 (by norm_num))
  constructor
  · exact bind_exact x1 (bind_exact x2 (bind_exact x3 (bind_exact x4
      (bind_exact y0 (bind_exact y1 (bind_exact y2 (bind_exact y3
        (bind_exact y4 rfl))))))))
  · simp only [s1, s2, s3, s4] at d0 d1 d2 d3 d4
    simp only [Columns.nat, products, Radix.Limbs.mul, Limbs.nat, d0, d1, d2,
      d3, d4]

-- a limb of `r` that no mask keeps small
example : productsExact ⟨0, 0x40000000, 0, 0, 0⟩ .zero = none := by decide

/-- Nothing wraps in the products, and they leave room for the carries. -/
theorem products_nat {r h : Limbs} (hr : r.nat.Reduced (2 ^ 26))
    (hh : h.Summed) :
    (products r h).nat = Radix.Limbs.mul 5 r.nat h.nat
      ∧ (products r h).Fit := by
  obtain ⟨b0, b1, b2, b3, b4⟩ := Radix.Limbs.mul_le (c := 5) hh.atMost hr.atMost
  have hnat := (productsExact_eq hr hh).2
  rw [← hnat] at b0 b1 b2 b3 b4
  refine ⟨hnat, ?_, ?_, ?_, ?_, ?_⟩
  · exact Nat.le_trans b0 (by norm_num)
  · exact Nat.le_trans b1 (by norm_num)
  · exact Nat.le_trans b2 (by norm_num)
  · exact Nat.le_trans b3 (by norm_num)
  · exact Nat.le_trans b4 (by norm_num)

-- ===================================================== partial reduction

/-- The carries of the loop body do on words what `Radix` does on numbers,
also in exact arithmetic. -/
theorem partialReduceExact_eq {d : Columns} (hd : d.Fit) :
    partialReduceExact d = some (partialReduce d)
      ∧ (partialReduce d).nat
        = (d.nat.carryFirst (2 ^ 26)).carry (2 ^ 26) 5 := by
  obtain ⟨hd0, hd1, hd2, hd3, hd4⟩ := hd
  let c0 := (d.d0 >>> 26).toUInt32
  let d1 := d.d1 + c0.toUInt64
  let c1 := (d1 >>> 26).toUInt32
  let d2 := d.d2 + c1.toUInt64
  let c2 := (d2 >>> 26).toUInt32
  let d3 := d.d3 + c2.toUInt64
  let c3 := (d3 >>> 26).toUInt32
  let d4 := d.d4 + c3.toUInt64
  let c4 := (d4 >>> 26).toUInt32
  let h0 : UInt32 := (d.d0.toUInt32 &&& 0x3ffffff) + c4 * 5
  let c5 : UInt32 := h0 >>> 26
  let h1 : UInt32 := (d1.toUInt32 &&& 0x3ffffff) + c5
  have low0 := toNat_toUInt32_and_low d.d0
  have low1 := toNat_toUInt32_and_low d1
  obtain ⟨xc0, ec0⟩ : narrow (d.d0 >>> 26) = some c0
      ∧ c0.toNat = d.d0.toNat / 2 ^ 26 := narrow_carry (by omega)
  obtain ⟨xd1, ed1⟩ : add64 d.d1 c0.toUInt64 = some d1
      ∧ d1.toNat = d.d1.toNat + c0.toNat := add64_carry (by omega)
  obtain ⟨xc1, ec1⟩ : narrow (d1 >>> 26) = some c1
      ∧ c1.toNat = d1.toNat / 2 ^ 26 := narrow_carry (by omega)
  obtain ⟨xd2, ed2⟩ : add64 d.d2 c1.toUInt64 = some d2
      ∧ d2.toNat = d.d2.toNat + c1.toNat := add64_carry (by omega)
  obtain ⟨xc2, ec2⟩ : narrow (d2 >>> 26) = some c2
      ∧ c2.toNat = d2.toNat / 2 ^ 26 := narrow_carry (by omega)
  obtain ⟨xd3, ed3⟩ : add64 d.d3 c2.toUInt64 = some d3
      ∧ d3.toNat = d.d3.toNat + c2.toNat := add64_carry (by omega)
  obtain ⟨xc3, ec3⟩ : narrow (d3 >>> 26) = some c3
      ∧ c3.toNat = d3.toNat / 2 ^ 26 := narrow_carry (by omega)
  obtain ⟨xd4, ed4⟩ : add64 d.d4 c3.toUInt64 = some d4
      ∧ d4.toNat = d.d4.toNat + c3.toNat := add64_carry (by omega)
  obtain ⟨xc4, ec4⟩ : narrow (d4 >>> 26) = some c4
      ∧ c4.toNat = d4.toNat / 2 ^ 26 := narrow_carry (by omega)
  obtain ⟨x5, xh0, eh0⟩ : mul32 c4 5 = some (c4 * 5)
      ∧ add32 (d.d0.toUInt32 &&& 0x3ffffff) (c4 * 5) = some h0
      ∧ h0.toNat = (d.d0.toUInt32 &&& 0x3ffffff).toNat + c4.toNat * 5 :=
    add32_five (by omega)
  obtain ⟨xh1, eh1⟩ : add32 (d1.toUInt32 &&& 0x3ffffff) c5 = some h1
      ∧ h1.toNat = (d1.toUInt32 &&& 0x3ffffff).toNat + h0.toNat / 2 ^ 26 :=
    add32_carry (by omega)
  constructor
  · exact bind_exact xc0 (bind_exact xd1 (bind_exact xc1 (bind_exact xd2
      (bind_exact xc2 (bind_exact xd3 (bind_exact xc3 (bind_exact xd4
        (bind_exact xc4 (bind_exact x5 (bind_exact xh0
          (bind_exact xh1 rfl)))))))))))
  · calc (partialReduce d).nat
        = ⟨h0.toNat % 2 ^ 26, d1.toNat % 2 ^ 26 + h0.toNat / 2 ^ 26,
            d2.toNat % 2 ^ 26, d3.toNat % 2 ^ 26, d4.toNat % 2 ^ 26⟩ := by
          rw [← toNat_and_low h0, ← low1, ← eh1, ← toNat_toUInt32_and_low d2,
            ← toNat_toUInt32_and_low d3, ← toNat_toUInt32_and_low d4]
          rfl
      _ = (d.nat.carryFirst (2 ^ 26)).carry (2 ^ 26) 5 := by
          rw [eh0, low0, ec4, ed4, ec3, ed3, ec2, ed2, ec1, ed1, ec0]
          rfl

/-- The carries of the loop body do on words what `Radix` does on numbers. -/
theorem partialReduce_nat {d : Columns} (hd : d.Fit) :
    (partialReduce d).nat
      = (d.nat.carryFirst (2 ^ 26)).carry (2 ^ 26) 5 :=
  (partialReduceExact_eq hd).2

/-- What the carries leave is bounded again. -/
theorem partialReduce_bounded {d : Columns} (hd : d.Fit) :
    (partialReduce d).Bounded := by
  have hnat := partialReduce_nat hd
  obtain ⟨hd0, hd1, hd2, hd3, hd4⟩ := hd
  simp only [Limbs.nat, Columns.nat, Radix.Limbs.carry, Radix.Limbs.carryFirst,
    Radix.Limbs.mk.injEq] at hnat
  obtain ⟨e0, e1, e2, e3, e4⟩ := hnat
  refine ⟨?_, ?_, ?_, ?_, ?_⟩
  · omega
  · omega
  · omega
  · omega
  · omega

-- ========================================================== adding a block

/-- A word in the bytes, as digits of their number. -/
theorem readLE32_digits (bs : Bytes) (pos : Nat) :
    (readLE32 bs pos).toNat = ofBytes bs / 2 ^ (8 * pos) % 2 ^ 32 := by
  have hlt : ofBytes bs / 256 ^ pos % 256 ^ 4 < 2 ^ 32 :=
    Nat.mod_lt _ (by norm_num)
  have hpos : 256 ^ pos = 2 ^ (8 * pos) := (pow_mul 2 8 pos).symm
  rw [readLE32, UInt32.toNat_ofNat', ofBytes_take, ofBytes_drop,
    Nat.mod_eq_of_lt hlt, hpos]
  rfl

/-- The same for a shifted word. -/
theorem readLE32_shiftRight (bs : Bytes) (pos : Nat) {k : Nat} (hk : k < 32) :
    (readLE32 bs pos >>> UInt32.ofNat k).toNat
      = ofBytes bs / 2 ^ (8 * pos + k) % 2 ^ (32 - k) := by
  have hword : 2 ^ 32 = 2 ^ k * 2 ^ (32 - k) := by
    rw [← pow_add, Nat.add_sub_cancel' (Nat.le_of_lt hk)]
  rw [toNat_shiftRight _ hk, readLE32_digits, hword, Nat.mod_mul_right_div_self,
    Nat.div_div_eq_div_mul, pow_add]

/-- The digits in base 2^26. -/
theorem digits_26 (N : Nat) :
    Radix.Limbs.digits (2 ^ 26) N
      = ⟨N % 2 ^ 26, N / 2 ^ 26 % 2 ^ 26, N / 2 ^ 52 % 2 ^ 26,
          N / 2 ^ 78 % 2 ^ 26, N / 2 ^ 104⟩ := rfl

/-- The words of a block before they are masked. -/
theorem blockWords (m : Bytes) :
    (readLE32 m 0).toNat = ofBytes m % 2 ^ 32
      ∧ (readLE32 m 3 >>> 2).toNat = ofBytes m / 2 ^ 26 % 2 ^ 30
      ∧ (readLE32 m 6 >>> 4).toNat = ofBytes m / 2 ^ 52 % 2 ^ 28
      ∧ (readLE32 m 9 >>> 6).toNat = ofBytes m / 2 ^ 78 % 2 ^ 26
      ∧ (readLE32 m 12 >>> 8).toNat = ofBytes m / 2 ^ 104 % 2 ^ 24 := by
  refine ⟨?_, ?_, ?_, ?_, ?_⟩
  · have h := readLE32_digits m 0
    rw [Nat.mul_zero, pow_zero, Nat.div_one] at h
    exact h
  · exact readLE32_shiftRight m 3 (k := 2) (by omega)
  · exact readLE32_shiftRight m 6 (k := 4) (by omega)
  · exact readLE32_shiftRight m 9 (k := 6) (by omega)
  · exact readLE32_shiftRight m 12 (k := 8) (by omega)

/-- A limb and the low bits of a word. -/
theorem add32_low {h : UInt32} (w : UInt32) (hh : h.toNat < 2 ^ 31) :
    add32 h (w &&& 0x3ffffff) = some (h + (w &&& 0x3ffffff))
      ∧ (h + (w &&& 0x3ffffff)).toNat = h.toNat + w.toNat % 2 ^ 26 := by
  have hlow := toNat_and_low w
  obtain ⟨hadd, hnat⟩ := add32_exact (x := h) (y := w &&& 0x3ffffff) (by omega)
  exact ⟨hadd, hnat.trans (by rw [hlow])⟩

/-- The limbs of a block, its high bit behind the last byte, also in exact
arithmetic. -/
theorem addBlockExact_eq {h : Limbs} (hh : h.Bounded) {hibit : UInt32}
    {k : Nat} (hk : k ≤ 1) (hb : hibit.toNat = 2 ^ 24 * k) (m : Bytes) :
    addBlockExact h hibit m = some (addBlock h hibit m)
      ∧ (addBlock h hibit m).nat
        = h.nat.add (Radix.Limbs.digits (2 ^ 26)
            (ofBytes (m.take 16) + 2 ^ 128 * k))
      ∧ (addBlock h hibit m).Summed := by
  obtain ⟨h0, h1, h2, h3, h4⟩ := hh
  obtain ⟨e0, e1, e2, e3, e4⟩ := blockWords m
  obtain ⟨x0, w0⟩ : add32 h.l0 _ = some (addBlock h hibit m).l0
      ∧ (addBlock h hibit m).l0.toNat = _ :=
    add32_low (readLE32 m 0) (by omega)
  obtain ⟨x1, w1⟩ : add32 h.l1 _ = some (addBlock h hibit m).l1
      ∧ (addBlock h hibit m).l1.toNat = _ :=
    add32_low (readLE32 m 3 >>> 2) (by omega)
  obtain ⟨x2, w2⟩ : add32 h.l2 _ = some (addBlock h hibit m).l2
      ∧ (addBlock h hibit m).l2.toNat = _ :=
    add32_low (readLE32 m 6 >>> 4) (by omega)
  obtain ⟨x3, w3⟩ : add32 h.l3 _ = some (addBlock h hibit m).l3
      ∧ (addBlock h hibit m).l3.toNat = _ :=
    add32_low (readLE32 m 9 >>> 6) (by omega)
  have htop : (readLE32 m 12 >>> 8).toNat < 2 ^ 24 := by omega
  have hor : (readLE32 m 12 >>> 8 ||| hibit).toNat
      = 2 ^ 24 * k + ofBytes m / 2 ^ 104 % 2 ^ 24 := by
    rw [UInt32.toNat_or, e4, hb, Nat.or_comm]
    exact (Nat.two_pow_add_eq_or_of_lt (Nat.mod_lt _ (by norm_num)) k).symm
  have hjoin : join32 (readLE32 m 12 >>> 8) hibit
      = some (readLE32 m 12 >>> 8 ||| hibit) :=
    ExactWords.join32_of_lt htop (by omega)
  obtain ⟨x4, w4⟩ : add32 h.l4 (readLE32 m 12 >>> 8 ||| hibit)
        = some (addBlock h hibit m).l4
      ∧ (addBlock h hibit m).l4.toNat = _ := add32_exact (by omega)
  refine ⟨?_, ?_, ?_⟩
  · exact bind_exact x0 (bind_exact x1 (bind_exact x2 (bind_exact x3
      (bind_exact hjoin (bind_exact x4 rfl)))))
  · rw [ofBytes_take, digits_26]
    simp only [Limbs.nat, Radix.Limbs.add, w0, w1, w2, w3, w4,
      Radix.Limbs.mk.injEq]
    refine ⟨?_, ?_, ?_, ?_, ?_⟩
    · omega
    · omega
    · omega
    · omega
    · omega
  · refine ⟨?_, ?_, ?_, ?_, ?_⟩
    · omega
    · omega
    · omega
    · omega
    · omega

/-- The limbs of a block, its high bit behind the last byte. -/
theorem addBlock_nat {h : Limbs} (hh : h.Bounded) {hibit : UInt32} {k : Nat}
    (hk : k ≤ 1) (hb : hibit.toNat = 2 ^ 24 * k) (m : Bytes) :
    (addBlock h hibit m).nat
        = h.nat.add (Radix.Limbs.digits (2 ^ 26)
            (ofBytes (m.take 16) + 2 ^ 128 * k))
      ∧ (addBlock h hibit m).Summed :=
  (addBlockExact_eq hh hk hb m).2

-- ===================================================== one turn of the loop

/-- One turn of the loop: add the block and multiply by `r`, modulo
2^130 - 5. The limbs stay bounded. -/
theorem blockStep_value {r h : Limbs} (hr : r.nat.Reduced (2 ^ 26))
    (hh : h.Bounded) {hibit : UInt32} {k : Nat} (hk : k ≤ 1)
    (hb : hibit.toNat = 2 ^ 24 * k) (m : Bytes) :
    (blockStep r hibit h m).Bounded
      ∧ (blockStep r hibit h m).value
          ≡ (h.value + (ofBytes (m.take 16) + 2 ^ 128 * k)) * r.value
            [MOD PolyMac.prime] := by
  have hM : (2 ^ 26) ^ 5 = PolyMac.prime + 5 := rfl
  obtain ⟨hadd, hsummed⟩ := addBlock_nat hh hk hb m
  obtain ⟨hmul, hfit⟩ := products_nat hr hsummed
  refine ⟨partialReduce_bounded hfit, ?_⟩
  let d := products r (addBlock h hibit m)
  have hnat : (blockStep r hibit h m).nat
      = (d.nat.carryFirst (2 ^ 26)).carry (2 ^ 26) 5 := partialReduce_nat hfit
  have hsum : (addBlock h hibit m).value
      = h.value + (ofBytes (m.take 16) + 2 ^ 128 * k) := by
    rw [Limbs.value, hadd, Radix.Limbs.value_add, Radix.Limbs.value_digits,
      Limbs.value]
  calc (blockStep r hibit h m).value
      = ((d.nat.carryFirst (2 ^ 26)).carry (2 ^ 26) 5).value (2 ^ 26) := by
        rw [Limbs.value, hnat]
    _ ≡ (d.nat.carryFirst (2 ^ 26)).value (2 ^ 26) [MOD PolyMac.prime] :=
        Radix.Limbs.value_carry hM _
    _ = (Radix.Limbs.mul 5 r.nat (addBlock h hibit m).nat).value (2 ^ 26) := by
        rw [Radix.Limbs.value_carryFirst, hmul]
    _ ≡ (addBlock h hibit m).value * r.value [MOD PolyMac.prime] :=
        Radix.Limbs.value_mul hM _ _
    _ = (h.value + (ofBytes (m.take 16) + 2 ^ 128 * k)) * r.value := by
        rw [hsum]

-- ================================================================= the key

/-- A mask below 2^26 sees the low digits only. -/
theorem and_eq_mod_and {x y mask : Nat} (h : mask < 2 ^ 26)
    (hy : x % 2 ^ 26 = y) : x &&& mask = y &&& mask := by
  have hlt : x &&& mask < 2 ^ 26 := Nat.lt_of_le_of_lt Nat.and_le_right h
  calc x &&& mask = (x &&& mask) % 2 ^ 26 := (Nat.mod_eq_of_lt hlt).symm
    _ = y &&& mask := by
        rw [Nat.and_mod_two_pow, Nat.mod_eq_of_lt h, hy]

/-- The limbs of `r` are the digits of the clamped point. -/
theorem poly1305Init_r (key : Bytes) :
    (poly1305Init key).r.nat
      = Radix.Limbs.digits (2 ^ 26) (PolyMac.point key) := by
  obtain ⟨e0, e1, e2, e3, e4⟩ := blockWords key
  rw [digits_26, PolyMac.point, ofBytes_take]
  simp only [Limbs.nat, poly1305Init, UInt32.toNat_and, e0, e1, e2, e3, e4,
    Nat.and_div_two_pow, Nat.and_mod_two_pow, Radix.Limbs.mk.injEq]
  have m0 : PolyMac.clampMask % 2 ^ 26 = 0x3ffffff := rfl
  have m1 : PolyMac.clampMask / 2 ^ 26 % 2 ^ 26 = 0x3ffff03 := rfl
  have m2 : PolyMac.clampMask / 2 ^ 52 % 2 ^ 26 = 0x3ffc0ff := rfl
  have m3 : PolyMac.clampMask / 2 ^ 78 % 2 ^ 26 = 0x3f03fff := rfl
  have m4 : PolyMac.clampMask / 2 ^ 104 = 0xfffff := rfl
  rw [m0, m1, m2, m3, m4]
  refine ⟨?_, ?_, ?_, ?_, ?_⟩
  · exact and_eq_mod_and (by decide) (by omega)
  · exact and_eq_mod_and (by decide) (by omega)
  · exact and_eq_mod_and (by decide) (by omega)
  · exact and_eq_mod_and (by decide) (by omega)
  · show ofBytes key / 2 ^ 104 % 2 ^ 24 &&& 0xfffff = _
    congr 1
    omega

theorem poly1305Init_r_reduced (key : Bytes) :
    (poly1305Init key).r.nat.Reduced (2 ^ 26) := by
  have hlt : PolyMac.point key < (2 ^ 26) ^ 5 :=
    Nat.lt_of_le_of_lt Nat.and_le_right (by decide)
  rw [poly1305Init_r]
  exact Radix.Limbs.digits_reduced (by norm_num) hlt

-- ========================================================= full reduction

/-- The full carry pass does on words what `Radix` does on numbers, also in
exact arithmetic, and leaves every limb below 2^26. -/
theorem fullCarryExact_eq {h : Limbs} (hh : h.Bounded) :
    fullCarryExact h = some (fullCarry h)
      ∧ (fullCarry h).nat = h.nat.carry (2 ^ 26) 5
      ∧ (fullCarry h).nat.Reduced (2 ^ 26) := by
  obtain ⟨b0, b1, b2, b3, b4⟩ := hh
  let h2 := h.l2 + h.l1 >>> 26
  let h3 := h.l3 + h2 >>> 26
  let h4 := h.l4 + h3 >>> 26
  let c4 := h4 >>> 26
  let h0 := h.l0 + c4 * 5
  let low := h.l1 &&& 0x3ffffff
  let h1 := low + h0 >>> 26
  have elow : low.toNat = h.l1.toNat % 2 ^ 26 := toNat_and_low _
  have ec4 : c4.toNat = h4.toNat / 2 ^ 26 := toNat_shiftRight_26 _
  obtain ⟨x2, e2⟩ : add32 h.l2 (h.l1 >>> 26) = some h2
      ∧ h2.toNat = h.l2.toNat + h.l1.toNat / 2 ^ 26 := add32_carry (by omega)
  obtain ⟨x3, e3⟩ : add32 h.l3 (h2 >>> 26) = some h3
      ∧ h3.toNat = h.l3.toNat + h2.toNat / 2 ^ 26 := add32_carry (by omega)
  obtain ⟨x4, e4⟩ : add32 h.l4 (h3 >>> 26) = some h4
      ∧ h4.toNat = h.l4.toNat + h3.toNat / 2 ^ 26 := add32_carry (by omega)
  obtain ⟨x5, x0, e0⟩ : mul32 c4 5 = some (c4 * 5)
      ∧ add32 h.l0 (c4 * 5) = some h0
      ∧ h0.toNat = h.l0.toNat + c4.toNat * 5 := add32_five (by omega)
  obtain ⟨x1, e1⟩ : add32 low (h0 >>> 26) = some h1
      ∧ h1.toNat = low.toNat + h0.toNat / 2 ^ 26 := add32_carry (by omega)
  have hnat : (fullCarry h).nat
      = ⟨h0.toNat % 2 ^ 26, h1.toNat, h2.toNat % 2 ^ 26, h3.toNat % 2 ^ 26,
          h4.toNat % 2 ^ 26⟩ := by
    rw [← toNat_and_low h0, ← toNat_and_low h2, ← toNat_and_low h3,
      ← toNat_and_low h4]
    rfl
  refine ⟨?_, ?_, ?_⟩
  · exact bind_exact x2 (bind_exact x3 (bind_exact x4 (bind_exact x5
      (bind_exact x0 (bind_exact x1 rfl)))))
  · rw [hnat, e1, elow, e0, ec4, e4, e3, e2]
    rfl
  · -- a carry out of the second limb leaves it small
    have hlt : h1.toNat < 2 ^ 26 := by omega
    have hlow : ∀ x : Nat, x % 2 ^ 26 < 2 ^ 26 :=
      fun x => Nat.mod_lt x (by norm_num)
    rw [hnat]
    exact ⟨hlow _, hlt, hlow _, hlow _, hlow _⟩

/-- The full carry pass does on words what `Radix` does on numbers, and
leaves every limb below 2^26. -/
theorem fullCarry_nat {h : Limbs} (hh : h.Bounded) :
    (fullCarry h).nat = h.nat.carry (2 ^ 26) 5
      ∧ (fullCarry h).nat.Reduced (2 ^ 26) :=
  (fullCarryExact_eq hh).2

/-- `h + -p`: the sum with 5, but for the last limb, which also loses
2^26 and may wrap. The sums before do not. -/
theorem minusPExact_eq {h : Limbs} (hh : h.nat.Reduced (2 ^ 26)) :
    minusPExact h = some (minusP h)
      ∧ (minusP h).nat
        = { h.nat.plus (2 ^ 26) 5 with
              l4 := ((h.nat.plus (2 ^ 26) 5).l4 + (2 ^ 32 - 2 ^ 26))
                % 2 ^ 32 } := by
  obtain ⟨b0, b1, b2, b3, b4⟩ := hh
  simp only [Limbs.nat] at b0 b1 b2 b3 b4
  let g0 := h.l0 + 5
  let g1 := h.l1 + g0 >>> 26
  let g2 := h.l2 + g1 >>> 26
  let g3 := h.l3 + g2 >>> 26
  let g4 := h.l4 + g3 >>> 26
  obtain ⟨x0, e0⟩ : add32 h.l0 5 = some g0
      ∧ g0.toNat = h.l0.toNat + 5 := add32_exact (y := 5) (by
    show h.l0.toNat + 5 < 2 ^ 32
    omega)
  obtain ⟨x1, e1⟩ : add32 h.l1 (g0 >>> 26) = some g1
      ∧ g1.toNat = h.l1.toNat + g0.toNat / 2 ^ 26 := add32_carry (by omega)
  obtain ⟨x2, e2⟩ : add32 h.l2 (g1 >>> 26) = some g2
      ∧ g2.toNat = h.l2.toNat + g1.toNat / 2 ^ 26 := add32_carry (by omega)
  obtain ⟨x3, e3⟩ : add32 h.l3 (g2 >>> 26) = some g3
      ∧ g3.toNat = h.l3.toNat + g2.toNat / 2 ^ 26 := add32_carry (by omega)
  obtain ⟨x4, e4⟩ : add32 h.l4 (g3 >>> 26) = some g4
      ∧ g4.toNat = h.l4.toNat + g3.toNat / 2 ^ 26 := add32_carry (by omega)
  have elast : (g4 - (1 : UInt32) <<< 26).toNat
      = (g4.toNat + (2 ^ 32 - 2 ^ 26)) % 2 ^ 32 := by
    rw [UInt32.toNat_sub]
    show (2 ^ 32 - 2 ^ 26 + g4.toNat) % 2 ^ 32 = _
    rw [Nat.add_comm]
  constructor
  · exact bind_exact x0 (bind_exact x1 (bind_exact x2 (bind_exact x3
      (bind_exact x4 rfl))))
  · calc (minusP h).nat
        = ⟨g0.toNat % 2 ^ 26, g1.toNat % 2 ^ 26, g2.toNat % 2 ^ 26,
            g3.toNat % 2 ^ 26, (g4.toNat + (2 ^ 32 - 2 ^ 26)) % 2 ^ 32⟩ := by
          rw [← toNat_and_low g0, ← toNat_and_low g1, ← toNat_and_low g2,
            ← toNat_and_low g3, ← elast]
          rfl
      _ = _ := by
          rw [e4, e3, e2, e1, e0]
          rfl

/-- `h + -p`: the sum with 5, but for the last limb, which also loses
2^26 and may wrap. -/
theorem minusP_nat {h : Limbs} (hh : h.nat.Reduced (2 ^ 26)) :
    (minusP h).nat
      = { h.nat.plus (2 ^ 26) 5 with
            l4 := ((h.nat.plus (2 ^ 26) 5).l4 + (2 ^ 32 - 2 ^ 26)) % 2 ^ 32 } :=
  (minusPExact_eq hh).2

/-- The masks choose between the two by the top bit of `g4`. -/
theorem select_eq (h g : Limbs) :
    select h g = if 2 ^ 31 ≤ g.l4.toNat then h else g := by
  have hlt := g.l4.toNat_lt
  have hshift : (g.l4 >>> 31).toNat = g.l4.toNat / 2 ^ 31 :=
    toNat_shiftRight g.l4 (k := 31) (by omega)
  split
  next htop =>
    have hone : g.l4 >>> 31 = 1 := UInt32.toNat_inj.mp (by
      rw [hshift]
      show g.l4.toNat / 2 ^ 31 = 1
      omega)
    unfold select
    simp [hone]
  next htop =>
    have hzero : g.l4 >>> 31 = 0 := UInt32.toNat_inj.mp (by
      rw [hshift]
      show g.l4.toNat / 2 ^ 31 = 0
      omega)
    unfold select
    simp [hzero]

/-- The top bit of `g4` is set exactly where `h` is below 2^130 - 5. -/
theorem minusP_top {h : Limbs} (hh : h.nat.Reduced (2 ^ 26)) :
    2 ^ 31 ≤ (minusP h).l4.toNat ↔ h.value + 5 < (2 ^ 26) ^ 5 := by
  have hl4 : (minusP h).l4.toNat
      = ((h.nat.plus (2 ^ 26) 5).l4 + (2 ^ 32 - 2 ^ 26)) % 2 ^ 32 :=
    congrArg Radix.Limbs.l4 (minusP_nat hh)
  have hle := Radix.Limbs.plus_l4_le (n := 5) (by norm_num) hh
  rw [hl4, Limbs.value, ← Radix.Limbs.plus_l4_lt_iff (by norm_num)]
  omega

/-- The carried limbs, with 2^130 - 5 taken off where it fits, are the
residue. -/
theorem reduced_value {h : Limbs} (hh : h.Bounded) :
    (select (fullCarry h) (minusP (fullCarry h))).nat.Reduced (2 ^ 26)
      ∧ (select (fullCarry h) (minusP (fullCarry h))).value
          = h.value % PolyMac.prime := by
  have hM : (2 ^ 26) ^ 5 = PolyMac.prime + 5 := rfl
  obtain ⟨hnat, hred⟩ := fullCarry_nat hh
  have hmod : (fullCarry h).value ≡ h.value [MOD PolyMac.prime] := by
    rw [Limbs.value, hnat]
    exact Radix.Limbs.value_carry hM h.nat
  have hlt : (fullCarry h).value < (2 ^ 26) ^ 5 := hred.value_lt
  have hreduce := Radix.Limbs.reduce_mod hM (by decide) hlt
  rw [← hmod, hreduce, select_eq]
  by_cases htop : 2 ^ 31 ≤ (minusP (fullCarry h)).l4.toNat
  · rw [if_pos htop, if_pos ((minusP_top hred).mp htop)]
    exact ⟨hred, rfl⟩
  · rw [if_neg htop, if_neg (mt (minusP_top hred).mpr htop)]
    have hge : ¬((fullCarry h).nat.plus (2 ^ 26) 5).l4 < 2 ^ 26 := by
      rw [Radix.Limbs.plus_l4_lt_iff (by norm_num)]
      exact mt (minusP_top hred).mpr htop
    have hle := Radix.Limbs.plus_l4_le (n := 5) (by norm_num) hred
    -- no wrap here: 2^26 is all that the last limb loses
    have hg : (minusP (fullCarry h)).nat
        = { (fullCarry h).nat.plus (2 ^ 26) 5 with
              l4 := ((fullCarry h).nat.plus (2 ^ 26) 5).l4 - 2 ^ 26 } := by
      have hl4 : (((fullCarry h).nat.plus (2 ^ 26) 5).l4
          + (2 ^ 32 - 2 ^ 26)) % 2 ^ 32
            = ((fullCarry h).nat.plus (2 ^ 26) 5).l4 - 2 ^ 26 := by omega
      rw [minusP_nat hred, hl4]
    obtain ⟨hgred, hgval⟩ := Radix.Limbs.plus_sub (by norm_num) hred hge
    rw [Limbs.value, hg]
    exact ⟨hgred, hgval⟩

-- =============================================================== the words

/-- The number that four words stand for. -/
def Words4.value (w : Words4) : Nat :=
  w.w0.toNat + 2 ^ 32 * w.w1.toNat + 2 ^ 64 * w.w2.toNat + 2 ^ 96 * w.w3.toNat

/-- Two limbs in one word: the lower one has no bit above `k`, so the two
share none, and what does not fit is all that is lost. -/
theorem join32_shiftLeft {x : UInt32} (y : UInt32) {k : Nat}
    (hx : x.toNat < 2 ^ k) (hk : k < 32) :
    join32 x (y <<< UInt32.ofNat k) = some (x ||| (y <<< UInt32.ofNat k))
      ∧ ((x ||| (y <<< UInt32.ofNat k)) &&& 0xffffffff).toNat
        = (x.toNat + 2 ^ k * y.toNat) % 2 ^ 32 := by
  have hmod : x.toNat % 2 ^ 32 = x.toNat := Nat.mod_eq_of_lt x.toNat_lt
  have hdvd : 2 ^ k ∣ 2 ^ 32 := pow_dvd_pow 2 (Nat.le_of_lt hk)
  have hall : (x ||| (y <<< UInt32.ofNat k)) &&& 0xffffffff
      = x ||| (y <<< UInt32.ofNat k) := UInt32.and_neg_one
  have hshift : (y <<< UInt32.ofNat k).toNat = 2 ^ k * y.toNat % 2 ^ 32 := by
    rw [UInt32.toNat_shiftLeft, toNat_ofNat_mod hk, Nat.shiftLeft_eq,
      Nat.mul_comm]
  constructor
  · refine ExactWords.join32_of_lt hx ?_
    rw [hshift, Nat.mod_mod_of_dvd _ hdvd, Nat.mul_mod_right]
  · rw [hall, UInt32.toNat_or, hshift, Nat.add_comm,
      Nat.two_pow_add_eq_or_of_lt hx, Nat.or_mod_two_pow, hmod, Nat.or_comm]

theorem Limbs.value_eq (h : Limbs) :
    h.value = h.l0.toNat + 2 ^ 26 * h.l1.toNat + 2 ^ 52 * h.l2.toNat
      + 2 ^ 78 * h.l3.toNat + 2 ^ 104 * h.l4.toNat := rfl

/-- Repacking drops what is above 2^128 and nothing else: the limbs that are
joined share no bit. -/
theorem repackExact_eq {h : Limbs} (hh : h.nat.Reduced (2 ^ 26)) :
    repackExact h = some (repack h)
      ∧ (repack h).value = h.value % 2 ^ 128 := by
  obtain ⟨b0, b1, b2, b3, b4⟩ := hh
  simp only [Limbs.nat] at b0 b1 b2 b3 b4
  have s1 : (h.l1 >>> 6).toNat = h.l1.toNat / 2 ^ 6 :=
    toNat_shiftRight h.l1 (k := 6) (by norm_num)
  have s2 : (h.l2 >>> 12).toNat = h.l2.toNat / 2 ^ 12 :=
    toNat_shiftRight h.l2 (k := 12) (by norm_num)
  have s3 : (h.l3 >>> 18).toNat = h.l3.toNat / 2 ^ 18 :=
    toNat_shiftRight h.l3 (k := 18) (by norm_num)
  obtain ⟨x0, w0⟩ : join32 h.l0 (h.l1 <<< 26) = _
      ∧ (repack h).w0.toNat = (h.l0.toNat + 2 ^ 26 * h.l1.toNat) % 2 ^ 32 :=
    join32_shiftLeft h.l1 (k := 26) b0 (by norm_num)
  obtain ⟨x1, w1⟩ : join32 (h.l1 >>> 6) (h.l2 <<< 20) = _
      ∧ (repack h).w1.toNat
        = ((h.l1 >>> 6).toNat + 2 ^ 20 * h.l2.toNat) % 2 ^ 32 :=
    join32_shiftLeft h.l2 (k := 20) (by omega) (by norm_num)
  obtain ⟨x2, w2⟩ : join32 (h.l2 >>> 12) (h.l3 <<< 14) = _
      ∧ (repack h).w2.toNat
        = ((h.l2 >>> 12).toNat + 2 ^ 14 * h.l3.toNat) % 2 ^ 32 :=
    join32_shiftLeft h.l3 (k := 14) (by omega) (by norm_num)
  obtain ⟨x3, w3⟩ : join32 (h.l3 >>> 18) (h.l4 <<< 8) = _
      ∧ (repack h).w3.toNat
        = ((h.l3 >>> 18).toNat + 2 ^ 8 * h.l4.toNat) % 2 ^ 32 :=
    join32_shiftLeft h.l4 (k := 8) (by omega) (by norm_num)
  constructor
  · exact bind_exact x0 (bind_exact x1 (bind_exact x2 (bind_exact x3 rfl)))
  · rw [Words4.value, w0, w1, w2, w3, s1, s2, s3, Limbs.value_eq]
    omega

/-- Repacking drops what is above 2^128 and nothing else. -/
theorem repack_value {h : Limbs} (hh : h.nat.Reduced (2 ^ 26)) :
    (repack h).value = h.value % 2 ^ 128 := (repackExact_eq hh).2

/-- One sum of words, with the carry of the one before. -/
theorem add64_words (a b : UInt32) {f : UInt64} (hf : f.toNat < 2 ^ 33) :
    add64 a.toUInt64 b.toUInt64 = some (a.toUInt64 + b.toUInt64)
      ∧ add64 (a.toUInt64 + b.toUInt64) (f >>> 32)
        = some (a.toUInt64 + b.toUInt64 + (f >>> 32))
      ∧ (a.toUInt64 + b.toUInt64 + (f >>> 32)).toNat
        = a.toNat + b.toNat + f.toNat / 2 ^ 32
      ∧ (a.toUInt64 + b.toUInt64 + (f >>> 32)).toNat < 2 ^ 33 := by
  have ha := a.toNat_lt
  have hb := b.toNat_lt
  have wa : a.toUInt64.toNat = a.toNat := UInt32.toNat_toUInt64 a
  have wb : b.toUInt64.toNat = b.toNat := UInt32.toNat_toUInt64 b
  have hshift : (f >>> 32).toNat = f.toNat / 2 ^ 32 :=
    toNat_shiftRight64 f (k := 32) (by omega)
  obtain ⟨hsum, esum⟩ := add64_exact (a := a.toUInt64) (b := b.toUInt64)
    (by omega)
  obtain ⟨hcarry, ecarry⟩ := add64_exact (a := a.toUInt64 + b.toUInt64)
    (b := f >>> 32) (by omega)
  exact ⟨hsum, hcarry, by omega, by omega⟩

/-- The sum of the words, modulo 2^128, also in exact arithmetic. -/
theorem addPadExact_eq (h pad : Words4) :
    addPadExact h pad = some (addPad h pad)
      ∧ (addPad h pad).value = (h.value + pad.value) % 2 ^ 128 := by
  let f0 := h.w0.toUInt64 + pad.w0.toUInt64
  let f1 := h.w1.toUInt64 + pad.w1.toUInt64 + (f0 >>> 32)
  let f2 := h.w2.toUInt64 + pad.w2.toUInt64 + (f1 >>> 32)
  let f3 := h.w3.toUInt64 + pad.w3.toUInt64 + (f2 >>> 32)
  -- no carry into the first word
  obtain ⟨x0, -, e0, l0⟩ := add64_words h.w0 pad.w0 (f := 0) (by decide)
  have e0' : f0.toNat = h.w0.toNat + pad.w0.toNat := ExactWords.toNat_add64 x0
  obtain ⟨x1, y1, e1, l1⟩ := add64_words h.w1 pad.w1 (f := f0) (by omega)
  obtain ⟨x2, y2, e2, l2⟩ := add64_words h.w2 pad.w2 l1
  obtain ⟨x3, y3, e3, l3⟩ := add64_words h.w3 pad.w3 l2
  constructor
  · exact bind_exact x0 (bind_exact x1 (bind_exact y1 (bind_exact x2
      (bind_exact y2 (bind_exact x3 (bind_exact y3 rfl))))))
  · calc (addPad h pad).value
        = f0.toNat % 2 ^ 32 + 2 ^ 32 * (f1.toNat % 2 ^ 32)
            + 2 ^ 64 * (f2.toNat % 2 ^ 32) + 2 ^ 96 * (f3.toNat % 2 ^ 32) := by
          simp only [← UInt64.toNat_toUInt32]
          rfl
      _ = (h.value + pad.value) % 2 ^ 128 := by
          rw [e3, e2, e1, e0', Words4.value, Words4.value]
          omega

/-- The sum of the words, modulo 2^128. -/
theorem addPad_value (h pad : Words4) :
    (addPad h pad).value = (h.value + pad.value) % 2 ^ 128 :=
  (addPadExact_eq h pad).2

/-- The words as bytes. -/
theorem writeLE32_value (w : Words4) :
    writeLE32 w.w0 ++ writeLE32 w.w1 ++ writeLE32 w.w2 ++ writeLE32 w.w3
      = toBytes 16 w.value := by
  have h0 := w.w0.toNat_lt
  have h1 := w.w1.toNat_lt
  have h2 := w.w2.toNat_lt
  have h3 := w.w3.toNat_lt
  have w0 : w.value % 256 ^ 4 = w.w0.toNat := by
    rw [Words4.value]
    omega
  have w1 : w.value / 256 ^ 4 % 256 ^ 4 = w.w1.toNat := by
    rw [Words4.value]
    omega
  have w2 : w.value / 256 ^ 8 % 256 ^ 4 = w.w2.toNat := by
    rw [Words4.value]
    omega
  have w3 : w.value / 256 ^ 12 % 256 ^ 4 = w.w3.toNat := by
    rw [Words4.value]
    omega
  calc writeLE32 w.w0 ++ writeLE32 w.w1 ++ writeLE32 w.w2 ++ writeLE32 w.w3
      = toBytes 4 w.value ++ toBytes 4 (w.value / 256 ^ 4)
          ++ toBytes 4 (w.value / 256 ^ 8)
          ++ toBytes 4 (w.value / 256 ^ 12) := by
        unfold writeLE32
        rw [← w0, ← w1, ← w2, ← w3]
        simp only [toBytes_mod]
    _ = toBytes (4 + 4 + 4 + 4) w.value := by
        rw [toBytes_add, toBytes_add, toBytes_add]

/-- The words of the pad. -/
theorem poly1305Init_pad (key : Bytes) :
    (poly1305Init key).pad.value = PolyMac.pad key := by
  have w0 := readLE32_digits key 16
  have w1 := readLE32_digits key 20
  have w2 := readLE32_digits key 24
  have w3 := readLE32_digits key 28
  rw [PolyMac.pad, ofBytes_take, ofBytes_drop]
  simp only [Words4.value, poly1305Init, w0, w1, w2, w3]
  omega

end Remc.Crypto
