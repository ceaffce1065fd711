/-
Numbers in five limbs, modulo a number just below the fifth power of the
base: the arithmetic with late carries that multiplies modulo a prime such
as 2^130 - 5 without a division.

A limb may be larger than the base; `value` is what all five stand for.
`mul` leaves the columns of a product as they come, with those from the
fifth limb on folded back by `B ^ 5 = M + c`; `carry` passes the carries on
once, the last of them back to the bottom. Both keep the value modulo `M`
(`value_mul`, `value_carry`). `plus` adds a small number with all carries,
which is how a value below `M + c` is reduced for good (`reduce_mod`).
-/
import Mathlib.Data.Nat.ModEq
import Mathlib.Tactic.Linarith
import Mathlib.Tactic.Ring

namespace Radix

/-- Five limbs, the lowest first. -/
structure Limbs where
  l0 : Nat
  l1 : Nat
  l2 : Nat
  l3 : Nat
  l4 : Nat
deriving DecidableEq, Repr

namespace Limbs

/-- The number that the limbs stand for in base `B`. -/
def value (B : Nat) (x : Limbs) : Nat :=
  x.l0 + B * x.l1 + B ^ 2 * x.l2 + B ^ 3 * x.l3 + B ^ 4 * x.l4

/-- The digits of a number, all that is left in the last. -/
def digits (B N : Nat) : Limbs :=
  ⟨N % B, N / B % B, N / B ^ 2 % B, N / B ^ 3 % B, N / B ^ 4⟩

def add (x y : Limbs) : Limbs :=
  ⟨x.l0 + y.l0, x.l1 + y.l1, x.l2 + y.l2, x.l3 + y.l3, x.l4 + y.l4⟩

/-- The columns of a product, with those beyond the fifth times `c` in the
column five places below. -/
def mul (c : Nat) (r h : Limbs) : Limbs where
  l0 := h.l0 * r.l0 + h.l1 * (r.l4 * c) + h.l2 * (r.l3 * c)
    + h.l3 * (r.l2 * c) + h.l4 * (r.l1 * c)
  l1 := h.l0 * r.l1 + h.l1 * r.l0 + h.l2 * (r.l4 * c)
    + h.l3 * (r.l3 * c) + h.l4 * (r.l2 * c)
  l2 := h.l0 * r.l2 + h.l1 * r.l1 + h.l2 * r.l0
    + h.l3 * (r.l4 * c) + h.l4 * (r.l3 * c)
  l3 := h.l0 * r.l3 + h.l1 * r.l2 + h.l2 * r.l1
    + h.l3 * r.l0 + h.l4 * (r.l4 * c)
  l4 := h.l0 * r.l4 + h.l1 * r.l3 + h.l2 * r.l2
    + h.l3 * r.l1 + h.l4 * r.l0

/-- Carries from the second limb up, the last one times `c` to the first,
and from there to the second. -/
def carry (B c : Nat) (h : Limbs) : Limbs :=
  let h2 := h.l2 + h.l1 / B
  let h3 := h.l3 + h2 / B
  let h4 := h.l4 + h3 / B
  let h0 := h.l0 + h4 / B * c
  ⟨h0 % B, h.l1 % B + h0 / B, h2 % B, h3 % B, h4 % B⟩

/-- The carry out of the first limb. -/
def carryFirst (B : Nat) (d : Limbs) : Limbs :=
  { d with l0 := d.l0 % B, l1 := d.l1 + d.l0 / B }

/-- Add a small number, with all carries but the last. -/
def plus (B n : Nat) (h : Limbs) : Limbs :=
  let g0 := h.l0 + n
  let g1 := h.l1 + g0 / B
  let g2 := h.l2 + g1 / B
  let g3 := h.l3 + g2 / B
  ⟨g0 % B, g1 % B, g2 % B, g3 % B, h.l4 + g3 / B⟩

/-- No limb is above `b`. -/
structure AtMost (b : Nat) (x : Limbs) : Prop where
  l0 : x.l0 ≤ b
  l1 : x.l1 ≤ b
  l2 : x.l2 ≤ b
  l3 : x.l3 ≤ b
  l4 : x.l4 ≤ b

/-- Every limb is below the base. -/
structure Reduced (B : Nat) (x : Limbs) : Prop where
  l0 : x.l0 < B
  l1 : x.l1 < B
  l2 : x.l2 < B
  l3 : x.l3 < B
  l4 : x.l4 < B

variable {B c M : Nat}

-- ================================================================= values

theorem value_add (x y : Limbs) :
    (x.add y).value B = x.value B + y.value B := by
  unfold value add
  ring

/-- The digits of a number stand for it. -/
theorem value_digits (B N : Nat) : (digits B N).value B = N := by
  have h₁ := Nat.mod_add_div N B
  have h₂ := Nat.mod_add_div (N / B) B
  have h₃ := Nat.mod_add_div (N / B ^ 2) B
  have h₄ := Nat.mod_add_div (N / B ^ 3) B
  rw [Nat.div_div_eq_div_mul, ← pow_two] at h₂
  rw [Nat.div_div_eq_div_mul, ← pow_succ] at h₃ h₄
  calc (digits B N).value B
      = N % B + B * (N / B % B + B * (N / B ^ 2 % B
          + B * (N / B ^ 3 % B + B * (N / B ^ 4)))) := by
        unfold value digits
        ring
    _ = N := by rw [h₄, h₃, h₂, h₁]

/-- What is folded back is the same modulo `M`. -/
theorem fold_modEq (hM : B ^ 5 = M + c) (x q : Nat) :
    x + c * q ≡ x + B ^ 5 * q [MOD M] := by
  have hsum : x + B ^ 5 * q = x + c * q + q * M := by
    rw [hM]
    ring
  rw [hsum]
  exact (Nat.add_mul_mod_self_right _ q M).symm

/-- The product modulo `M`. -/
theorem value_mul (hM : B ^ 5 = M + c) (r h : Limbs) :
    (mul c r h).value B ≡ h.value B * r.value B [MOD M] := by
  -- the columns from the fifth limb on
  let q := h.l1 * r.l4 + h.l2 * r.l3 + h.l3 * r.l2 + h.l4 * r.l1
    + B * (h.l2 * r.l4 + h.l3 * r.l3 + h.l4 * r.l2)
    + B ^ 2 * (h.l3 * r.l4 + h.l4 * r.l3) + B ^ 3 * (h.l4 * r.l4)
  have hmul : (mul c r h).value B = (mul 0 r h).value B + c * q := by
    simp only [value, mul, q]
    ring
  have hproduct : h.value B * r.value B = (mul 0 r h).value B + B ^ 5 * q := by
    simp only [value, mul, q]
    ring
  rw [hmul, hproduct]
  exact fold_modEq hM _ q

/-- The carry out of the first limb changes nothing. -/
theorem value_carryFirst (d : Limbs) :
    (carryFirst B d).value B = d.value B := by
  have h₀ := Nat.mod_add_div d.l0 B
  calc (carryFirst B d).value B
      = d.l0 % B + B * (d.l0 / B) + B * d.l1 + B ^ 2 * d.l2 + B ^ 3 * d.l3
          + B ^ 4 * d.l4 := by
        unfold value carryFirst
        ring
    _ = d.value B := by rw [h₀, value]

/-- Passing the carries on keeps the value modulo `M`. -/
theorem value_carry (hM : B ^ 5 = M + c) (h : Limbs) :
    (carry B c h).value B ≡ h.value B [MOD M] := by
  let h2 := h.l2 + h.l1 / B
  let h3 := h.l3 + h2 / B
  let h4 := h.l4 + h3 / B
  let h0 := h.l0 + h4 / B * c
  have e0 : h0 % B + B * (h0 / B) = h.l0 + h4 / B * c := Nat.mod_add_div h0 B
  have e1 := Nat.mod_add_div h.l1 B
  have e2 : h2 % B + B * (h2 / B) = h.l2 + h.l1 / B := Nat.mod_add_div h2 B
  have e3 : h3 % B + B * (h3 / B) = h.l3 + h2 / B := Nat.mod_add_div h3 B
  have e4 : h4 % B + B * (h4 / B) = h.l4 + h3 / B := Nat.mod_add_div h4 B
  -- all but the last carry stay in the value
  let x := h.l0 + B * (h.l1 % B) + B ^ 2 * (h2 % B) + B ^ 3 * (h3 % B)
    + B ^ 4 * (h4 % B)
  have hcarry : (carry B c h).value B = x + c * (h4 / B) := by
    calc (carry B c h).value B
        = h0 % B + B * (h0 / B) + B * (h.l1 % B) + B ^ 2 * (h2 % B)
            + B ^ 3 * (h3 % B) + B ^ 4 * (h4 % B) := by
          simp only [value, carry, h0, h2, h3, h4]
          ring
      _ = x + c * (h4 / B) := by
          rw [e0]
          simp only [x]
          ring
  have hvalue : h.value B = x + B ^ 5 * (h4 / B) := by
    calc h.value B
        = h.l0 + B * (h.l1 % B + B * (h.l1 / B)) + B ^ 2 * h.l2 + B ^ 3 * h.l3
            + B ^ 4 * h.l4 := by rw [e1, value]
      _ = h.l0 + B * (h.l1 % B) + B ^ 2 * (h.l2 + h.l1 / B) + B ^ 3 * h.l3
            + B ^ 4 * h.l4 := by ring
      _ = h.l0 + B * (h.l1 % B) + B ^ 2 * (h2 % B) + B ^ 3 * (h.l3 + h2 / B)
            + B ^ 4 * h.l4 := by
          rw [← e2]
          ring
      _ = h.l0 + B * (h.l1 % B) + B ^ 2 * (h2 % B) + B ^ 3 * (h3 % B)
            + B ^ 4 * (h.l4 + h3 / B) := by
          rw [← e3]
          ring
      _ = x + B ^ 5 * (h4 / B) := by
          rw [← e4]
          simp only [x]
          ring
  rw [hcarry, hvalue]
  exact fold_modEq hM x _

/-- The carries of an addition keep the sum. -/
theorem value_plus (n : Nat) (h : Limbs) :
    (plus B n h).value B = h.value B + n := by
  let g0 := h.l0 + n
  let g1 := h.l1 + g0 / B
  let g2 := h.l2 + g1 / B
  let g3 := h.l3 + g2 / B
  have e0 : g0 % B + B * (g0 / B) = h.l0 + n := Nat.mod_add_div g0 B
  have e1 : g1 % B + B * (g1 / B) = h.l1 + g0 / B := Nat.mod_add_div g1 B
  have e2 : g2 % B + B * (g2 / B) = h.l2 + g1 / B := Nat.mod_add_div g2 B
  have e3 : g3 % B + B * (g3 / B) = h.l3 + g2 / B := Nat.mod_add_div g3 B
  calc (plus B n h).value B
      = g0 % B + B * (g1 % B) + B ^ 2 * (g2 % B)
          + B ^ 3 * (g3 % B + B * (g3 / B)) + B ^ 4 * h.l4 := by
        simp only [value, plus, g0, g1, g2, g3]
        ring
    _ = g0 % B + B * (g1 % B) + B ^ 2 * (g2 % B + B * (g2 / B)) + B ^ 3 * h.l3
          + B ^ 4 * h.l4 := by
        rw [e3]
        ring
    _ = g0 % B + B * (g1 % B + B * (g1 / B)) + B ^ 2 * h.l2 + B ^ 3 * h.l3
          + B ^ 4 * h.l4 := by
        rw [e2]
        ring
    _ = g0 % B + B * (g0 / B) + B * h.l1 + B ^ 2 * h.l2 + B ^ 3 * h.l3
          + B ^ 4 * h.l4 := by
        rw [e1]
        ring
    _ = h.value B + n := by
        rw [e0, value]
        ring

-- ================================================================= bounds

theorem Reduced.atMost {x : Limbs} (h : x.Reduced B) : x.AtMost B :=
  ⟨Nat.le_of_lt h.l0, Nat.le_of_lt h.l1, Nat.le_of_lt h.l2, Nat.le_of_lt h.l3,
    Nat.le_of_lt h.l4⟩

theorem digits_reduced (hB : 0 < B) {N : Nat} (h : N < B ^ 5) :
    (digits B N).Reduced B :=
  ⟨Nat.mod_lt _ hB, Nat.mod_lt _ hB, Nat.mod_lt _ hB, Nat.mod_lt _ hB,
    Nat.div_lt_of_lt_mul (by rwa [← pow_succ])⟩

/-- A column is at most as many products as it has terms, those folded back
times `c`. -/
theorem mul_le {H R : Nat} {r h : Limbs} (hh : h.AtMost H) (hr : r.AtMost R) :
    (mul c r h).l0 ≤ (1 + 4 * c) * (H * R)
      ∧ (mul c r h).l1 ≤ (2 + 3 * c) * (H * R)
      ∧ (mul c r h).l2 ≤ (3 + 2 * c) * (H * R)
      ∧ (mul c r h).l3 ≤ (4 + c) * (H * R)
      ∧ (mul c r h).l4 ≤ 5 * (H * R) := by
  have plain : ∀ {x y : Nat}, x ≤ H → y ≤ R → x * y ≤ H * R :=
    fun hx hy => Nat.mul_le_mul hx hy
  have folded : ∀ {x y : Nat}, x ≤ H → y ≤ R → x * (y * c) ≤ c * (H * R) := by
    intro x y hx hy
    calc x * (y * c) = c * (x * y) := by ring
      _ ≤ c * (H * R) := Nat.mul_le_mul_left c (plain hx hy)
  unfold mul
  refine ⟨?_, ?_, ?_, ?_, ?_⟩
  · linarith [plain hh.l0 hr.l0, folded hh.l1 hr.l4, folded hh.l2 hr.l3,
      folded hh.l3 hr.l2, folded hh.l4 hr.l1]
  · linarith [plain hh.l0 hr.l1, plain hh.l1 hr.l0, folded hh.l2 hr.l4,
      folded hh.l3 hr.l3, folded hh.l4 hr.l2]
  · linarith [plain hh.l0 hr.l2, plain hh.l1 hr.l1, plain hh.l2 hr.l0,
      folded hh.l3 hr.l4, folded hh.l4 hr.l3]
  · linarith [plain hh.l0 hr.l3, plain hh.l1 hr.l2, plain hh.l2 hr.l1,
      plain hh.l3 hr.l0, folded hh.l4 hr.l4]
  · linarith [plain hh.l0 hr.l4, plain hh.l1 hr.l3, plain hh.l2 hr.l2,
      plain hh.l3 hr.l1, plain hh.l4 hr.l0]

-- ============================================================ full reduction

/-- Reduced limbs stand for a number of five digits. -/
theorem Reduced.value_lt {x : Limbs} (h : x.Reduced B) :
    x.value B < B ^ 5 := by
  obtain ⟨h0, h1, h2, h3, h4⟩ := h
  have e1 := Nat.mul_le_mul_left B (Nat.succ_le_of_lt h1)
  have e2 := Nat.mul_le_mul_left (B ^ 2) (Nat.succ_le_of_lt h2)
  have e3 := Nat.mul_le_mul_left (B ^ 3) (Nat.succ_le_of_lt h3)
  have e4 := Nat.mul_le_mul_left (B ^ 4) (Nat.succ_le_of_lt h4)
  have p2 : B ^ 2 = B * B := pow_two B
  have p3 : B ^ 3 = B ^ 2 * B := pow_succ B 2
  have p4 : B ^ 4 = B ^ 3 * B := pow_succ B 3
  have p5 : B ^ 5 = B ^ 4 * B := pow_succ B 4
  simp only [Nat.succ_eq_add_one, Nat.mul_add, Nat.mul_one] at e1 e2 e3 e4
  unfold value
  omega

/-- The last limb of a sum stays below the base exactly where the sum has no
sixth digit. -/
theorem plus_l4_lt_iff (hB : 0 < B) (n : Nat) (h : Limbs) :
    (plus B n h).l4 < B ↔ h.value B + n < B ^ 5 := by
  rw [← value_plus]
  constructor
  · intro h4
    exact Reduced.value_lt ⟨Nat.mod_lt _ hB, Nat.mod_lt _ hB, Nat.mod_lt _ hB,
      Nat.mod_lt _ hB, h4⟩
  · intro hlt
    have hle : B ^ 4 * (plus B n h).l4 < B ^ 4 * B :=
      calc B ^ 4 * (plus B n h).l4 ≤ (plus B n h).value B := Nat.le_add_left _ _
        _ < B ^ 5 := hlt
        _ = B ^ 4 * B := pow_succ B 4
    exact Nat.lt_of_mul_lt_mul_left hle

/-- A small number adds at most one to the last limb. -/
theorem plus_l4_le {n : Nat} (hn : n ≤ B) {h : Limbs} (hh : h.Reduced B) :
    (plus B n h).l4 ≤ B := by
  have hB : 0 < B := Nat.lt_of_le_of_lt (Nat.zero_le _) hh.l0
  have step : ∀ {x c : Nat}, x < B → c ≤ 1 → (x + c) / B ≤ 1 := by
    intro x c hx hc
    apply Nat.le_of_lt_succ
    exact Nat.div_lt_of_lt_mul (by omega)
  have c0 : (h.l0 + n) / B ≤ 1 := by
    apply Nat.le_of_lt_succ
    exact Nat.div_lt_of_lt_mul (by have := hh.l0; omega)
  have c3 := step hh.l3 (step hh.l2 (step hh.l1 c0))
  have h4 := hh.l4
  show h.l4 + (h.l3 + (h.l2 + (h.l1 + (h.l0 + n) / B) / B) / B) / B ≤ B
  omega

/-- Where the sum has a sixth digit, it is taken off in the last limb. -/
theorem plus_sub {n : Nat} (hn : n ≤ B) {h : Limbs} (hh : h.Reduced B)
    (hge : ¬(plus B n h).l4 < B) :
    ({ plus B n h with l4 := (plus B n h).l4 - B } : Limbs).Reduced B
      ∧ ({ plus B n h with l4 := (plus B n h).l4 - B } : Limbs).value B
          = h.value B + n - B ^ 5 := by
  have hB : 0 < B := Nat.lt_of_le_of_lt (Nat.zero_le _) hh.l0
  have hl4 : (plus B n h).l4 = B := by
    have hle := plus_l4_le hn hh
    omega
  constructor
  · exact ⟨Nat.mod_lt _ hB, Nat.mod_lt _ hB, Nat.mod_lt _ hB, Nat.mod_lt _ hB,
      by rw [hl4, Nat.sub_self]; exact hB⟩
  · have hp : B ^ 5 = B ^ 4 * B := pow_succ B 4
    rw [← value_plus, value, value, hl4, Nat.sub_self, ← hp, Nat.mul_zero,
      Nat.add_sub_cancel, Nat.add_zero]

/-- A number below `M + c` is reduced by at most one subtraction, and that
is needed where adding `c` makes a sixth digit. -/
theorem reduce_mod (hM : B ^ 5 = M + c) (hc : c < M) {v : Nat}
    (hv : v < B ^ 5) :
    v % M = if v + c < B ^ 5 then v else v + c - B ^ 5 := by
  split
  next hlt => exact Nat.mod_eq_of_lt (by omega)
  next hge =>
    rw [Nat.mod_eq_sub_mod (by omega), Nat.mod_eq_of_lt (by omega)]
    omega

end Limbs

end Radix
