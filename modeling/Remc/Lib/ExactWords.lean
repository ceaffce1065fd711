/-
Word arithmetic that fails where the machine's would lose something: a sum
or a product that does not fit, a conversion that cuts bits off, two words
joined by `|` that share a bit.

A function over words has an exact twin, the same statements over these
operations. Where the twin returns, it returns what the function does, and
no value on the way has wrapped: `toNat_add32` and its like say so for one
operation, `bind_exact` chains them through a body, and `foldlM_exact` takes
the step to a whole run.
-/
import Mathlib.Data.Nat.ModEq

namespace ExactWords

universe u v

-- ============================================================== operations

/-- A word that stands for the number `n`, if `n` has at most `w` bits. -/
def fits {α : Type u} (w n : Nat) (z : α) : Option α :=
  if n < 2 ^ w then some z else none

/-- The sum, if it fits in 32 bits. -/
def add32 (x y : UInt32) : Option UInt32 := fits 32 (x.toNat + y.toNat) (x + y)

/-- The product, if it fits in 32 bits. -/
def mul32 (x y : UInt32) : Option UInt32 := fits 32 (x.toNat * y.toNat) (x * y)

/-- The sum, if it fits in 64 bits. -/
def add64 (x y : UInt64) : Option UInt64 := fits 64 (x.toNat + y.toNat) (x + y)

/-- The product, if it fits in 64 bits. -/
def mul64 (x y : UInt64) : Option UInt64 := fits 64 (x.toNat * y.toNat) (x * y)

/-- The low word, if it is all there is. -/
def narrow (x : UInt64) : Option UInt32 := fits 32 x.toNat x.toUInt32

/-- The bits of both words, if they share none. -/
def join32 (x y : UInt32) : Option UInt32 :=
  if x &&& y = 0 then some (x ||| y) else none

-- =========================================================== one operation

theorem fits_of_lt {α : Type u} {w n : Nat} {z : α} (h : n < 2 ^ w) :
    fits w n z = some z := if_pos h

theorem fits_eq_some {α : Type u} {w n : Nat} {z z' : α}
    (h : fits w n z = some z') : n < 2 ^ w ∧ z = z' := by
  unfold fits at h
  split at h
  next hlt => exact ⟨hlt, Option.some.inj h⟩
  next => cases h

variable {x y z : UInt32} {a b c : UInt64}

/-- What is returned is the sum as a number. -/
theorem toNat_add32 (h : add32 x y = some z) :
    z.toNat = x.toNat + y.toNat := by
  obtain ⟨hlt, rfl⟩ := fits_eq_some h
  rw [UInt32.toNat_add]
  exact Nat.mod_eq_of_lt hlt

theorem toNat_mul32 (h : mul32 x y = some z) :
    z.toNat = x.toNat * y.toNat := by
  obtain ⟨hlt, rfl⟩ := fits_eq_some h
  rw [UInt32.toNat_mul]
  exact Nat.mod_eq_of_lt hlt

theorem toNat_add64 (h : add64 a b = some c) :
    c.toNat = a.toNat + b.toNat := by
  obtain ⟨hlt, rfl⟩ := fits_eq_some h
  rw [UInt64.toNat_add]
  exact Nat.mod_eq_of_lt hlt

theorem toNat_mul64 (h : mul64 a b = some c) :
    c.toNat = a.toNat * b.toNat := by
  obtain ⟨hlt, rfl⟩ := fits_eq_some h
  rw [UInt64.toNat_mul]
  exact Nat.mod_eq_of_lt hlt

theorem toNat_narrow (h : narrow a = some z) : z.toNat = a.toNat := by
  obtain ⟨hlt, rfl⟩ := fits_eq_some h
  rw [UInt64.toNat_toUInt32]
  exact Nat.mod_eq_of_lt hlt

/-- A sum that fits is returned. -/
theorem add32_exact (h : x.toNat + y.toNat < 2 ^ 32) :
    add32 x y = some (x + y) ∧ (x + y).toNat = x.toNat + y.toNat := by
  have hfits : add32 x y = some (x + y) := fits_of_lt h
  exact ⟨hfits, toNat_add32 hfits⟩

theorem mul32_exact (h : x.toNat * y.toNat < 2 ^ 32) :
    mul32 x y = some (x * y) ∧ (x * y).toNat = x.toNat * y.toNat := by
  have hfits : mul32 x y = some (x * y) := fits_of_lt h
  exact ⟨hfits, toNat_mul32 hfits⟩

theorem add64_exact (h : a.toNat + b.toNat < 2 ^ 64) :
    add64 a b = some (a + b) ∧ (a + b).toNat = a.toNat + b.toNat := by
  have hfits : add64 a b = some (a + b) := fits_of_lt h
  exact ⟨hfits, toNat_add64 hfits⟩

theorem mul64_exact (h : a.toNat * b.toNat < 2 ^ 64) :
    mul64 a b = some (a * b) ∧ (a * b).toNat = a.toNat * b.toNat := by
  have hfits : mul64 a b = some (a * b) := fits_of_lt h
  exact ⟨hfits, toNat_mul64 hfits⟩

theorem narrow_exact (h : a.toNat < 2 ^ 32) :
    narrow a = some a.toUInt32 ∧ a.toUInt32.toNat = a.toNat := by
  have hfits : narrow a = some a.toUInt32 := fits_of_lt h
  exact ⟨hfits, toNat_narrow hfits⟩

/-- Words below and above a bit share none. -/
theorem join32_of_lt {k : Nat} (hx : x.toNat < 2 ^ k)
    (hy : y.toNat % 2 ^ k = 0) : join32 x y = some (x ||| y) := by
  have hlt : x.toNat &&& y.toNat < 2 ^ k :=
    Nat.lt_of_le_of_lt Nat.and_le_left hx
  have hnone : x.toNat &&& y.toNat = 0 := by
    calc x.toNat &&& y.toNat
        = (x.toNat &&& y.toNat) % 2 ^ k := (Nat.mod_eq_of_lt hlt).symm
      _ = 0 := by rw [Nat.and_mod_two_pow, hy, Nat.and_zero]
  have hzero : x &&& y = 0 := UInt32.toNat_inj.mp (by
    rw [UInt32.toNat_and, hnone]
    rfl)
  exact if_pos hzero

-- ==================================================================== bodies

/-- One operation of a body that returns, and the rest of it. -/
theorem bind_exact {α : Type u} {β : Type u} {o : Option α} {a : α}
    {f : α → Option β} {r : Option β} (h : o = some a) (hf : f a = r) :
    (o >>= f) = r := by
  rw [h]
  exact hf

variable {σ : Type u} {α : Type v} {step : σ → α → σ}
  {exact : σ → α → Option σ} {I : σ → Prop}

/-- Where an invariant makes every step exact, every run from there is. -/
theorem foldlM_exact
    (hstep : ∀ s x, I s → exact s x = some (step s x) ∧ I (step s x))
    {s : σ} (hs : I s) (xs : List α) :
    xs.foldlM exact s = some (xs.foldl step s) ∧ I (xs.foldl step s) := by
  induction xs generalizing s with
  | nil => exact ⟨rfl, hs⟩
  | cons x xs ih =>
      obtain ⟨hexact, hnext⟩ := hstep s x hs
      obtain ⟨hrun, hlast⟩ := ih hnext
      refine ⟨?_, hlast⟩
      rw [List.foldlM_cons]
      exact bind_exact hexact hrun

end ExactWords
