/-
The generator of session and message ids (xoshiro256_random.h).

`operator()` updates its four words in place, each from words that the
updates before it may have changed. As a map of the 2^256 states it is linear
over XOR and undone by `previous`: the last rotation is rotated on, the last
word gives the first one back, and the sum of the two middle words is the old
second word XORed with its own shift. So nothing is lost in any number of
draws, and the zero state, which draws zeros for ever, is not reached from
any other (`draws_never_collapse`).
-/
import Remc.Lib.XorShift

namespace Remc

/-- `Xoshiro256Generator`: the words of `array_`. -/
@[ext]
structure Xoshiro256Generator where
  a0 : UInt64
  a1 : UInt64
  a2 : UInt64
  a3 : UInt64
deriving DecidableEq, Repr

namespace Xoshiro256Generator

/-- `Rotl`. -/
def rotl (x k : UInt64) : UInt64 := (x <<< k) ||| (x >>> (64 - k))

/-- `operator()`: the result and the generator after it. -/
def next (g : Xoshiro256Generator) : UInt64 × Xoshiro256Generator :=
  let result := rotl (g.a1 * 5) 7 * 9
  let tmp := g.a1 <<< 17
  let g := { g with a2 := g.a2 ^^^ g.a0 }
  let g := { g with a3 := g.a3 ^^^ g.a1 }
  let g := { g with a1 := g.a1 ^^^ g.a2 }
  let g := { g with a0 := g.a0 ^^^ g.a3 }
  let g := { g with a2 := g.a2 ^^^ tmp }
  let g := { g with a3 := rotl g.a3 45 }
  (result, g)

/-- The state transition of `operator()`. -/
def transition (g : Xoshiro256Generator) : Xoshiro256Generator := g.next.2

/-- A number of draws: the results, and the generator after them. -/
def draws : Nat → Xoshiro256Generator → List UInt64 × Xoshiro256Generator
  | 0, g => ([], g)
  | n + 1, g =>
      let (x, g) := g.next
      let (xs, g) := draws n g
      (x :: xs, g)

/-- The state of four zeros. -/
instance : Zero Xoshiro256Generator := ⟨⟨0, 0, 0, 0⟩⟩

/-- The words of two states, XORed. -/
instance : XorOp Xoshiro256Generator :=
  ⟨fun g h => ⟨g.a0 ^^^ h.a0, g.a1 ^^^ h.a1, g.a2 ^^^ h.a2, g.a3 ^^^ h.a3⟩⟩

-- ======================================================= the word operations

theorem rotl_xor (x y : UInt64) : rotl (x ^^^ y) 45 = rotl x 45 ^^^ rotl y 45 :=
  UInt64.toBitVec_inj.mp (XorShift.rotateLeft_xor x.toBitVec y.toBitVec 45)

theorem rotl_45_19 (x : UInt64) : rotl (rotl x 45) 19 = x :=
  UInt64.toBitVec_inj.mp (XorShift.rotateLeft_rotateLeft (w := 64) (r := 45)
    (s := 19) (by omega) (by omega) rfl x.toBitVec)

theorem rotl_19_45 (x : UInt64) : rotl (rotl x 19) 45 = x :=
  UInt64.toBitVec_inj.mp (XorShift.rotateLeft_rotateLeft (w := 64) (r := 19)
    (s := 45) (by omega) (by omega) rfl x.toBitVec)

/-- Undoes `x ^ (x << 17)`: two more shifts leave no bit. -/
def unshift (x : UInt64) : UInt64 :=
  let y := x ^^^ x <<< 17
  y ^^^ y <<< 34

theorem unshift_shift (x : UInt64) : unshift (x ^^^ x <<< 17) = x :=
  UInt64.toBitVec_inj.mp (XorShift.undo_leftShift (w := 64) (n := 2) (k := 17)
    (by omega) x.toBitVec)

theorem shift_unshift (x : UInt64) : unshift x ^^^ unshift x <<< 17 = x :=
  UInt64.toBitVec_inj.mp (XorShift.leftShift_undo (w := 64) (n := 2) (k := 17)
    (by omega) x.toBitVec)

theorem xor_cancel (x y : UInt64) : x ^^^ (x ^^^ y) = y := by
  rw [← UInt64.xor_assoc, UInt64.xor_self, UInt64.zero_xor]

theorem xor_cancel_right (x y : UInt64) : x ^^^ y ^^^ y = x := by
  rw [UInt64.xor_assoc, UInt64.xor_self, UInt64.xor_zero]

-- ============================================================ the transition

/-- The words after a transition, in terms of those before it. -/
theorem transition_eq (g : Xoshiro256Generator) :
    transition g =
      { a0 := g.a0 ^^^ (g.a3 ^^^ g.a1)
        a1 := g.a1 ^^^ (g.a2 ^^^ g.a0)
        a2 := g.a2 ^^^ g.a0 ^^^ g.a1 <<< 17
        a3 := rotl (g.a3 ^^^ g.a1) 45 } := rfl

theorem xor_eq (g h : Xoshiro256Generator) :
    g ^^^ h =
      ⟨g.a0 ^^^ h.a0, g.a1 ^^^ h.a1, g.a2 ^^^ h.a2, g.a3 ^^^ h.a3⟩ := rfl

/-- The transition is linear over XOR. -/
theorem transition_xor (g h : Xoshiro256Generator) :
    transition (g ^^^ h) = transition g ^^^ transition h := by
  apply Xoshiro256Generator.ext
  · simp only [transition_eq, xor_eq]
    ac_rfl
  · simp only [transition_eq, xor_eq]
    ac_rfl
  · simp only [transition_eq, xor_eq]
    rw [UInt64.shiftLeft_xor]
    generalize g.a1 <<< 17 = x
    generalize h.a1 <<< 17 = y
    ac_rfl
  · simp only [transition_eq, xor_eq, ← rotl_xor]
    congr 1
    ac_rfl

theorem transition_zero : transition 0 = 0 := rfl

/-- The state before a transition. -/
def previous (g : Xoshiro256Generator) : Xoshiro256Generator :=
  let a3 := rotl g.a3 19
  let a0 := g.a0 ^^^ a3
  let a1 := unshift (g.a1 ^^^ g.a2)
  let a2 := g.a1 ^^^ a1
  ⟨a0, a1, a2 ^^^ a0, a3 ^^^ a1⟩

theorem previous_eq (g : Xoshiro256Generator) :
    previous g =
      { a0 := g.a0 ^^^ rotl g.a3 19
        a1 := unshift (g.a1 ^^^ g.a2)
        a2 := g.a1 ^^^ unshift (g.a1 ^^^ g.a2) ^^^ (g.a0 ^^^ rotl g.a3 19)
        a3 := rotl g.a3 19 ^^^ unshift (g.a1 ^^^ g.a2) } := rfl

/-- The middle words after a transition sum to the old second word and its
shift. -/
theorem transition_middle (g : Xoshiro256Generator) :
    (transition g).a1 ^^^ (transition g).a2 = g.a1 ^^^ g.a1 <<< 17 := by
  rw [transition_eq, UInt64.xor_assoc g.a1, xor_cancel]

theorem previous_transition : Function.LeftInverse previous transition := by
  intro g
  have h3 : rotl (transition g).a3 19 = g.a3 ^^^ g.a1 := by
    rw [transition_eq, rotl_45_19]
  have h1 : unshift ((transition g).a1 ^^^ (transition g).a2) = g.a1 := by
    rw [transition_middle, unshift_shift]
  have h0 : (transition g).a0 ^^^ (g.a3 ^^^ g.a1) = g.a0 := by
    rw [transition_eq, xor_cancel_right]
  have h2 : (transition g).a1 ^^^ g.a1 = g.a2 ^^^ g.a0 := by
    rw [transition_eq, UInt64.xor_comm, xor_cancel]
  rw [previous_eq, h3, h1, h0, h2, xor_cancel_right, xor_cancel_right]

theorem transition_previous : Function.RightInverse previous transition := by
  intro g
  have h1 : (previous g).a2 ^^^ (previous g).a0 = g.a1 ^^^ (previous g).a1 := by
    rw [previous_eq, xor_cancel_right]
  have h3 : (previous g).a3 ^^^ (previous g).a1 = rotl g.a3 19 := by
    rw [previous_eq, xor_cancel_right]
  have hmiddle : (previous g).a1 ^^^ (previous g).a1 <<< 17 = g.a1 ^^^ g.a2 :=
    shift_unshift (g.a1 ^^^ g.a2)
  have h0 : (previous g).a0 ^^^ rotl g.a3 19 = g.a0 := by
    rw [previous_eq, xor_cancel_right]
  rw [transition_eq, h3, h1, h0, rotl_19_45, UInt64.xor_comm g.a1, xor_cancel,
    UInt64.xor_comm _ g.a1, UInt64.xor_assoc, hmiddle, xor_cancel]

/-- Every state is reached from exactly one. -/
theorem transition_bijective : Function.Bijective transition :=
  Function.bijective_iff_has_inverse.mpr
    ⟨previous, previous_transition, transition_previous⟩

-- ===================================================================== draws

/-- A number of draws is as many transitions. -/
theorem draws_state (n : Nat) (g : Xoshiro256Generator) :
    (draws n g).2 = transition^[n] g := by
  induction n generalizing g with
  | zero => rfl
  | succ n ih => exact ih (transition g)

/-- The published outputs for the seed 1, 2, 3, 4. -/
example : (draws 4 ⟨1, 2, 3, 4⟩).1
    = [11520, 0, 1509978240, 1215971899390074240] := by
  decide

/-- The zero state draws zeros. -/
theorem draws_zero (n : Nat) : draws n 0 = (List.replicate n 0, 0) := by
  have hnext : next 0 = (0, 0) := by decide
  induction n with
  | zero => rfl
  | succ n ih =>
      rw [draws, hnext]
      simp only [ih]
      rfl

/-- The transition is a linear bijection that fixes the zero state. So the
zero state, which draws zeros only, is not reached from another one, and
different states stay different. -/
theorem draws_never_collapse :
    Function.Bijective transition
      ∧ (∀ g h, transition (g ^^^ h) = transition g ^^^ transition h)
      ∧ transition 0 = 0
      ∧ (∀ n, draws n 0 = (List.replicate n 0, 0))
      ∧ (∀ n g, g ≠ 0 → (draws n g).2 ≠ 0)
      ∧ ∀ n g h, g ≠ h → (draws n g).2 ≠ (draws n h).2 := by
  have hinjective := transition_bijective.injective
  refine ⟨transition_bijective, transition_xor, transition_zero, draws_zero,
    ?_, ?_⟩
  · intro n g hg
    rw [draws_state]
    exact XorShift.iterate_ne_fixed hinjective transition_zero hg n
  · intro n g h hne
    rw [draws_state, draws_state]
    exact (hinjective.iterate n).ne hne

/-- Two seeds of one bit. -/
theorem draws_never_collapse_bits :
    (draws 1000 ⟨1, 0, 0, 0⟩).2 ≠ 0
      ∧ (draws 1000 ⟨1, 0, 0, 0⟩).2 ≠ (draws 1000 ⟨2, 0, 0, 0⟩).2 := by
  obtain ⟨-, -, -, -, hzero, hdifferent⟩ := draws_never_collapse
  exact ⟨hzero 1000 _ (by decide), hdifferent 1000 _ _ (by decide)⟩

end Xoshiro256Generator

end Remc
