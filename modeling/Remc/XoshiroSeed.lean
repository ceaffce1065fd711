/-
What four ids tell about a generator.

`operator()` returns its second word, multiplied, rotated and multiplied
again, and each of the three is undone. The second words of four states in
a row then give the other three words of the second of them one after the
other (`second`), and `previous` gives the first. So the four ids of a
window are as good as the state (`window_bijective`), and who sees them
knows every id drawn before and after (`draws_predicted`).
-/
import Remc.Xoshiro256

namespace Remc

namespace Xoshiro256Generator

-- ============================================================== the output

/-- Undoes what `operator()` does to the second word. -/
def unscramble (x : UInt64) : UInt64 :=
  rotl (x * 0x8e38e38e38e38e39) 57 * 0xcccccccccccccccd

/-- What `operator()` does to the second word. -/
def scramble (x : UInt64) : UInt64 := rotl (x * 5) 7 * 9

theorem rotl_7_57 (x : UInt64) : rotl (rotl x 7) 57 = x :=
  UInt64.toBitVec_inj.mp (XorShift.rotateLeft_rotateLeft (w := 64) (r := 7)
    (s := 57) (by omega) (by omega) rfl x.toBitVec)

theorem rotl_57_7 (x : UInt64) : rotl (rotl x 57) 7 = x :=
  UInt64.toBitVec_inj.mp (XorShift.rotateLeft_rotateLeft (w := 64) (r := 57)
    (s := 7) (by omega) (by omega) rfl x.toBitVec)

/-- Multiplication by two words whose product is one. -/
theorem mul_mul_cancel {a b : UInt64} (h : a * b = 1) (x : UInt64) :
    x * a * b = x := by
  rw [UInt64.mul_assoc, h, UInt64.mul_one]

theorem unscramble_scramble (x : UInt64) : unscramble (scramble x) = x := by
  unfold unscramble scramble
  rw [mul_mul_cancel (by decide), rotl_7_57, mul_mul_cancel (by decide)]

theorem scramble_unscramble (x : UInt64) : scramble (unscramble x) = x := by
  unfold unscramble scramble
  rw [mul_mul_cancel (by decide), rotl_57_7, mul_mul_cancel (by decide)]

-- ============================================================== the window

/-- The ids of four draws. -/
def window (g : Xoshiro256Generator) : UInt64 × UInt64 × UInt64 × UInt64 :=
  (g.next.1, (transition g).next.1, (transition^[2] g).next.1,
    (transition^[3] g).next.1)

/-- The state whose second word and that of the state before it are `b₁`
and `b₀`, where those of the two states after it are `b₂` and `b₃`. -/
def second (b₀ b₁ b₂ b₃ : UInt64) : Xoshiro256Generator :=
  let c₁ := b₁ ^^^ b₀ ^^^ b₀ <<< 17
  let a₁ := b₁ ^^^ b₂ ^^^ c₁
  let c₂ := c₁ ^^^ a₁ ^^^ b₁ <<< 17
  let a₂ := b₂ ^^^ b₃ ^^^ c₂
  ⟨a₁, b₁, c₁, a₁ ^^^ b₁ ^^^ a₂⟩

/-- The state that draws these four ids. -/
def seedOf : UInt64 × UInt64 × UInt64 × UInt64 → Xoshiro256Generator
  | (x₀, x₁, x₂, x₃) =>
      previous (second (unscramble x₀) (unscramble x₁) (unscramble x₂)
        (unscramble x₃))

theorem window_eq (g : Xoshiro256Generator) :
    window g = (scramble g.a1, scramble (transition g).a1,
      scramble (transition^[2] g).a1, scramble (transition^[3] g).a1) := rfl

-- ============================================================= the recovery

theorem xor_cancel_both (x y : UInt64) : x ^^^ y ^^^ x = y := by
  rw [UInt64.xor_comm x, xor_cancel_right]

/-- Two second words in a row, and the last word of the three, give the
first. -/
theorem first_word (h : Xoshiro256Generator) :
    h.a1 ^^^ (transition h).a1 ^^^ h.a2 = h.a0 := by
  rw [transition_eq]
  dsimp only
  rw [xor_cancel, xor_cancel_both]

/-- A state is found from its second word and those of its neighbours. -/
theorem second_transition {b₀ : UInt64} {h : Xoshiro256Generator}
    (hmiddle : h.a1 ^^^ h.a2 = b₀ ^^^ b₀ <<< 17) :
    second b₀ h.a1 (transition h).a1 (transition^[2] h).a1 = h := by
  have hc₁ : h.a1 ^^^ b₀ ^^^ b₀ <<< 17 = h.a2 := by
    rw [UInt64.xor_assoc, ← hmiddle, xor_cancel]
  have ha₁ := first_word h
  have hc₂ : h.a2 ^^^ h.a0 ^^^ h.a1 <<< 17 = (transition h).a2 := rfl
  have ha₂ : (transition h).a1 ^^^ (transition^[2] h).a1 ^^^ (transition h).a2
      = (transition h).a0 := first_word (transition h)
  have hd₁ : h.a0 ^^^ h.a1 ^^^ (transition h).a0 = h.a3 := by
    rw [transition_eq]
    dsimp only
    rw [UInt64.xor_comm h.a0 h.a1, UInt64.xor_assoc, xor_cancel,
      UInt64.xor_comm h.a3, xor_cancel]
  apply Xoshiro256Generator.ext
  · show h.a1 ^^^ _ ^^^ (h.a1 ^^^ b₀ ^^^ b₀ <<< 17) = h.a0
    rw [hc₁, ha₁]
  · rfl
  · exact hc₁
  · simp only [second, hc₁, ha₁, hc₂, ha₂, hd₁]

/-- The sum that `first_word` solves. -/
theorem xor_solve (x y z : UInt64) : x ^^^ (z ^^^ (x ^^^ y ^^^ z)) = y := by
  rw [UInt64.xor_comm z, xor_cancel_right, xor_cancel]

theorem xor_solve_twice (x y z : UInt64) :
    x ^^^ (x ^^^ y ^^^ z ^^^ y) = z := by
  rw [UInt64.xor_assoc x y, UInt64.xor_assoc x, xor_cancel,
    xor_cancel_both]

/-- And a state made of four words has them for its own and its neighbours'
second words. -/
theorem transition_second (b₀ b₁ b₂ b₃ : UInt64) :
    (previous (second b₀ b₁ b₂ b₃)).a1 = b₀
      ∧ (transition (second b₀ b₁ b₂ b₃)).a1 = b₂
      ∧ (transition^[2] (second b₀ b₁ b₂ b₃)).a1 = b₃ := by
  have hmiddle : b₁ ^^^ (second b₀ b₁ b₂ b₃).a2 = b₀ ^^^ b₀ <<< 17 := by
    show b₁ ^^^ (b₁ ^^^ b₀ ^^^ b₀ <<< 17) = _
    rw [UInt64.xor_assoc, xor_cancel]
  have hsecond : (transition (second b₀ b₁ b₂ b₃)).a1 = b₂ :=
    xor_solve b₁ b₂ (second b₀ b₁ b₂ b₃).a2
  have hfirst : (transition (second b₀ b₁ b₂ b₃)).a0
      = b₂ ^^^ b₃ ^^^ (transition (second b₀ b₁ b₂ b₃)).a2 := by
    show (second b₀ b₁ b₂ b₃).a0 ^^^ ((second b₀ b₁ b₂ b₃).a0 ^^^ b₁
      ^^^ (b₂ ^^^ b₃ ^^^ (transition (second b₀ b₁ b₂ b₃)).a2) ^^^ b₁) = _
    exact xor_solve_twice _ _ _
  refine ⟨?_, hsecond, ?_⟩
  · show unshift (b₁ ^^^ (second b₀ b₁ b₂ b₃).a2) = b₀
    rw [hmiddle, unshift_shift]
  · show (transition (second b₀ b₁ b₂ b₃)).a1
      ^^^ ((transition (second b₀ b₁ b₂ b₃)).a2
        ^^^ (transition (second b₀ b₁ b₂ b₃)).a0) = b₃
    rw [hfirst, hsecond, xor_solve]

-- =============================================================== the results

/-- The four ids of a window give the state that draws them. -/
theorem seedOf_window : Function.LeftInverse seedOf window := by
  intro g
  have hsecond : second g.a1 (transition g).a1 (transition^[2] g).a1
      (transition^[3] g).a1 = transition g :=
    second_transition (transition_middle g)
  rw [window_eq, seedOf]
  simp only [unscramble_scramble]
  rw [hsecond, previous_transition]

/-- Any four words are drawn by the state that they give. -/
theorem window_seedOf : Function.RightInverse seedOf window := by
  rintro ⟨x₀, x₁, x₂, x₃⟩
  obtain ⟨h₀, h₂, h₃⟩ := transition_second (unscramble x₀) (unscramble x₁)
    (unscramble x₂) (unscramble x₃)
  generalize hh : second (unscramble x₀) (unscramble x₁) (unscramble x₂)
    (unscramble x₃) = h at h₀ h₂ h₃
  have h₁ : h.a1 = unscramble x₁ := by rw [← hh]; rfl
  have hseed : seedOf (x₀, x₁, x₂, x₃) = previous h := by rw [seedOf, hh]
  have hnext : transition (previous h) = h := transition_previous h
  rw [hseed, window_eq, Function.iterate_succ_apply,
    Function.iterate_succ_apply transition 2, hnext, h₀, h₁, h₃,
    Function.iterate_one, h₂]
  simp only [scramble_unscramble]

/-- Every four words are the ids of exactly one state. -/
theorem window_bijective : Function.Bijective window :=
  Function.bijective_iff_has_inverse.mpr ⟨seedOf, seedOf_window, window_seedOf⟩

/-- Draws go on from the state that draws before them have left. -/
theorem draws_add (k n : Nat) (g : Xoshiro256Generator) :
    (draws (k + n) g).1 = (draws k g).1 ++ (draws n (transition^[k] g)).1 := by
  induction k generalizing g with
  | zero => rw [Nat.zero_add]; rfl
  | succ k ih =>
      rw [Nat.succ_add]
      exact congrArg (g.next.1 :: ·) (ih (transition g))

theorem draws_length (n : Nat) (g : Xoshiro256Generator) :
    (draws n g).1.length = n := by
  induction n generalizing g with
  | zero => rfl
  | succ n ih => exact congrArg Nat.succ (ih (transition g))

/-- Four draws are the window. -/
theorem draws_window (g : Xoshiro256Generator) :
    (draws 4 g).1 = [(window g).1, (window g).2.1, (window g).2.2.1,
      (window g).2.2.2] := rfl

/-- Every four words are the ids of exactly one state; and wherever four ids
are seen among the draws of a generator, they give all ids that follow, and
the state that it was seeded with. -/
theorem draws_predicted :
    Function.Bijective window
      ∧ ∀ (g : Xoshiro256Generator) (k n : Nat), ∃ x₀ x₁ x₂ x₃,
        ((draws (k + (4 + n)) g).1.drop k).take 4 = [x₀, x₁, x₂, x₃]
          ∧ (draws (4 + n) (seedOf (x₀, x₁, x₂, x₃))).1
            = (draws (k + (4 + n)) g).1.drop k
          ∧ previous^[k] (seedOf (x₀, x₁, x₂, x₃)) = g := by
  refine ⟨window_bijective, fun g k n => ?_⟩
  let seen := window (transition^[k] g)
  have hseed : seedOf (seen.1, seen.2.1, seen.2.2.1, seen.2.2.2)
      = transition^[k] g := seedOf_window _
  have hdrop : (draws (k + (4 + n)) g).1.drop k
      = (draws (4 + n) (transition^[k] g)).1 := by
    rw [draws_add, List.drop_left' (draws_length k g)]
  refine ⟨seen.1, seen.2.1, seen.2.2.1, seen.2.2.2, ?_, ?_, ?_⟩
  · rw [hdrop, draws_add, List.take_left' (draws_length 4 _), draws_window]
  · rw [hseed, hdrop]
  · rw [hseed]
    exact previous_transition.iterate k g

end Xoshiro256Generator

end Remc
