/-
Keystreams: the byte stream a block generator produces, and the XOR of
a message with a segment of it.

A generator is a `block` function on states and the `next` state; every
block has `L` bytes. Byte `i` of the stream from a state is byte `i % L`
of the block after `i / L` steps (`byteAt`), so a segment is named by
its offset and its length and never by how many calls produced it.
Segments over adjacent ranges append (`segment_append`), whole blocks
are segments (`blocks_eq_segment`), and XOR with one segment twice
restores the message (`xor_xor`).
-/
import Mathlib.Logic.Function.Iterate
import Mathlib.Tactic.Ring

namespace Keystream

-- ================================================================== xor

/-- Byte-wise XOR of a message with keystream of its length. -/
def xor (m ks : List UInt8) : List UInt8 := List.zipWith (· ^^^ ·) m ks

theorem xor_length {m ks : List UInt8} (h : ks.length = m.length) :
    (xor m ks).length = m.length := by
  rw [xor, List.length_zipWith, h, Nat.min_self]

/-- XOR works on two parts of a message separately. -/
theorem xor_append {m₁ m₂ k₁ k₂ : List UInt8}
    (h : m₁.length = k₁.length) :
    xor (m₁ ++ m₂) (k₁ ++ k₂) = xor m₁ k₁ ++ xor m₂ k₂ := by
  unfold xor
  exact List.zipWith_append h

/-- Message bytes beyond the keystream are dropped. -/
theorem xor_take_left (m ks : List UInt8) :
    xor (m.take ks.length) ks = xor m ks := by
  induction ks generalizing m with
  | nil => simp [xor]
  | cons k ks ih =>
      cases m with
      | nil => rfl
      | cons b m =>
          have hrest := ih m
          unfold xor at hrest ⊢
          rw [List.length_cons, List.take_succ_cons, List.zipWith_cons_cons,
            List.zipWith_cons_cons, hrest]

/-- A keystream in two parts goes over the message in two parts. -/
theorem xor_append_right {m k₁ k₂ : List UInt8}
    (h : k₁.length ≤ m.length) :
    xor m (k₁ ++ k₂) = xor m k₁ ++ xor (m.drop k₁.length) k₂ := by
  have hlen : (m.take k₁.length).length = k₁.length :=
    List.length_take_of_le h
  rw [← xor_take_left m k₁, ← xor_append hlen, List.take_append_drop]

/-- XOR with the same keystream twice restores the message. -/
theorem xor_xor {m ks : List UInt8} (h : ks.length = m.length) :
    xor (xor m ks) ks = m := by
  induction m generalizing ks with
  | nil => rfl
  | cons b m ih =>
      cases ks with
      | nil => cases h
      | cons k ks =>
          have hrest := ih (Nat.succ_inj.mp h)
          unfold xor at hrest ⊢
          rw [List.zipWith_cons_cons, List.zipWith_cons_cons, hrest,
            UInt8.xor_assoc, UInt8.xor_self, UInt8.xor_zero]

/-- XOR with zeros is the keystream. -/
theorem xor_zeros {n : Nat} {ks : List UInt8} (h : ks.length = n) :
    xor (List.replicate n 0) ks = ks := by
  induction ks generalizing n with
  | nil =>
      rw [← h]
      rfl
  | cons k ks ih =>
      have hrest := ih rfl
      unfold xor at hrest ⊢
      rw [← h, List.length_cons, List.replicate_succ, List.zipWith_cons_cons,
        hrest, UInt8.zero_xor]

-- ============================================================ the stream

/-- A block generator whose blocks all have `L` bytes. -/
structure Generator (σ : Type*) where
  L : Nat
  block : σ → List UInt8
  next : σ → σ
  pos : 0 < L
  block_length : ∀ s, (block s).length = L

variable {σ : Type*} (G : Generator σ)

/-- Byte `i` of the stream from `s`. -/
def byteAt (s : σ) (i : Nat) : UInt8 :=
  (G.block (G.next^[i / G.L] s)).getD (i % G.L) 0

/-- The `n` bytes of the stream from offset `off` on. -/
def segment (s : σ) (off n : Nat) : List UInt8 :=
  (List.range' off n).map (byteAt G s)

/-- The next `n` blocks, one after the other. -/
def blocks : Nat → σ → List UInt8
  | 0, _ => []
  | n + 1, s => G.block s ++ blocks n (G.next s)

@[simp] theorem segment_length (s : σ) (off n : Nat) :
    (segment G s off n).length = n := by
  rw [segment, List.length_map, List.length_range']

@[simp] theorem segment_getElem (s : σ) (off n i : Nat)
    (h : i < (segment G s off n).length) :
    (segment G s off n)[i] = byteAt G s (off + i) := by
  simp [segment]

/-- Adjacent segments are one segment. -/
theorem segment_append (s : σ) (off m n : Nat) :
    segment G s off (m + n) = segment G s off m ++ segment G s (off + m) n := by
  unfold segment
  rw [← List.map_append, List.range'_append_1]

theorem segment_take (s : σ) (off : Nat) {m n : Nat} (h : m ≤ n) :
    (segment G s off n).take m = segment G s off m := by
  obtain ⟨k, rfl⟩ := Nat.exists_eq_add_of_le h
  rw [segment_append, List.take_left' (segment_length G s off m)]

theorem segment_drop (s : σ) (off : Nat) {m n : Nat} (h : m ≤ n) :
    (segment G s off n).drop m = segment G s (off + m) (n - m) := by
  obtain ⟨k, rfl⟩ := Nat.exists_eq_add_of_le h
  rw [segment_append, List.drop_left' (segment_length G s off m),
    Nat.add_sub_cancel_left]

/-- The stream from the next state is the stream one block further. -/
theorem byteAt_next (s : σ) (i : Nat) :
    byteAt G (G.next s) i = byteAt G s (i + G.L) := by
  unfold byteAt
  rw [Nat.add_div_right _ G.pos, Nat.add_mod_right]
  rfl

/-- The stream after `k` blocks is the stream `k * L` bytes further. -/
theorem segment_iterate (s : σ) (k off n : Nat) :
    segment G (G.next^[k] s) off n = segment G s (off + k * G.L) n := by
  induction k generalizing s with
  | zero => rw [Nat.zero_mul]; rfl
  | succ k ih =>
      have hshift : segment G (G.next s) (off + k * G.L) n
          = segment G s (off + k * G.L + G.L) n := by
        apply List.ext_getElem
        · rw [segment_length, segment_length]
        · intro i hi hi'
          rw [segment_getElem, segment_getElem, byteAt_next]
          congr 1
          omega
      rw [Function.iterate_succ_apply, ih, hshift, Nat.succ_mul, Nat.add_assoc]

/-- A block is the first segment of its length. -/
theorem block_eq_segment (s : σ) : G.block s = segment G s 0 G.L := by
  apply List.ext_getElem
  · rw [G.block_length, segment_length]
  · intro i hi hi'
    rw [G.block_length] at hi
    have hlt : i < (G.block s).length := by rwa [G.block_length]
    rw [segment_getElem, Nat.zero_add, byteAt, Nat.div_eq_of_lt hi,
      Nat.mod_eq_of_lt hi]
    show (G.block s)[i] = (G.block s).getD i 0
    rw [List.getD_eq_getElem?_getD, List.getElem?_eq_getElem hlt]
    rfl

/-- The blocks by their numbers. -/
theorem blocks_eq_flatMap (n : Nat) (s : σ) :
    blocks G n s = (List.range n).flatMap fun i => G.block (G.next^[i] s) := by
  induction n generalizing s with
  | zero => rfl
  | succ n ih =>
      rw [blocks, ih, List.range_succ_eq_map, List.flatMap_cons,
        List.flatMap_map]
      rfl

/-- Whole blocks are a segment. -/
theorem blocks_eq_segment (n : Nat) (s : σ) :
    blocks G n s = segment G s 0 (n * G.L) := by
  induction n generalizing s with
  | zero => rw [Nat.zero_mul]; rfl
  | succ n ih =>
      have hnext : segment G (G.next s) 0 (n * G.L)
          = segment G s G.L (n * G.L) := by
        have h := segment_iterate G s 1 0 (n * G.L)
        rwa [Nat.one_mul, Nat.zero_add] at h
      rw [blocks, ih, hnext, block_eq_segment, Nat.succ_mul, Nat.add_comm,
        segment_append, Nat.zero_add]

/-- A common summand drops out. -/
theorem xor_xor_cancel (x y k : UInt8) : (x ^^^ k) ^^^ (y ^^^ k) = x ^^^ y := by
  rw [UInt8.xor_comm y k, UInt8.xor_assoc, ← UInt8.xor_assoc k k,
    UInt8.xor_self, UInt8.zero_xor]

/-- Two messages under one segment differ exactly as their XORs with it
do: the keystream drops out. -/
theorem xor_segments (s : σ) (off : Nat) (m₁ m₂ : List UInt8) :
    xor (xor m₁ (segment G s off m₁.length))
        (xor m₂ (segment G s off m₂.length)) = xor m₁ m₂ := by
  apply List.ext_getElem
  · simp only [xor, List.length_zipWith, segment_length, Nat.min_self]
  · intro i hi hi'
    simp only [xor, List.getElem_zipWith, segment_getElem]
    exact xor_xor_cancel _ _ _

end Keystream
