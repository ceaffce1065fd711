/-
The ChaCha20 block function of RFC 8439, as rounds on the columns and the
diagonals of a 4 by 4 matrix of words.

The matrix is kept as its four columns. A column round is one quarter round
on each of them; a diagonal round is a column round between two shifts of
the rows, which bring the diagonals into the columns and back. The block
function adds the initial matrix to the one after ten rounds of both kinds
and writes the words row by row.

`blockAt` is the stream the block function makes of a starting counter:
block `i` has the counter `i` further, modulo 2^32, and what it carries is
added to the first word of the nonce.
-/
import Mathlib.Logic.Function.Iterate
import Remc.Lib.LittleEndian

namespace ChaCha

open LittleEndian

/-- A column of the matrix, from top to bottom. -/
structure Column where
  a : UInt32
  b : UInt32
  c : UInt32
  d : UInt32
deriving DecidableEq, Repr

/-- The matrix, column by column. -/
structure State where
  c0 : Column
  c1 : Column
  c2 : Column
  c3 : Column
deriving DecidableEq, Repr

/-- The nonce, as three little-endian words. -/
structure Nonce where
  n0 : UInt32
  n1 : UInt32
  n2 : UInt32
deriving DecidableEq, Repr

-- ================================================================== rounds

/-- A word with its bits moved `n` places to the left, around the end. -/
def rotl (x : UInt32) (n : Nat) : UInt32 := ⟨x.toBitVec.rotateLeft n⟩

def quarterRound (x : Column) : Column :=
  let a := x.a + x.b
  let d := rotl (x.d ^^^ a) 16
  let c := x.c + d
  let b := rotl (x.b ^^^ c) 12
  let a := a + b
  let d := rotl (d ^^^ a) 8
  let c := c + d
  let b := rotl (b ^^^ c) 7
  ⟨a, b, c, d⟩

def columnRound (s : State) : State :=
  ⟨quarterRound s.c0, quarterRound s.c1, quarterRound s.c2, quarterRound s.c3⟩

/-- Row `i` moves `i` places to the left: the diagonals become columns. -/
def shiftRows (s : State) : State where
  c0 := ⟨s.c0.a, s.c1.b, s.c2.c, s.c3.d⟩
  c1 := ⟨s.c1.a, s.c2.b, s.c3.c, s.c0.d⟩
  c2 := ⟨s.c2.a, s.c3.b, s.c0.c, s.c1.d⟩
  c3 := ⟨s.c3.a, s.c0.b, s.c1.c, s.c2.d⟩

/-- Row `i` moves back. -/
def unshiftRows (s : State) : State where
  c0 := ⟨s.c0.a, s.c3.b, s.c2.c, s.c1.d⟩
  c1 := ⟨s.c1.a, s.c0.b, s.c3.c, s.c2.d⟩
  c2 := ⟨s.c2.a, s.c1.b, s.c0.c, s.c3.d⟩
  c3 := ⟨s.c3.a, s.c2.b, s.c1.c, s.c0.d⟩

def diagonalRound (s : State) : State :=
  unshiftRows (columnRound (shiftRows s))

/-- Ten times a column round and a diagonal round. -/
def rounds (s : State) : State :=
  (fun s => diagonalRound (columnRound s))^[10] s

-- =================================================================== blocks

/-- Word `i` of a byte string. -/
def word (bs : List UInt8) (i : Nat) : UInt32 :=
  UInt32.ofNat (ofBytes ((bs.drop (4 * i)).take 4))

/-- "expand 32-byte k", the key, the counter and the nonce, row by row. -/
def initial (key : List UInt8) (counter : UInt32) (nonce : Nonce) : State where
  c0 := ⟨0x61707865, word key 0, word key 4, counter⟩
  c1 := ⟨0x3320646e, word key 1, word key 5, nonce.n0⟩
  c2 := ⟨0x79622d32, word key 2, word key 6, nonce.n1⟩
  c3 := ⟨0x6b206574, word key 3, word key 7, nonce.n2⟩

def Column.add (x y : Column) : Column :=
  ⟨x.a + y.a, x.b + y.b, x.c + y.c, x.d + y.d⟩

def State.add (s t : State) : State :=
  ⟨s.c0.add t.c0, s.c1.add t.c1, s.c2.add t.c2, s.c3.add t.c3⟩

/-- The words, row by row. -/
def State.words (s : State) : List UInt32 :=
  [s.c0.a, s.c1.a, s.c2.a, s.c3.a, s.c0.b, s.c1.b, s.c2.b, s.c3.b,
    s.c0.c, s.c1.c, s.c2.c, s.c3.c, s.c0.d, s.c1.d, s.c2.d, s.c3.d]

/-- The block function. -/
def block (key : List UInt8) (counter : UInt32) (nonce : Nonce) : List UInt8 :=
  ((rounds (initial key counter nonce)).add (initial key counter nonce)).words
    |>.flatMap fun w => toBytes 4 w.toNat

-- =================================================================== stream

/-- The counter `i` blocks further. -/
def counterAt (counter : UInt32) (i : Nat) : UInt32 :=
  UInt32.ofNat (counter.toNat + i)

/-- The nonce there, with what the counter carries. -/
def nonceAt (nonce : Nonce) (counter : UInt32) (i : Nat) : Nonce :=
  { nonce with n0 := nonce.n0 + UInt32.ofNat ((counter.toNat + i) / 2 ^ 32) }

/-- Block `i` of the stream that starts at a counter. -/
def blockAt (key : List UInt8) (nonce : Nonce) (counter : UInt32) (i : Nat) :
    List UInt8 :=
  block key (counterAt counter i) (nonceAt nonce counter i)

/-- The `n` bytes of the stream from offset `off` on. -/
def keystream (key : List UInt8) (nonce : Nonce) (counter : UInt32)
    (off n : Nat) : List UInt8 :=
  (List.range' off n).map fun i =>
    (blockAt key nonce counter (i / 64)).getD (i % 64) 0

@[simp] theorem keystream_length (key : List UInt8) (nonce : Nonce)
    (counter : UInt32) (off n : Nat) :
    (keystream key nonce counter off n).length = n := by
  rw [keystream, List.length_map, List.length_range']

/-- Adjacent pieces of the stream are one piece. -/
theorem keystream_append (key : List UInt8) (nonce : Nonce) (counter : UInt32)
    (off m n : Nat) :
    keystream key nonce counter off (m + n)
      = keystream key nonce counter off m
        ++ keystream key nonce counter (off + m) n := by
  unfold keystream
  rw [← List.map_append, List.range'_append_1]

theorem keystream_take (key : List UInt8) (nonce : Nonce) (counter : UInt32)
    (off : Nat) {m n : Nat} (h : m ≤ n) :
    (keystream key nonce counter off n).take m
      = keystream key nonce counter off m := by
  obtain ⟨k, rfl⟩ := Nat.exists_eq_add_of_le h
  rw [keystream_append, List.take_left' (keystream_length _ _ _ _ _)]

-- the block of section 2.3.2 of RFC 8439, its first row
example : (block
    [0x00, 0x01, 0x02, 0x03, 0x04, 0x05, 0x06, 0x07, 0x08, 0x09, 0x0a, 0x0b,
      0x0c, 0x0d, 0x0e, 0x0f, 0x10, 0x11, 0x12, 0x13, 0x14, 0x15, 0x16, 0x17,
      0x18, 0x19, 0x1a, 0x1b, 0x1c, 0x1d, 0x1e, 0x1f]
    1 ⟨0x09000000, 0x4a000000, 0⟩).take 16
    = [0x10, 0xf1, 0xe7, 0xe4, 0xd1, 0x3b, 0x59, 0x15, 0x50, 0x0f, 0xdd, 0x1f,
      0xa3, 0x20, 0x71, 0xc4] := by decide +kernel

end ChaCha
