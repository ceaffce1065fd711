/-
ChaCha20 (chacha20.h, chacha20.cpp): the block cipher on whole blocks
(`ChaCha20Aligned`) and the stream cipher that buffers the rest of a
block (`ChaCha20`).

The aligned cipher is a keystream generator (`ChaCha20Aligned.generator`),
and a `ChaCha20` object always stands at a byte of the stream of the
state it was last seeked to (`ChaCha20.At`). `keystream_spec` and
`crypt_spec` say what a call outputs and where it leaves the object, in
terms of that stream alone, however the calls before it were cut.
-/
import Remc.Basic
import Remc.Lib.Keystream

namespace Remc.Crypto

open Keystream

/-- `Nonce96`: the first 4 and the last 8 bytes of a 96-bit nonce. -/
structure Nonce96 where
  first : UInt32
  second : UInt64
deriving DecidableEq, Repr

-- ============================================================= the rounds

/-- `std::rotl`. -/
def rotl (x n : UInt32) : UInt32 := (x <<< n) ||| (x >>> (32 - n))

/-- `QUARTERROUND(xa, xb, xc, xd)`. -/
def quarterRound (a b c d : Fin 16) (x : Vector UInt32 16) :
    Vector UInt32 16 :=
  let x := x.set a (x[a] + x[b])
  let x := x.set d (rotl (x[d] ^^^ x[a]) 16)
  let x := x.set c (x[c] + x[d])
  let x := x.set b (rotl (x[b] ^^^ x[c]) 12)
  let x := x.set a (x[a] + x[b])
  let x := x.set d (rotl (x[d] ^^^ x[a]) 8)
  let x := x.set c (x[c] + x[d])
  x.set b (rotl (x[b] ^^^ x[c]) 7)

/-- The body of `REPEAT10`. -/
def doubleRound (x : Vector UInt32 16) : Vector UInt32 16 :=
  let x := quarterRound 0 4 8 12 x
  let x := quarterRound 1 5 9 13 x
  let x := quarterRound 2 6 10 14 x
  let x := quarterRound 3 7 11 15 x
  let x := quarterRound 0 5 10 15 x
  let x := quarterRound 1 6 11 12 x
  let x := quarterRound 2 7 8 13 x
  quarterRound 3 4 9 14 x

def rounds : Nat → Vector UInt32 16 → Vector UInt32 16
  | 0, x => x
  | n + 1, x => rounds n (doubleRound x)

/-- `WriteLE` of the words, one after the other. -/
def serialize (words : List UInt32) : Bytes := words.flatMap writeLE32

/-- `x ^= ReadLE(m)` for every word, `m` moving along. -/
def xorWords : List UInt32 → Bytes → List UInt32
  | [], _ => []
  | x :: xs, m => (x ^^^ readLE32 m 0) :: xorWords xs (m.drop 4)

theorem serialize_length (words : List UInt32) :
    (serialize words).length = 4 * words.length := by
  induction words with
  | nil => rfl
  | cons w ws ih =>
      have hcons : serialize (w :: ws) = writeLE32 w ++ serialize ws := rfl
      rw [hcons, List.length_append, writeLE32_length, ih, List.length_cons]
      omega

/-- A word XORed with the message at its head writes the XOR of the
bytes. -/
theorem writeLE32_xor_readLE32 (w : UInt32) {m : Bytes}
    (h : 4 ≤ m.length) :
    writeLE32 (w ^^^ readLE32 m 0) = xor m (writeLE32 w) := by
  have hlen : (m.take 4).length = 4 := List.length_take_of_le h
  have hbytes := LittleEndian.toBytes_ofBytes (m.take 4)
  rw [hlen] at hbytes
  have hread : (readLE32 m 0).toNat = LittleEndian.ofBytes (m.take 4) :=
    readLE32_toNat (by omega)
  rw [← xor_take_left, writeLE32_length, writeLE32, UInt32.toNat_xor,
    Nat.xor_comm, hread, LittleEndian.toBytes_xor, hbytes]
  rfl

/-- Serialised words XORed with a message are the XOR of the bytes. -/
theorem serialize_xorWords (words : List UInt32) {m : Bytes}
    (h : 4 * words.length ≤ m.length) :
    serialize (xorWords words m) = xor m (serialize words) := by
  induction words generalizing m with
  | nil =>
      unfold Keystream.xor
      exact List.zipWith_nil_right.symm
  | cons w ws ih =>
      rw [List.length_cons] at h
      have hrest : 4 * ws.length ≤ (m.drop 4).length := by
        rw [List.length_drop]
        omega
      have hw : (writeLE32 w).length ≤ m.length := by
        rw [writeLE32_length]
        omega
      calc serialize (xorWords (w :: ws) m)
          = writeLE32 (w ^^^ readLE32 m 0)
              ++ serialize (xorWords ws (m.drop 4)) := rfl
        _ = xor m (writeLE32 w) ++ xor (m.drop 4) (serialize ws) := by
            rw [writeLE32_xor_readLE32 w (by omega), ih hrest]
        _ = xor m (writeLE32 w ++ serialize ws) := by
            rw [xor_append_right hw, writeLE32_length]
        _ = xor m (serialize (w :: ws)) := rfl

-- ======================================================== ChaCha20Aligned

/-- `ChaCha20Aligned`: the key in words 0 to 7, the block counter in
word 8, the nonce behind it. -/
structure ChaCha20Aligned where
  input : Vector UInt32 12
deriving DecidableEq, Repr

namespace ChaCha20Aligned

/-- `KEYLEN`. -/
abbrev keyLen : Nat := 32

/-- `BLOCKLEN`. -/
abbrev blockLen : Nat := 64

/-- `input` as `SetKey` leaves it: the key, then zeros. -/
def keyed (key : Bytes) : ChaCha20Aligned where
  input := #v[
    readLE32 key 0, readLE32 key 4, readLE32 key 8, readLE32 key 12,
    readLE32 key 16, readLE32 key 20, readLE32 key 24, readLE32 key 28,
    0, 0, 0, 0]

/-- `SetKey`. It overwrites all of `input`, so it is the constructor
as well. -/
def setKey (key : Bytes) : Checked ChaCha20Aligned := do
  require (key.length = keyLen) .keySize
  return keyed key

/-- `Seek`. -/
def seek (c : ChaCha20Aligned) (nonce : Nonce96) (blockCounter : UInt32) :
    ChaCha20Aligned :=
  let input := c.input.set 8 blockCounter
  let input := input.set 9 nonce.first
  let input := input.set 10 nonce.second.toUInt32
  { input := input.set 11 (nonce.second >>> 32).toUInt32 }

/-- `x0` to `x15` at the head of the loop. -/
def initial (c : ChaCha20Aligned) : Vector UInt32 16 :=
  (#v[0x61707865, 0x3320646e, 0x79622d32, 0x6b206574] : Vector UInt32 4)
    ++ c.input

/-- `x0` to `x15` after the rounds and the final additions. -/
def words (c : ChaCha20Aligned) : Vector UInt32 16 :=
  (rounds 10 c.initial).zipWith (· + ·) c.initial

/-- `++j12; if (!j12) ++j13;`, stored back. -/
def next (c : ChaCha20Aligned) : ChaCha20Aligned :=
  let j12 := c.input[8] + 1
  let input := c.input.set 8 j12
  if j12 = 0 then { input := input.set 9 (input[9] + 1) } else { input }

/-- The loop of `Keystream`. -/
def keystreamBlocks : Nat → ChaCha20Aligned → Bytes × ChaCha20Aligned
  | 0, c => ([], c)
  | blocks + 1, c =>
      let out := serialize c.words.toList
      let (rest, c) := keystreamBlocks blocks c.next
      (out ++ rest, c)

/-- The loop of `Crypt`, `m` moving along. -/
def cryptBlocks : Nat → ChaCha20Aligned → Bytes → Bytes × ChaCha20Aligned
  | 0, c, _ => ([], c)
  | blocks + 1, c, m =>
      let out := serialize (xorWords c.words.toList m)
      let (rest, c) := cryptBlocks blocks c.next (m.drop blockLen)
      (out ++ rest, c)

/-- `Keystream` into a span of `size` bytes. -/
def keystream (c : ChaCha20Aligned) (size : Nat) :
    Checked (Bytes × ChaCha20Aligned) := do
  let blocks := size / blockLen
  require (blocks * blockLen = size) .wholeBlocks
  return c.keystreamBlocks blocks

/-- `Crypt` into a span of the input's size. -/
def crypt (c : ChaCha20Aligned) (input : Bytes) :
    Checked (Bytes × ChaCha20Aligned) := do
  let blocks := input.length / blockLen
  require (blocks * blockLen = input.length) .wholeBlocks
  return c.cryptBlocks blocks input

/-- The aligned cipher as a block generator. -/
def generator : Generator ChaCha20Aligned where
  L := 64
  block c := serialize c.words.toList
  next := next
  pos := by decide
  block_length c := by rw [serialize_length, Vector.length_toList]

theorem keystreamBlocks_eq (n : Nat) (c : ChaCha20Aligned) :
    keystreamBlocks n c = (segment generator c 0 (n * 64), next^[n] c) := by
  have hblocks : keystreamBlocks n c = (blocks generator n c, next^[n] c) := by
    induction n generalizing c with
    | zero => rfl
    | succ n ih =>
        rw [keystreamBlocks, ih]
        rfl
  rw [hblocks, blocks_eq_segment]
  rfl

/-- En- and deciphering is XOR with the keystream, and moves the state
as far. -/
theorem cryptBlocks_eq (n : Nat) (c : ChaCha20Aligned) {m : Bytes}
    (hm : m.length = n * 64) :
    cryptBlocks n c m
      = (xor m (keystreamBlocks n c).1, (keystreamBlocks n c).2) := by
  induction n generalizing c m with
  | zero =>
      rw [Nat.zero_mul, List.length_eq_zero_iff] at hm
      rw [hm]
      rfl
  | succ n ih =>
      have htail : (m.drop 64).length = n * 64 := by
        rw [List.length_drop]
        omega
      have hblock : (serialize c.words.toList).length = 64 :=
        generator.block_length c
      have hwords : serialize (xorWords c.words.toList m)
          = xor m (serialize c.words.toList) := by
        apply serialize_xorWords
        rw [Vector.length_toList]
        omega
      have hsplit : xor m
            (serialize c.words.toList ++ (keystreamBlocks n c.next).1)
          = xor m (serialize c.words.toList)
            ++ xor (m.drop 64) (keystreamBlocks n c.next).1 := by
        rw [xor_append_right (by omega), hblock]
      show (serialize (xorWords c.words.toList m)
          ++ (cryptBlocks n c.next (m.drop 64)).1,
          (cryptBlocks n c.next (m.drop 64)).2)
        = (xor m (serialize c.words.toList ++ (keystreamBlocks n c.next).1),
          (keystreamBlocks n c.next).2)
      rw [ih _ htail, hwords, hsplit]

/-- The key words survive a seek. -/
theorem seek_key (c : ChaCha20Aligned) (nonce : Nonce96) (ctr : UInt32)
    {i : Nat} (hi : i < 8) :
    (c.seek nonce ctr).input[i] = c.input[i] := by
  simp only [seek]
  rw [Vector.getElem_set_ne _ _ (by omega), Vector.getElem_set_ne _ _ (by omega),
    Vector.getElem_set_ne _ _ (by omega), Vector.getElem_set_ne _ _ (by omega)]

/-- The key words survive a block. -/
theorem next_key (c : ChaCha20Aligned) {i : Nat} (hi : i < 8) :
    c.next.input[i] = c.input[i] := by
  simp only [next]
  split
  next =>
    rw [Vector.getElem_set_ne _ _ (by omega),
      Vector.getElem_set_ne _ _ (by omega)]
  next => rw [Vector.getElem_set_ne _ _ (by omega)]

/-- Where a seek leads depends on the key words only. -/
theorem seek_congr {c d : ChaCha20Aligned}
    (h : ∀ i (hi : i < 8), c.input[i] = d.input[i]) (nonce : Nonce96)
    (ctr : UInt32) : c.seek nonce ctr = d.seek nonce ctr := by
  have hinput : (c.seek nonce ctr).input = (d.seek nonce ctr).input := by
    apply Vector.ext
    intro i hi
    by_cases hkey : i < 8
    · rw [seek_key c nonce ctr hkey, seek_key d nonce ctr hkey, h i hkey]
    · have hcases : i = 8 ∨ i = 9 ∨ i = 10 ∨ i = 11 := by omega
      rcases hcases with rfl | rfl | rfl | rfl <;> simp [seek]
  unfold seek at hinput ⊢
  exact congrArg ChaCha20Aligned.mk hinput

theorem seek_seek (c : ChaCha20Aligned) (n₁ n₂ : Nonce96)
    (c₁ c₂ : UInt32) : (c.seek n₁ c₁).seek n₂ c₂ = c.seek n₂ c₂ :=
  seek_congr (fun _ hi => seek_key c n₁ c₁ hi) n₂ c₂

theorem seek_iterate_next (c : ChaCha20Aligned) (k : Nat)
    (nonce : Nonce96) (ctr : UInt32) :
    (next^[k] c).seek nonce ctr = c.seek nonce ctr := by
  induction k generalizing c with
  | zero => rfl
  | succ k ih =>
      rw [Function.iterate_succ_apply, ih]
      exact seek_congr (fun _ hi => next_key c hi) nonce ctr

/-- The block after block 0 is block 1. -/
theorem next_seek_zero (c : ChaCha20Aligned) (nonce : Nonce96) :
    (c.seek nonce 0).next = c.seek nonce 1 := by
  have hctr : (c.seek nonce 0).input[8] = 0 := by simp [seek]
  have hone : ¬(0 : UInt32) + 1 = 0 := by decide
  simp only [next]
  rw [hctr, if_neg hone]
  unfold seek
  congr 1
  apply Vector.ext
  intro i hi
  simp only [Vector.getElem_set]
  grind

end ChaCha20Aligned

-- =============================================================== ChaCha20

/-- `ChaCha20`: the aligned cipher, one buffered block, and how many of
its last bytes are still unused. -/
structure ChaCha20 where
  aligned : ChaCha20Aligned
  buffer : Bytes
  bufleft : Nat
deriving DecidableEq, Repr

namespace ChaCha20

open ChaCha20Aligned (blockLen)

/-- The constructor. The source leaves `m_buffer` uninitialised; no call
reads it before a block is stored there. -/
def new (key : Bytes) : Checked ChaCha20 := do
  let aligned ← ChaCha20Aligned.setKey key
  return { aligned, buffer := List.replicate blockLen 0, bufleft := 0 }

/-- `Seek`. -/
def seek (c : ChaCha20) (nonce : Nonce96) (blockCounter : UInt32) :
    ChaCha20 :=
  { c with aligned := c.aligned.seek nonce blockCounter, bufleft := 0 }

/-- At most `size` bytes of the buffered block that are still unused. -/
def reuse (c : ChaCha20) (size : Nat) : Bytes × ChaCha20 :=
  let reuse := min c.bufleft size
  ((c.buffer.drop (blockLen - c.bufleft)).take reuse,
    { c with bufleft := c.bufleft - reuse })

/-- `Keystream` once the buffered block is used up: whole blocks, then
the head of one more block, which is buffered. -/
def keystreamFresh (c : ChaCha20) (size : Nat) :
    Checked (Bytes × ChaCha20) := do
  let whole := size / blockLen * blockLen
  let (out, aligned) ← c.aligned.keystream whole
  let c := { c with aligned }
  let size := size - whole
  if size = 0 then return (out, c)
  let (buffer, aligned) ← c.aligned.keystream blockLen
  return (out ++ buffer.take size,
    { aligned, buffer, bufleft := blockLen - size })

/-- `Keystream` into a span of `size` bytes. -/
def keystream (c : ChaCha20) (size : Nat) : Checked (Bytes × ChaCha20) :=
  if size = 0 then .ok ([], c)
  else do
    let (fst, c) := c.reuse size
    let (rest, c) ← c.keystreamFresh (size - fst.length)
    return (fst ++ rest, c)

/-- `Crypt` once the buffered block is used up. -/
def cryptFresh (c : ChaCha20) (input : Bytes) :
    Checked (Bytes × ChaCha20) := do
  let whole := input.length / blockLen * blockLen
  let (out, aligned) ← c.aligned.crypt (input.take whole)
  let c := { c with aligned }
  let input := input.drop whole
  if input.length = 0 then return (out, c)
  let (buffer, aligned) ← c.aligned.keystream blockLen
  return (out ++ xor input (buffer.take input.length),
    { aligned, buffer, bufleft := blockLen - input.length })

/-- `Crypt` into a span of `outSize` bytes. -/
def crypt (c : ChaCha20) (input : Bytes) (outSize : Nat) :
    Checked (Bytes × ChaCha20) := do
  require (input.length = outSize) .cryptSize
  if input.length = 0 then return ([], c)
  let (ks, c) := c.reuse input.length
  let (rest, c) ← c.cryptFresh (input.drop ks.length)
  return (xor input ks ++ rest, c)

-- -------------------------------------------- en- and deciphering is XOR

/-- A whole number of blocks is never refused. -/
theorem aligned_keystream (c : ChaCha20Aligned) (n : Nat) :
    c.keystream (n * blockLen) = .ok (c.keystreamBlocks n) := by
  unfold ChaCha20Aligned.keystream
  have hdiv : n * blockLen / blockLen = n :=
    Nat.mul_div_cancel n (by decide)
  simp only [hdiv]
  rw [require_of trivial]
  rfl

theorem aligned_crypt (c : ChaCha20Aligned) {n : Nat} {m : Bytes}
    (hm : m.length = n * blockLen) :
    c.crypt m = .ok (xor m (c.keystreamBlocks n).1,
      (c.keystreamBlocks n).2) := by
  unfold ChaCha20Aligned.crypt
  have hdiv : m.length / blockLen = n := by
    rw [hm]
    exact Nat.mul_div_cancel n (by decide)
  simp only [hdiv]
  rw [require_of hm.symm]
  show Except.ok (c.cryptBlocks n m) = _
  rw [ChaCha20Aligned.cryptBlocks_eq n c hm]

theorem cryptFresh_eq (c : ChaCha20) (m : Bytes) :
    c.cryptFresh m = do
      let (ks, c) ← c.keystreamFresh m.length
      return (xor m ks, c) := by
  have hwhole : (m.take (m.length / blockLen * blockLen)).length
      = m.length / blockLen * blockLen :=
    List.length_take_of_le (Nat.div_mul_le_self _ _)
  have hks : (c.aligned.keystreamBlocks (m.length / blockLen)).1.length
      = m.length / blockLen * blockLen := by
    rw [ChaCha20Aligned.keystreamBlocks_eq, segment_length]
  have hxor := xor_take_left m
    (c.aligned.keystreamBlocks (m.length / blockLen)).1
  rw [hks] at hxor
  unfold cryptFresh keystreamFresh
  simp only [aligned_keystream, aligned_crypt _ hwhole, ok_bind,
    List.length_drop, hxor]
  by_cases hrest : m.length - m.length / blockLen * blockLen = 0
  · rw [if_pos hrest, if_pos hrest]
    rfl
  · rw [if_neg hrest, if_neg hrest]
    have hone := aligned_keystream
      (c.aligned.keystreamBlocks (m.length / blockLen)).2 1
    rw [Nat.one_mul] at hone
    rw [hone]
    simp only [ok_bind, pure_bind]
    rw [xor_append_right (by rw [hks]; exact Nat.div_mul_le_self _ _), hks]

theorem reuse_length_le (c : ChaCha20) (n : Nat) :
    (c.reuse n).1.length ≤ n := by
  simp only [reuse, List.length_take]
  omega

/-- `Crypt` is `Keystream` and an XOR. -/
theorem crypt_eq (c : ChaCha20) (m : Bytes) :
    c.crypt m m.length = do
      let (ks, c) ← c.keystream m.length
      return (xor m ks, c) := by
  unfold crypt keystream
  rw [require_of rfl, ok_bind]
  by_cases hm : m.length = 0
  · rw [if_pos hm, if_pos hm, List.length_eq_zero_iff.mp hm]
    rfl
  · rw [if_neg hm, if_neg hm]
    have hle := reuse_length_le c m.length
    cases hreuse : c.reuse m.length with
    | mk ks c₁ =>
    rw [hreuse] at hle
    simp only [cryptFresh_eq, List.length_drop]
    cases c₁.keystreamFresh (m.length - ks.length) with
    | error v => rfl
    | ok out =>
        obtain ⟨rest, c₂⟩ := out
        simp only [ok_bind, pure_bind]
        rw [xor_append_right hle]

-- ------------------------------------------------ the position invariant

open ChaCha20Aligned (generator)

/-- The object stands at byte `pos` of the stream from `s`: the aligned
cipher is at the end of a block, and the unused part of the buffer
reaches from `pos` to there. -/
structure At (c : ChaCha20) (s : ChaCha20Aligned) (pos : Nat) : Prop where
  bufleft_lt : c.bufleft < 64
  buffer_length : c.buffer.length = 64
  aligned : ∃ k, c.aligned = ChaCha20Aligned.next^[k] s
    ∧ pos + c.bufleft = k * 64
  unused : c.buffer.drop (64 - c.bufleft)
    = segment generator s pos c.bufleft

/-- A seek goes to the start of the stream of the new state. -/
theorem at_seek {c : ChaCha20} (h : c.buffer.length = 64)
    (nonce : Nonce96) (ctr : UInt32) :
    At (c.seek nonce ctr) (c.aligned.seek nonce ctr) 0 := by
  refine ⟨Nat.zero_lt_succ _, h, ⟨0, rfl, rfl⟩, ?_⟩
  show c.buffer.drop 64 = []
  rw [← h, List.drop_length]

/-- The stream from the next state is the same stream, 64 bytes
further. -/
theorem At.of_next {c : ChaCha20} {s : ChaCha20Aligned} {pos : Nat}
    (h : At c s.next pos) : At c s (pos + 64) := by
  obtain ⟨k, hk, hpos⟩ := h.aligned
  refine ⟨h.bufleft_lt, h.buffer_length, ⟨k + 1, hk, by omega⟩, ?_⟩
  have hseg := segment_iterate generator s 1 pos c.bufleft
  rw [Nat.one_mul] at hseg
  exact h.unused.trans hseg

/-- Reusing the buffered block outputs the next bytes of the stream and
moves past them. -/
theorem reuse_spec {c : ChaCha20} {s : ChaCha20Aligned} {pos : Nat}
    (h : At c s pos) (n : Nat) :
    ∃ c', c.reuse n = (segment generator s pos (min c.bufleft n), c')
      ∧ At c' s (pos + min c.bufleft n)
      ∧ c'.bufleft = c.bufleft - min c.bufleft n := by
  have hle : min c.bufleft n ≤ c.bufleft := Nat.min_le_left _ _
  have hlt := h.bufleft_lt
  obtain ⟨k, hk, hpos⟩ := h.aligned
  refine ⟨{ c with bufleft := c.bufleft - min c.bufleft n }, ?_,
    ⟨?_, h.buffer_length, ⟨k, hk, ?_⟩, ?_⟩, rfl⟩
  · show ((c.buffer.drop (64 - c.bufleft)).take _, _) = _
    rw [h.unused, segment_take _ _ _ hle]
  · show c.bufleft - min c.bufleft n < 64
    omega
  · show pos + min c.bufleft n + (c.bufleft - min c.bufleft n) = k * 64
    omega
  · show c.buffer.drop (64 - (c.bufleft - min c.bufleft n)) = segment
      generator s (pos + min c.bufleft n) (c.bufleft - min c.bufleft n)
    have hdrop := List.drop_drop (i := min c.bufleft n)
      (j := 64 - c.bufleft) (l := c.buffer)
    rw [h.unused, segment_drop _ _ _ hle] at hdrop
    rw [hdrop]
    congr 1
    omega

/-- The blocks of an aligned cipher `k` blocks into a stream. -/
theorem keystreamBlocks_spec {c s : ChaCha20Aligned} {k : Nat}
    (h : c = ChaCha20Aligned.next^[k] s) (n : Nat) :
    c.keystreamBlocks n = (segment generator s (k * 64) (n * 64),
      ChaCha20Aligned.next^[k + n] s) := by
  have hseg := segment_iterate generator s k 0 (n * 64)
  rw [Nat.zero_add] at hseg
  rw [ChaCha20Aligned.keystreamBlocks_eq, h, Nat.add_comm k n,
    Function.iterate_add_apply]
  exact congrArg (·, _) hseg

/-- Past the buffered block, the next bytes are those of the next
blocks. -/
theorem keystreamFresh_spec {c : ChaCha20} {s : ChaCha20Aligned}
    {pos : Nat} (h : At c s pos) {n : Nat} (hn : c.bufleft = 0 ∨ n = 0) :
    ∃ c', c.keystreamFresh n = .ok (segment generator s pos n, c')
      ∧ At c' s (pos + n) := by
  obtain ⟨k, hk, hpos⟩ := h.aligned
  by_cases hzero : n = 0
  · refine ⟨c, ?_, ?_⟩
    · rw [hzero]
      rfl
    · rwa [hzero]
  · have hleft : c.bufleft = 0 := hn.resolve_right hzero
    have hstart : pos = k * 64 := by omega
    have hsplit : n / 64 * 64 + n % 64 = n := Nat.div_add_mod' n 64
    have hwhole := keystreamBlocks_spec hk (n / 64)
    rw [← hstart] at hwhole
    unfold keystreamFresh
    simp only [aligned_keystream, ok_bind]
    by_cases hrest : n - n / blockLen * blockLen = 0
    · have hn' : n / 64 * 64 = n := by
        have hrest' : n - n / 64 * 64 = 0 := hrest
        omega
      rw [if_pos hrest]
      refine ⟨{ c with aligned := ChaCha20Aligned.next^[k + n / 64] s },
        ?_, ⟨h.bufleft_lt, h.buffer_length, ⟨_, rfl, ?_⟩, ?_⟩⟩
      · show Except.ok ((c.aligned.keystreamBlocks (n / 64)).1,
          { c with aligned := (c.aligned.keystreamBlocks (n / 64)).2 }) = _
        rw [hwhole, hn']
      · show pos + n + c.bufleft = (k + n / 64) * 64
        omega
      · show c.buffer.drop (64 - c.bufleft) = segment _ _ _ c.bufleft
        rw [h.unused, hleft]
        rfl
    · have hpart : ¬n - n / 64 * 64 = 0 := hrest
      rw [if_neg hrest]
      have hone := keystreamBlocks_spec
        (congrArg Prod.snd hwhole : _ = ChaCha20Aligned.next^[_] s) 1
      have hblock := aligned_keystream
        (c.aligned.keystreamBlocks (n / 64)).2 1
      have hsize : n - n / blockLen * blockLen = n % 64 := by
        show n - n / 64 * 64 = n % 64
        omega
      have hlt : n % 64 < 64 := Nat.mod_lt n (by decide)
      have hend : (k + n / 64) * 64 = pos + n / 64 * 64 := by omega
      rw [hone, Nat.one_mul, hend] at hblock
      rw [show blockLen = 64 from rfl] at hblock hsize ⊢
      refine ⟨{
        aligned := ChaCha20Aligned.next^[k + n / 64 + 1] s
        buffer := segment generator s (pos + n / 64 * 64) 64
        bufleft := 64 - n % 64 }, ?_, ⟨?_, segment_length _ _ _ _,
          ⟨_, rfl, ?_⟩, ?_⟩⟩
      · rw [hblock, ok_bind, hsize, hwhole, segment_take _ _ _ hlt.le,
          ← segment_append, hsplit]
        rfl
      · show 64 - n % 64 < 64
        omega
      · show pos + n + (64 - n % 64) = (k + n / 64 + 1) * 64
        omega
      · show (segment generator s (pos + n / 64 * 64) 64).drop
          (64 - (64 - n % 64)) = segment generator s (pos + n) (64 - n % 64)
        rw [Nat.sub_sub_self hlt.le, segment_drop _ _ _ hlt.le,
          Nat.add_assoc, hsplit]

/-- `Keystream` outputs the next bytes of the stream and moves past
them. -/
theorem keystream_spec {c : ChaCha20} {s : ChaCha20Aligned} {pos : Nat}
    (h : At c s pos) (n : Nat) :
    ∃ c', c.keystream n = .ok (segment generator s pos n, c')
      ∧ At c' s (pos + n) := by
  unfold keystream
  by_cases hn : n = 0
  · rw [if_pos hn, hn]
    exact ⟨c, rfl, h⟩
  · rw [if_neg hn]
    obtain ⟨c₁, hreuse, hat, hleft⟩ := reuse_spec h n
    have hfresh : c₁.bufleft = 0 ∨ n - min c.bufleft n = 0 := by
      rw [hleft]
      omega
    have hsum : min c.bufleft n + (n - min c.bufleft n) = n := by omega
    obtain ⟨c', hrest, hat'⟩ := keystreamFresh_spec hat hfresh
    refine ⟨c', ?_, ?_⟩
    · simp only [hreuse, segment_length, hrest, ok_bind]
      rw [← segment_append, hsum]
      rfl
    · rwa [Nat.add_assoc, hsum] at hat'

/-- `Crypt` XORs the next bytes of the stream and moves past them. -/
theorem crypt_spec {c : ChaCha20} {s : ChaCha20Aligned} {pos : Nat}
    (h : At c s pos) (m : Bytes) :
    ∃ c', c.crypt m m.length
        = .ok (xor m (segment generator s pos m.length), c')
      ∧ At c' s (pos + m.length) := by
  obtain ⟨c', hks, hat⟩ := keystream_spec h m.length
  refine ⟨c', ?_, hat⟩
  rw [crypt_eq, hks]
  rfl

end ChaCha20

end Remc.Crypto
