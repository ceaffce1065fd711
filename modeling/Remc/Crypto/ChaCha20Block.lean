/-
The aligned cipher is the block function of RFC 8439, block after block.

The source unrolls the rounds on sixteen variables; `matrix` reads them as
the matrix of `ChaCha`, row by row, and a turn of `REPEAT10` is a column
round and a diagonal round there (`doubleRound_matrix`). The counter with
its carry into the first nonce word is one 64-bit counter: `n` blocks after
a `Seek` the object is where a `Seek` to the counter `n` further leads
(`iterate_next_seek`).
-/
import Mathlib.Tactic.IntervalCases
import Remc.Crypto.ChaCha20
import Remc.Lib.ChaCha

namespace Remc.Crypto

open Keystream

-- ================================================================== rounds

/-- `std::rotl` by less than a word. -/
theorem rotl_eq (x : UInt32) {n : Nat} (hpos : 0 < n) (hn : n < 32) :
    rotl x (UInt32.ofNat n) = ChaCha.rotl x n := by
  have hright : (4294967296 - n % 4294967296) % 32 = 32 - n % 32 := by omega
  apply UInt32.toBitVec_inj.mp
  show (rotl x (UInt32.ofNat n)).toBitVec = x.toBitVec.rotateLeft n
  rw [BitVec.rotateLeft_def, ← hright]
  simp [rotl]

/-- The variable `i` set. -/
def put {n : Nat} (x : Vector UInt32 n) (i : Fin n) (v : UInt32) :
    Vector UInt32 n := x.set i v i.isLt

theorem put_get {n : Nat} (x : Vector UInt32 n) (i k : Fin n) (v : UInt32) :
    (put x i v).get k = if i = k then v else x.get k := by
  have hval : (i : Nat) = k ↔ i = k := Fin.val_inj
  show (x.set i v i.isLt)[(k : Nat)] = if i = k then v else x[(k : Nat)]
  simp only [Vector.getElem_set, hval]

/-- Half a line of `QUARTERROUND`: `a += b; d = rotl(d ^ a, n)`. -/
def addXorRotate (a b d : Fin 16) (n : UInt32) (x : Vector UInt32 16) :
    Vector UInt32 16 :=
  let x := put x a (x.get a + x.get b)
  put x d (rotl (x.get d ^^^ x.get a) n)

theorem quarterRound_eq_halves (a b c d : Fin 16) (x : Vector UInt32 16) :
    quarterRound a b c d x
      = addXorRotate c d b 7 (addXorRotate a b d 8
          (addXorRotate c d b 12 (addXorRotate a b d 16 x))) := rfl

/-- It writes two variables and leaves the others. -/
theorem addXorRotate_get {a d : Fin 16} (b : Fin 16) (x : Vector UInt32 16)
    {n : Nat} (hn : 0 < n ∧ n < 32) (had : a ≠ d) (k : Fin 16) :
    (addXorRotate a b d (UInt32.ofNat n) x).get k
      = if k = d then ChaCha.rotl (x.get d ^^^ (x.get a + x.get b)) n
        else if k = a then x.get a + x.get b else x.get k := by
  simp only [addXorRotate, put_get, had, if_true, if_false,
    rotl_eq _ hn.1 hn.2, eq_comm]

def column (x : Vector UInt32 16) (a b c d : Fin 16) : ChaCha.Column :=
  ⟨x.get a, x.get b, x.get c, x.get d⟩

-- for the indices of 4, 12 and 16 words that are written as numbers
local instance neZero4 : NeZero 4 := ⟨by omega⟩

local instance neZero12 : NeZero 12 := ⟨by omega⟩

local instance neZero16 : NeZero 16 := ⟨by omega⟩

/-- The sixteen variables as a matrix, row by row. -/
def matrix (x : Vector UInt32 16) : ChaCha.State where
  c0 := column x 0 4 8 12
  c1 := column x 1 5 9 13
  c2 := column x 2 6 10 14
  c3 := column x 3 7 11 15

/-- `QUARTERROUND` writes the quarter round of its four variables and leaves
the others. -/
theorem quarterRound_get {a b c d : Fin 16} (x : Vector UInt32 16)
    (h : [a, b, c, d].Nodup) (k : Fin 16) :
    (quarterRound a b c d x).get k
      = if k = a then (ChaCha.quarterRound (column x a b c d)).a
        else if k = b then (ChaCha.quarterRound (column x a b c d)).b
        else if k = c then (ChaCha.quarterRound (column x a b c d)).c
        else if k = d then (ChaCha.quarterRound (column x a b c d)).d
        else x.get k := by
  simp only [List.nodup_cons, List.mem_cons, List.not_mem_nil, or_false,
    not_or] at h
  obtain ⟨⟨hab, hac, had⟩, ⟨hbc, hbd⟩, hcd, -⟩ := h
  have g16 := fun x => addXorRotate_get b x (n := 16) (by decide) had
  have g12 := fun x => addXorRotate_get d x (n := 12) (by decide) (Ne.symm hbc)
  have g8 := fun x => addXorRotate_get b x (n := 8) (by decide) had
  have g7 := fun x => addXorRotate_get d x (n := 7) (by decide) (Ne.symm hbc)
  have hba := Ne.symm hab
  have hca := Ne.symm hac
  have hda := Ne.symm had
  have hcb := Ne.symm hbc
  have hdb := Ne.symm hbd
  have hdc := Ne.symm hcd
  let y := addXorRotate c d b (UInt32.ofNat 7) (addXorRotate a b d
    (UInt32.ofNat 8) (addXorRotate c d b (UInt32.ofNat 12)
      (addXorRotate a b d (UInt32.ofNat 16) x)))
  have hy : quarterRound a b c d x = y := quarterRound_eq_halves a b c d x
  have hvalues : y.get a = (ChaCha.quarterRound (column x a b c d)).a
      ∧ y.get b = (ChaCha.quarterRound (column x a b c d)).b
      ∧ y.get c = (ChaCha.quarterRound (column x a b c d)).c
      ∧ y.get d = (ChaCha.quarterRound (column x a b c d)).d := by
    refine ⟨?_, ?_, ?_, ?_⟩ <;>
      simp only [y, g16, g12, g8, g7, hab, hac, had, hbc, hbd, hcd, hba, hca,
        hda, hcb, hdb, hdc, if_true, if_false, ChaCha.quarterRound, column]
  rw [hy]
  by_cases ka : k = a
  · rw [if_pos ka, ka, hvalues.1]
  · by_cases kb : k = b
    · rw [if_neg ka, if_pos kb, kb, hvalues.2.1]
    · by_cases kc : k = c
      · rw [if_neg ka, if_neg kb, if_pos kc, kc, hvalues.2.2.1]
      · by_cases kd : k = d
        · rw [if_neg ka, if_neg kb, if_neg kc, if_pos kd, kd, hvalues.2.2.2]
        · rw [if_neg ka, if_neg kb, if_neg kc, if_neg kd]
          simp only [y, g16, g12, g8, g7, ka, kb, kc, kd, if_false]

/-- The first half of a turn of `REPEAT10`. -/
def columnQuarters (x : Vector UInt32 16) : Vector UInt32 16 :=
  quarterRound 3 7 11 15 (quarterRound 2 6 10 14 (quarterRound 1 5 9 13
    (quarterRound 0 4 8 12 x)))

/-- The second half. -/
def diagonalQuarters (x : Vector UInt32 16) : Vector UInt32 16 :=
  quarterRound 3 4 9 14 (quarterRound 2 7 8 13 (quarterRound 1 6 11 12
    (quarterRound 0 5 10 15 x)))

theorem columnQuarters_matrix (x : Vector UInt32 16) :
    matrix (columnQuarters x) = ChaCha.columnRound (matrix x) := by
  have g0 := fun x => quarterRound_get (a := 0) (b := 4) (c := 8) (d := 12) x
    (by decide)
  have g1 := fun x => quarterRound_get (a := 1) (b := 5) (c := 9) (d := 13) x
    (by decide)
  have g2 := fun x => quarterRound_get (a := 2) (b := 6) (c := 10) (d := 14) x
    (by decide)
  have g3 := fun x => quarterRound_get (a := 3) (b := 7) (c := 11) (d := 15) x
    (by decide)
  simp only [columnQuarters, matrix, column, g3, g2, g1, g0, Fin.reduceEq,
    if_true, if_false]
  rfl

theorem diagonalQuarters_matrix (x : Vector UInt32 16) :
    matrix (diagonalQuarters x) = ChaCha.diagonalRound (matrix x) := by
  have g0 := fun x => quarterRound_get (a := 0) (b := 5) (c := 10) (d := 15) x
    (by decide)
  have g1 := fun x => quarterRound_get (a := 1) (b := 6) (c := 11) (d := 12) x
    (by decide)
  have g2 := fun x => quarterRound_get (a := 2) (b := 7) (c := 8) (d := 13) x
    (by decide)
  have g3 := fun x => quarterRound_get (a := 3) (b := 4) (c := 9) (d := 14) x
    (by decide)
  simp only [diagonalQuarters, matrix, column, g3, g2, g1, g0, Fin.reduceEq,
    if_true, if_false]
  rfl

/-- A turn of `REPEAT10`. -/
theorem doubleRound_matrix (x : Vector UInt32 16) :
    matrix (doubleRound x)
      = ChaCha.diagonalRound (ChaCha.columnRound (matrix x)) := by
  have hhalves : doubleRound x = diagonalQuarters (columnQuarters x) := rfl
  rw [hhalves, diagonalQuarters_matrix, columnQuarters_matrix]

theorem rounds_matrix (n : Nat) (x : Vector UInt32 16) :
    matrix (rounds n x)
      = (fun s => ChaCha.diagonalRound (ChaCha.columnRound s))^[n]
          (matrix x) := by
  induction n generalizing x with
  | zero => rfl
  | succ n ih =>
      rw [rounds, ih, doubleRound_matrix, Function.iterate_succ_apply]

-- =================================================================== blocks

theorem matrix_add (x y : Vector UInt32 16) :
    matrix (x.zipWith (· + ·) y) = (matrix x).add (matrix y) := by
  have hget : ∀ k : Fin 16, (x.zipWith (· + ·) y).get k = x.get k + y.get k :=
    fun k => Vector.getElem_zipWith k.isLt
  simp only [matrix, column, hget]
  rfl

theorem matrix_words (x : Vector UInt32 16) : x.toList = (matrix x).words := by
  apply List.ext_getElem
  · rw [Vector.length_toList]
    rfl
  · intro i hi _
    rw [Vector.length_toList] at hi
    rw [Vector.getElem_toList]
    interval_cases i <;> rfl

/-- Constants over an input, as a matrix. -/
theorem matrix_append (k : Vector UInt32 4) (v : Vector UInt32 12) :
    matrix (k ++ v)
      = ⟨⟨k.get 0, v.get 0, v.get 4, v.get 8⟩,
          ⟨k.get 1, v.get 1, v.get 5, v.get 9⟩,
          ⟨k.get 2, v.get 2, v.get 6, v.get 10⟩,
          ⟨k.get 3, v.get 3, v.get 7, v.get 11⟩⟩ := by
  have hlow : ∀ i : Fin 4, (k ++ v)[(i : Nat)] = k.get i :=
    fun i => Vector.getElem_append_left i.isLt
  have hhigh : ∀ i : Fin 12, (k ++ v)[4 + (i : Nat)] = v.get i := by
    intro i
    have hlt : 4 + (i : Nat) < 4 + 12 := by omega
    have hge : 4 ≤ 4 + (i : Nat) := Nat.le_add_right _ _
    have h : (k ++ v)[4 + (i : Nat)] = v[4 + (i : Nat) - 4] :=
      Vector.getElem_append_right hlt hge
    simp only [h, Nat.add_sub_cancel_left]
    rfl
  have hcolumn : ∀ (i : Fin 4) (j l m : Fin 12),
      (⟨(k ++ v)[(i : Nat)], (k ++ v)[4 + (j : Nat)], (k ++ v)[4 + (l : Nat)],
        (k ++ v)[4 + (m : Nat)]⟩ : ChaCha.Column)
        = ⟨k.get i, v.get j, v.get l, v.get m⟩ := by
    intro i j l m
    rw [hlow, hhigh, hhigh, hhigh]
  have h0 := hcolumn 0 0 4 8
  have h1 := hcolumn 1 1 5 9
  have h2 := hcolumn 2 2 6 10
  have h3 := hcolumn 3 3 7 11
  unfold matrix
  congr 1

/-- The nonce as words. -/
def Nonce96.words (nonce : Nonce96) : ChaCha.Nonce :=
  ⟨nonce.first, nonce.second.toUInt32, (nonce.second >>> 32).toUInt32⟩

namespace ChaCha20Aligned

theorem seek_keyed_input (key : Bytes) (nonce : Nonce96) (ctr : UInt32) :
    ((keyed key).seek nonce ctr).input
      = #v[readLE32 key 0, readLE32 key 4, readLE32 key 8, readLE32 key 12,
          readLE32 key 16, readLE32 key 20, readLE32 key 24, readLE32 key 28,
          ctr, nonce.first, nonce.second.toUInt32,
          (nonce.second >>> 32).toUInt32] := rfl

theorem initial_matrix (key : Bytes) (nonce : Nonce96) (ctr : UInt32) :
    matrix ((keyed key).seek nonce ctr).initial
      = ChaCha.initial key ctr nonce.words := by
  rw [initial, seek_keyed_input, matrix_append]
  rfl

/-- What one turn of the loop writes is the block function's block. -/
theorem block_eq (key : Bytes) (nonce : Nonce96) (ctr : UInt32) :
    generator.block ((keyed key).seek nonce ctr)
      = ChaCha.block key ctr nonce.words := by
  show serialize ((keyed key).seek nonce ctr).words.toList = _
  rw [matrix_words, words, matrix_add, rounds_matrix, initial_matrix]
  rfl

-- ================================================================== counter

/-- A block on, the counter is one further, or the first word of the nonce
takes its carry. -/
theorem next_seek (c : ChaCha20Aligned) (nonce : Nonce96) (ctr : UInt32) :
    (c.seek nonce ctr).next
      = c.seek { nonce with
          first := if ctr + 1 = 0 then nonce.first + 1 else nonce.first }
          (ctr + 1) := by
  have hctr : (c.seek nonce ctr).input[8] = ctr := by simp [seek]
  simp only [next]
  rw [hctr]
  by_cases h : ctr + 1 = 0
  · rw [if_pos h, if_pos h]
    unfold seek
    congr 1
    apply Vector.ext
    intro i hi
    simp only [Vector.getElem_set]
    grind
  · rw [if_neg h, if_neg h]
    unfold seek
    congr 1
    apply Vector.ext
    intro i hi
    simp only [Vector.getElem_set]
    grind

/-- The nonce `n` blocks after the counter `ctr`. -/
def advanced (nonce : Nonce96) (ctr : UInt32) (n : Nat) : Nonce96 :=
  { nonce with first := nonce.first + UInt32.ofNat ((ctr.toNat + n) / 2 ^ 32) }

/-- A further block carries where the counter wraps. -/
theorem advanced_succ (nonce : Nonce96) (ctr : UInt32) (n : Nat) :
    advanced nonce ctr (n + 1)
      = { advanced nonce ctr n with
          first := if UInt32.ofNat (ctr.toNat + n) + 1 = 0
            then (advanced nonce ctr n).first + 1
            else (advanced nonce ctr n).first } := by
  let t := ctr.toNat + n
  have hwrap : UInt32.ofNat t + 1 = 0 ↔ (t + 1) % 2 ^ 32 = 0 := by
    have hsucc : UInt32.ofNat t + 1 = UInt32.ofNat (t + 1) :=
      (UInt32.ofNat_add t 1).symm
    rw [hsucc, ← UInt32.toNat_inj, UInt32.toNat_ofNat']
    rfl
  have hfirst : nonce.first + UInt32.ofNat ((t + 1) / 2 ^ 32)
      = if UInt32.ofNat t + 1 = 0
        then nonce.first + UInt32.ofNat (t / 2 ^ 32) + 1
        else nonce.first + UInt32.ofNat (t / 2 ^ 32) := by
    by_cases h : (t + 1) % 2 ^ 32 = 0
    · have hdiv : (t + 1) / 2 ^ 32 = t / 2 ^ 32 + 1 := by omega
      rw [if_pos (hwrap.mpr h), hdiv, UInt32.ofNat_add, UInt32.add_assoc]
      rfl
    · have hdiv : (t + 1) / 2 ^ 32 = t / 2 ^ 32 := by omega
      rw [if_neg (mt hwrap.mp h), hdiv]
  exact congrArg (Nonce96.mk · nonce.second) hfirst

/-- `n` blocks on, the counter is `n` further and what it carries is in the
first word of the nonce. -/
theorem iterate_next_seek (c : ChaCha20Aligned) (nonce : Nonce96)
    (ctr : UInt32) (n : Nat) :
    next^[n] (c.seek nonce ctr)
      = c.seek (advanced nonce ctr n) (UInt32.ofNat (ctr.toNat + n)) := by
  induction n with
  | zero =>
      have hlt := ctr.toNat_lt
      have hzero : (ctr.toNat + 0) / 2 ^ 32 = 0 := by omega
      rw [Function.iterate_zero_apply, advanced, hzero, Nat.add_zero,
        UInt32.ofNat_toNat]
      simp
  | succ n ih =>
      have hsucc : UInt32.ofNat (ctr.toNat + n) + 1
          = UInt32.ofNat (ctr.toNat + (n + 1)) :=
        (UInt32.ofNat_add (ctr.toNat + n) 1).symm
      rw [Function.iterate_succ_apply', ih, next_seek, advanced_succ, hsucc]

/-- Block `i` after a seek is block `i` of the stream. -/
theorem block_iterate (key : Bytes) (nonce : Nonce96) (ctr : UInt32) (i : Nat) :
    generator.block (next^[i] ((keyed key).seek nonce ctr))
      = ChaCha.blockAt key nonce.words ctr i := by
  rw [iterate_next_seek, block_eq]
  rfl

/-- The stream of a seeked cipher is the stream of the block function. -/
theorem segment_eq (key : Bytes) (nonce : Nonce96) (ctr : UInt32) (off n : Nat) :
    segment generator ((keyed key).seek nonce ctr) off n
      = ChaCha.keystream key nonce.words ctr off n := by
  unfold Keystream.segment ChaCha.keystream
  apply List.map_congr_left
  intro i _
  show (generator.block (next^[i / 64] _)).getD (i % 64) 0 = _
  rw [block_iterate]

/-- `Keystream` on whole blocks. -/
theorem keystream_eq (c : ChaCha20Aligned) (n : Nat) :
    c.keystream (64 * n) = .ok (segment generator c 0 (n * 64), next^[n] c) := by
  rw [Nat.mul_comm, ← keystreamBlocks_eq]
  exact ChaCha20.aligned_keystream c n

/-- `Keystream` on whole blocks after a seek. -/
theorem keystream_seek (key : Bytes) (nonce : Nonce96) (ctr : UInt32) (n : Nat) :
    ((keyed key).seek nonce ctr).keystream (64 * n)
      = .ok ((List.range n).flatMap (ChaCha.blockAt key nonce.words ctr),
          (keyed key).seek (advanced nonce ctr n)
            (UInt32.ofNat (ctr.toNat + n))) := by
  have hblocks : segment generator ((keyed key).seek nonce ctr) 0 (n * 64)
      = (List.range n).flatMap (ChaCha.blockAt key nonce.words ctr) := by
    refine (blocks_eq_segment generator n _).symm.trans ?_
    rw [blocks_eq_flatMap]
    exact List.flatMap_congr fun i _ => block_iterate key nonce ctr i
  rw [keystream_eq, iterate_next_seek, hblocks]

/-- Two calls in a row are one call. -/
theorem keystream_twice (c : ChaCha20Aligned) (n m : Nat) :
    ∃ out₁ c₁ out₂ c₂, c.keystream (64 * n) = .ok (out₁, c₁)
      ∧ c₁.keystream (64 * m) = .ok (out₂, c₂)
      ∧ c.keystream (64 * (n + m)) = .ok (out₁ ++ out₂, c₂) := by
  refine ⟨_, _, _, _, keystream_eq c n, keystream_eq (next^[n] c) m, ?_⟩
  have hsecond := segment_iterate generator c n 0 (m * 64)
  have hstate : next^[n + m] c = next^[m] (next^[n] c) := by
    rw [Nat.add_comm, Function.iterate_add_apply]
  rw [Nat.zero_add] at hsecond
  rw [keystream_eq, hstate, Nat.add_mul, segment_append, Nat.zero_add]
  exact congrArg (fun out => Except.ok (_ ++ out, _)) hsecond.symm

/-- The aligned cipher after `SetKey` and `Seek`: its blocks are those of the
block function with a 64-bit counter, however many calls they take, and
`Crypt` is XOR with them. -/
theorem aligned_rfc8439 {key : Bytes} (hkey : key.length = 32)
    (nonce : Nonce96) (ctr : UInt32) :
    ∃ c, setKey key = .ok c
      ∧ (∀ n, (c.seek nonce ctr).keystream (64 * n)
          = .ok ((List.range n).flatMap (ChaCha.blockAt key nonce.words ctr),
              c.seek (advanced nonce ctr n) (UInt32.ofNat (ctr.toNat + n))))
      ∧ (∀ n m, ∃ out₁ c₁ out₂ c₂,
          (c.seek nonce ctr).keystream (64 * n) = .ok (out₁, c₁)
            ∧ c₁.keystream (64 * m) = .ok (out₂, c₂)
            ∧ (c.seek nonce ctr).keystream (64 * (n + m))
                = .ok (out₁ ++ out₂, c₂))
      ∧ (∀ (n : Nat) (input : Bytes), input.length = 64 * n → ∃ ks c',
          (c.seek nonce ctr).keystream (64 * n) = .ok (ks, c')
            ∧ (c.seek nonce ctr).crypt input = .ok (xor input ks, c')) := by
  refine ⟨keyed key, ?_, keystream_seek key nonce ctr, keystream_twice _, ?_⟩
  · unfold setKey
    rw [require_of hkey]
    rfl
  · intro n input hin
    rw [Nat.mul_comm] at hin ⊢
    exact ⟨_, _, ChaCha20.aligned_keystream _ n, ChaCha20.aligned_crypt _ hin⟩

/-- Two blocks from the last counter on: the second one has counter 0 and
the nonce has taken the carry. -/
theorem aligned_rfc8439_wrap :
    ∃ c, setKey (List.replicate 32 7) = .ok c
      ∧ (c.seek ⟨5, 9⟩ 0xffffffff).keystream (64 * 2)
        = .ok ((List.range 2).flatMap
            (ChaCha.blockAt (List.replicate 32 7) ⟨5, 9, 0⟩ 0xffffffff),
            c.seek ⟨6, 9⟩ 1) := by
  have hkey : (List.replicate 32 (7 : UInt8)).length = 32 :=
    List.length_replicate
  obtain ⟨c, hset, hblocks, -⟩ := aligned_rfc8439 hkey ⟨5, 9⟩ 0xffffffff
  exact ⟨c, hset, hblocks 2⟩

end ChaCha20Aligned

end Remc.Crypto
