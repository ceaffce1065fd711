/-
`AEADChaCha20Poly1305` as a whole: what a sequence of calls leaves of an
object is its key, and what `Encrypt` and `Decrypt` compute is the AEAD of
RFC 8439.

`calls_keyed` carries `Keyed` through any sequence of calls, so that stale
stream state of an earlier call never reaches a later one. `sealed_eq` and
`tag_eq` replace the model's own ciphertext and tag by those of `Rfc8439`,
with the block function and the authenticator of the two layers below.
-/
import Remc.Crypto.Aead
import Remc.Crypto.ChaCha20Stream
import Remc.Crypto.Poly1305Mac
import Remc.Lib.Rfc8439

namespace Remc.Crypto

open Keystream

open ChaCha20Aligned (generator)

-- ================================================================== RFC 8439

/-- The one-time key is the head of block 0. -/
theorem oneTimeKey_eq (key : Bytes) (nonce : Nonce96) :
    segment generator (origin key nonce) 0 32
      = Rfc8439.oneTimeKey key nonce.words := by
  have hblock := block_eq_segment generator (origin key nonce)
  have htake := segment_take generator (origin key nonce) 0
    (show 32 ≤ 64 by norm_num)
  rw [Rfc8439.oneTimeKey, ← htake, ← ChaCha20Aligned.block_eq]
  exact congrArg (List.take 32) hblock.symm

/-- The updates of `ComputeTag` are the data of the authenticator. -/
theorem macUpdates_eq (st : Poly1305Context) (aad cipher : Bytes) :
    macUpdates ⟨st⟩ aad cipher
      = [aad, Rfc8439.pad16 aad, cipher, Rfc8439.pad16 cipher,
          writeLE64 (UInt64.ofNat aad.length)
            ++ writeLE64 (UInt64.ofNat cipher.length)].foldl Poly1305.update
          ⟨st⟩ := rfl

/-- A length is written in 8 bytes, modulo 2^64. -/
theorem writeLE64_ofNat (n : Nat) :
    writeLE64 (UInt64.ofNat n) = LittleEndian.toBytes 8 n := by
  rw [writeLE64, UInt64.toNat_ofNat']
  exact LittleEndian.toBytes_mod 8 n

theorem tag_eq (key : Bytes) (nonce : Nonce96) (aad cipher : Bytes) :
    tag key nonce aad cipher = Rfc8439.tag key nonce.words aad cipher := by
  have hdata : [aad, Rfc8439.pad16 aad, cipher, Rfc8439.pad16 cipher,
      writeLE64 (UInt64.ofNat aad.length)
        ++ writeLE64 (UInt64.ofNat cipher.length)].flatten
      = Rfc8439.macData aad cipher := by
    simp [Rfc8439.macData, writeLE64_ofNat]
  rw [tag, macUpdates_eq, Poly1305.foldl_update, oneTimeKey_eq,
    finish_spec (updates_absorbed _ _), hdata, Rfc8439.tag]

/-- Behind its first block, the stream of a nonce is that from block 1 on. -/
theorem segment_block_one (key : Bytes) (nonce : Nonce96) (n : Nat) :
    segment generator (origin key nonce) 64 n
      = ChaCha.keystream key nonce.words 1 0 n := by
  have hnext := segment_iterate generator (origin key nonce) 1 0 n
  have hone : generator.next^[1] (origin key nonce)
      = (ChaCha20Aligned.keyed key).seek nonce 1 :=
    ChaCha20Aligned.next_seek_zero (ChaCha20Aligned.keyed key) nonce
  rw [hone, ChaCha20Aligned.segment_eq] at hnext
  exact hnext.symm

theorem cipherText_eq (key : Bytes) (nonce : Nonce96) (text : Bytes) :
    cipherText key nonce text = Rfc8439.encipher key nonce.words text :=
  congrArg (xor text) (segment_block_one key nonce text.length)

theorem sealed_eq (key : Bytes) (nonce : Nonce96) (aad plain : Bytes) :
    sealed key nonce aad plain = Rfc8439.encrypt key nonce.words aad plain := by
  rw [sealed, tag_eq, cipherText_eq, Rfc8439.encrypt]

-- ==================================================================== calls

namespace Aead

/-- `SetKey`. -/
def setKey (a : Aead) (key : Bytes) : Checked Aead := do
  require (key.length = 32) .keySize
  let chacha20 ← a.chacha20.setKey key
  return { chacha20 }

/-- `Keystream`: the first block is skipped, it keys the authenticator. -/
def keystream (a : Aead) (nonce : Nonce96) (size : Nat) :
    Checked (Bytes × Aead) := do
  let (out, chacha20) ← (a.chacha20.seek nonce 1).keystream size
  return (out, { chacha20 })

/-- A call of a member function, the spans it writes by what they hold
before. -/
inductive Call where
  | setKey (key : Bytes)
  | encrypt (plain1 plain2 aad : Bytes) (nonce : Nonce96)
  | decrypt (cipher aad : Bytes) (nonce : Nonce96) (plain1 plain2 : Bytes)
  | keystream (nonce : Nonce96) (size : Nat)
deriving DecidableEq, Repr

/-- The precondition of a call. -/
def Call.Valid : Call → Prop
  | .setKey key => key.length = 32
  | .decrypt cipher _ _ plain1 plain2 =>
      cipher.length = plain1.length + plain2.length + 16
  | _ => True

/-- The object after a call. -/
def call (a : Aead) : Call → Checked Aead
  | .setKey key => a.setKey key
  | .encrypt plain1 plain2 aad nonce => do
      let (_, a) ← a.encrypt plain1 plain2 aad nonce
        (plain1.length + plain2.length + expansion)
      return a
  | .decrypt cipher aad nonce plain1 plain2 => do
      let (_, _, _, a) ← a.decrypt cipher aad nonce plain1 plain2
      return a
  | .keystream nonce size => do
      let (_, a) ← a.keystream nonce size
      return a

def calls (a : Aead) (ks : List Call) : Checked Aead := ks.foldlM call a

/-- The key after a call. -/
def Call.key (key : Bytes) : Call → Bytes
  | .setKey key' => key'
  | _ => key

/-- The object was built with some key, went through any calls, and `key` is
the last one it was given. -/
def Holds (a : Aead) (key : Bytes) : Prop :=
  ∃ key₀ a₀ ks, key₀.length = 32 ∧ Aead.new key₀ = .ok a₀
    ∧ (∀ k ∈ ks, k.Valid) ∧ a₀.calls ks = .ok a
    ∧ ks.foldl Call.key key₀ = key

variable {a : Aead} {key : Bytes}

theorem setKey_spec (h : Keyed a.chacha20 key) {key' : Bytes}
    (hkey : key'.length = 32) :
    ∃ a', a.setKey key' = .ok a' ∧ Keyed a'.chacha20 key' := by
  refine ⟨⟨⟨ChaCha20Aligned.keyed key',
    List.replicate a.chacha20.buffer.length 0, 0⟩⟩, ?_, ?_, fun _ _ => rfl⟩
  · unfold setKey
    rw [require_of hkey, ok_bind, ChaCha20.setKey_eq _ hkey]
    rfl
  · show (List.replicate a.chacha20.buffer.length (0 : UInt8)).length = 64
    rw [List.length_replicate, h.buffer_length]

/-- `Keystream` outputs the stream from block 1 on. -/
theorem keystream_spec (h : Keyed a.chacha20 key) (nonce : Nonce96)
    (size : Nat) :
    ∃ a', a.keystream nonce size
        = .ok (ChaCha.keystream key nonce.words 1 0 size, a')
      ∧ Keyed a'.chacha20 key := by
  obtain ⟨c', hks, hat⟩ := ChaCha20.keystream_spec (h.at_one nonce) size
  refine ⟨⟨c'⟩, ?_, keyed_of_at hat⟩
  unfold keystream
  rw [hks, segment_block_one]
  rfl

/-- A text as it is opened into two spans. -/
theorem opened_spans {m q1 q2 : Bytes}
    (hsize : q1.length + q2.length = m.length) :
    (m.take q1.length).length = q1.length
      ∧ (m.drop q1.length).length = q2.length
      ∧ m.take q1.length ++ m.drop q1.length = m := by
  refine ⟨?_, ?_, List.take_append_drop _ _⟩
  · rw [List.length_take]
    omega
  · rw [List.length_drop]
    omega

/-- Every call leaves an object that holds the key, or the new one. -/
theorem call_keyed (h : Keyed a.chacha20 key) {k : Call} (hk : k.Valid) :
    ∃ a', a.call k = .ok a' ∧ Keyed a'.chacha20 (k.key key) := by
  cases k with
  | setKey key' => exact setKey_spec h hk
  | encrypt plain1 plain2 aad nonce =>
      obtain ⟨a', hencrypt, h'⟩ := encrypt_spec h plain1 plain2 aad nonce
      refine ⟨a', ?_, h'⟩
      show a.encrypt _ _ _ _ (_ + _ + 16) >>= _ = _
      rw [hencrypt]
      rfl
  | decrypt cipher aad nonce plain1 plain2 =>
      obtain ⟨a', hdecrypt, h'⟩ := decrypt_spec h aad nonce hk
      refine ⟨a', ?_, h'⟩
      show a.decrypt _ _ _ _ _ >>= _ = _
      rw [hdecrypt]
      cases opened key nonce aad cipher <;> rfl
  | keystream nonce size =>
      obtain ⟨a', hks, h'⟩ := keystream_spec h nonce size
      refine ⟨a', ?_, h'⟩
      show a.keystream _ _ >>= _ = _
      rw [hks]
      rfl

theorem calls_keyed (h : Keyed a.chacha20 key) {ks : List Call}
    (hks : ∀ k ∈ ks, k.Valid) :
    ∃ a', a.calls ks = .ok a' ∧ Keyed a'.chacha20 (ks.foldl Call.key key) := by
  induction ks generalizing a key with
  | nil => exact ⟨a, rfl, h⟩
  | cons k ks ih =>
      obtain ⟨a₁, hcall, h₁⟩ := call_keyed h (hks k List.mem_cons_self)
      obtain ⟨a', hcalls, h'⟩ :=
        ih h₁ fun k hk => hks k (List.mem_cons_of_mem _ hk)
      refine ⟨a', ?_, h'⟩
      rw [calls, List.foldlM_cons, hcall, ok_bind]
      exact hcalls

/-- Whatever was done with it, the object holds its key. -/
theorem Holds.keyed (h : Holds a key) : Keyed a.chacha20 key := by
  obtain ⟨key₀, a₀, ks, hkey, hnew, hvalid, hcalls, rfl⟩ := h
  obtain ⟨a₁, hnew₁, hkeyed⟩ := new_eq_ok hkey
  obtain ⟨a', hcalls', h'⟩ := calls_keyed hkeyed hvalid
  rw [hnew₁] at hnew
  cases hnew
  rw [hcalls'] at hcalls
  cases hcalls
  exact h'

-- ================================================================ the results

/-- Whatever was done with the object before, `Encrypt` writes the AEAD of
RFC 8439. -/
theorem encrypt_rfc8439 (h : Holds a key) (plain1 plain2 aad : Bytes)
    (nonce : Nonce96) :
    ∃ a', a.encrypt plain1 plain2 aad nonce
        (plain1.length + plain2.length + expansion)
      = .ok (Rfc8439.encrypt key nonce.words aad (plain1 ++ plain2), a') := by
  obtain ⟨a', hencrypt, -⟩ := encrypt_spec h.keyed plain1 plain2 aad nonce
  rw [sealed_eq] at hencrypt
  exact ⟨a', hencrypt⟩

/-- A new object. -/
theorem encrypt_rfc8439_new :
    ∃ a, Aead.new (List.replicate 32 7) = .ok a
      ∧ ∃ a', a.encrypt [1, 2] [3] [4] ⟨5, 6⟩ 19
        = .ok (Rfc8439.encrypt (List.replicate 32 7) ⟨5, 6, 0⟩ [4] [1, 2, 3],
            a') := by
  have hkey : (List.replicate 32 (7 : UInt8)).length = 32 :=
    List.length_replicate
  obtain ⟨a, hnew, -⟩ := new_eq_ok hkey
  have h : Holds a (List.replicate 32 7) :=
    ⟨_, a, [], rfl, hnew, by simp, rfl, rfl⟩
  exact ⟨a, hnew, encrypt_rfc8439 h [1, 2] [3] [4] ⟨5, 6⟩⟩

/-- Whatever was done with the two objects before: `Decrypt` restores what
`Encrypt` was given, for any two output spans; it accepts exactly the
ciphertexts with the right tag, and leaves the spans of the others alone. -/
theorem decrypt_inverts {b : Aead} (ha : Holds a key) (hb : Holds b key)
    (nonce : Nonce96) (aad p1 p2 : Bytes) :
    ∃ cipher a', a.encrypt p1 p2 aad nonce (p1.length + p2.length + expansion)
        = .ok (cipher, a')
      ∧ (∀ q1 q2 : Bytes, q1.length + q2.length = p1.length + p2.length →
          ∃ o1 o2 b', b.decrypt cipher aad nonce q1 q2 = .ok (true, o1, o2, b')
            ∧ o1.length = q1.length ∧ o2.length = q2.length
            ∧ o1 ++ o2 = p1 ++ p2)
      ∧ (∀ cipher' q1 q2 : Bytes,
          cipher'.length = q1.length + q2.length + expansion →
          ∃ ok o1 o2 b', b.decrypt cipher' aad nonce q1 q2
              = .ok (ok, o1, o2, b')
            ∧ (ok = true ↔ cipher'.drop (cipher'.length - 16)
                = Rfc8439.tag key nonce.words aad
                    (cipher'.take (cipher'.length - 16)))
            ∧ (ok = false → o1 = q1 ∧ o2 = q2))
      ∧ ∀ p1' p2' : Bytes, p1' ++ p2' = p1 ++ p2 →
          ∃ a'', a.encrypt p1' p2' aad nonce
            (p1'.length + p2'.length + expansion) = .ok (cipher, a'') := by
  obtain ⟨a', hencrypt, -⟩ := encrypt_spec ha.keyed p1 p2 aad nonce
  refine ⟨_, a', hencrypt, ?_, ?_, ?_⟩
  · intro q1 q2 hsize
    have hlen : (sealed key nonce aad (p1 ++ p2)).length
        = q1.length + q2.length + 16 := by
      rw [sealed_length, List.length_append, hsize]
    obtain ⟨b', hdecrypt, -⟩ := decrypt_spec hb.keyed aad nonce hlen
    rw [opened_sealed] at hdecrypt
    exact ⟨_, _, b', hdecrypt,
      opened_spans (hsize.trans List.length_append.symm)⟩
  · intro cipher q1 q2 hsize
    obtain ⟨b', hdecrypt, -⟩ := decrypt_spec hb.keyed aad nonce hsize
    have hiff := opened_isSome_iff key nonce aad cipher
    rw [tag_eq] at hiff
    cases hopened : opened key nonce aad cipher with
    | some m =>
        rw [hopened] at hdecrypt hiff
        refine ⟨true, _, _, b', hdecrypt, ?_, fun hfalse => nomatch hfalse⟩
        exact iff_of_true rfl (hiff.mp rfl)
    | none =>
        rw [hopened] at hdecrypt hiff
        refine ⟨false, _, _, b', hdecrypt, ?_, fun _ => ⟨rfl, rfl⟩⟩
        exact iff_of_false Bool.false_ne_true
          fun htag => Bool.false_ne_true (hiff.mpr htag)
  · intro p1' p2' hconcat
    obtain ⟨a'', hencrypt', -⟩ := encrypt_spec ha.keyed p1' p2' aad nonce
    rw [hconcat] at hencrypt'
    exact ⟨a'', hencrypt'⟩

/-- One new object seals and opens, into spans of other sizes. -/
theorem decrypt_inverts_new :
    ∃ a, Aead.new (List.replicate 32 7) = .ok a
      ∧ ∃ cipher a', a.encrypt [1, 2] [3] [4] ⟨5, 6⟩ 19 = .ok (cipher, a')
        ∧ ∃ o1 o2 a'', a.decrypt cipher [4] ⟨5, 6⟩ [] [0, 0, 0]
          = .ok (true, o1, o2, a'') ∧ o1 ++ o2 = [1, 2, 3] := by
  have hkey : (List.replicate 32 (7 : UInt8)).length = 32 :=
    List.length_replicate
  obtain ⟨a, hnew, -⟩ := new_eq_ok hkey
  have h : Holds a (List.replicate 32 7) :=
    ⟨_, a, [], rfl, hnew, by simp, rfl, rfl⟩
  obtain ⟨cipher, a', hencrypt, hdecrypt, -⟩ :=
    decrypt_inverts h h ⟨5, 6⟩ [4] [1, 2] [3]
  obtain ⟨o1, o2, a'', hout, -, -, htext⟩ := hdecrypt [] [0, 0, 0] rfl
  exact ⟨a, hnew, cipher, a', hencrypt, o1, o2, a'', hout, htext⟩

end Aead

end Remc.Crypto
