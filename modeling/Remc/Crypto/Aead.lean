/-
`AEADChaCha20Poly1305` (cc20poly1305.h, cc20poly1305.cpp).

Below, the member functions as the source runs them on one `ChaCha20`
object, with its `assert`s and its spans. Above, what they compute:
`sealed` and `opened`, functions of a key, a nonce, the associated data
and a text. `encrypt_spec` and `decrypt_spec` connect the two for an
object in any state; the source's contract (`opened_sealed`,
`opened_isSome_iff`) is then about `sealed` and `opened` alone.
-/
import Remc.Crypto.ChaCha20
import Remc.Crypto.Poly1305

namespace Remc.Crypto

open Keystream

-- ================================================================== spans

/-- `span::first(n)`. -/
def spanFirst (s : Bytes) (n : Nat) : Checked Bytes := do
  require (n ≤ s.length) .spanOutOfRange
  return s.take n

/-- `span::last(n)`. -/
def spanLast (s : Bytes) (n : Nat) : Checked Bytes := do
  require (n ≤ s.length) .spanOutOfRange
  return s.drop (s.length - n)

/-- `span::subspan(n)`. -/
def spanSubspan (s : Bytes) (n : Nat) : Checked Bytes := do
  require (n ≤ s.length) .spanOutOfRange
  return s.drop n

theorem spanFirst_of_le {s : Bytes} {n : Nat} (h : n ≤ s.length) :
    spanFirst s n = .ok (s.take n) := by
  unfold spanFirst
  rw [require_of h]
  rfl

theorem spanLast_of_le {s : Bytes} {n : Nat} (h : n ≤ s.length) :
    spanLast s n = .ok (s.drop (s.length - n)) := by
  unfold spanLast
  rw [require_of h]
  rfl

theorem spanSubspan_of_le {s : Bytes} {n : Nat} (h : n ≤ s.length) :
    spanSubspan s n = .ok (s.drop n) := by
  unfold spanSubspan
  rw [require_of h]
  rfl

-- ================================================== timingsafe_bcmp_internal

/-- `timingsafe_bcmp_internal`: true where the strings differ. -/
def timingsafeBcmp (b1 b2 : Bytes) : Bool :=
  (List.zipWith (· ^^^ ·) b1 b2).foldl (· ||| ·) 0 != 0

/-- An or of bytes is zero when all of them are. -/
theorem foldl_or_eq_zero_iff (bs : Bytes) (a : UInt8) :
    bs.foldl (· ||| ·) a = 0 ↔ a = 0 ∧ ∀ b ∈ bs, b = 0 := by
  induction bs generalizing a with
  | nil => simp
  | cons b bs ih =>
      rw [List.foldl_cons, ih, List.forall_mem_cons, UInt8.or_eq_zero_iff,
        and_assoc]

/-- On strings of one length it decides inequality. -/
theorem timingsafeBcmp_eq_false_iff {b1 b2 : Bytes}
    (h : b1.length = b2.length) :
    timingsafeBcmp b1 b2 = false ↔ b1 = b2 := by
  unfold timingsafeBcmp
  rw [bne_eq_false_iff_eq, foldl_or_eq_zero_iff]
  induction b1 generalizing b2 with
  | nil =>
      rw [List.length_nil] at h
      simp [List.length_eq_zero_iff.mp h.symm]
  | cons x xs ih =>
      cases b2 with
      | nil => cases h
      | cons y ys =>
          have hrest := ih (Nat.succ_inj.mp h)
          simp only [List.zipWith_cons_cons, List.forall_mem_cons,
            List.cons.injEq, UInt8.xor_eq_zero_iff, true_and]
            at hrest ⊢
          rw [hrest]

-- ============================================================= ComputeTag

/-- The message `ComputeTag` feeds to Poly1305. -/
def macUpdates (p : Poly1305) (aad cipher : Bytes) : Poly1305 :=
  let p := p.update aad
  let p := p.update (List.replicate ((16 - aad.length % 16) % 16) 0)
  let p := p.update cipher
  let p := p.update (List.replicate ((16 - cipher.length % 16) % 16) 0)
  p.update (writeLE64 (UInt64.ofNat aad.length)
    ++ writeLE64 (UInt64.ofNat cipher.length))

/-- `ComputeTag`, into a span of `tagSize` bytes. -/
def computeTag (c : ChaCha20) (aad cipher : Bytes) (tagSize : Nat) :
    Checked (Bytes × ChaCha20) := do
  let (firstBlock, c) ← c.keystream ChaCha20Aligned.blockLen
  let key ← spanFirst firstBlock Poly1305.keyLen
  let poly1305 ← Poly1305.new key
  let tag ← (macUpdates poly1305 aad cipher).finalize tagSize
  return (tag, c)

-- ================================================= AEADChaCha20Poly1305

/-- `AEADChaCha20Poly1305`. -/
structure Aead where
  chacha20 : ChaCha20
deriving DecidableEq, Repr

namespace Aead

/-- `EXPANSION`. -/
abbrev expansion : Nat := 16

/-- The constructor; the length is asserted by `SetKey` below it. -/
def new (key : Bytes) : Checked Aead := do
  let chacha20 ← ChaCha20.new key
  return { chacha20 }

/-- `Encrypt` into a span of `cipherSize` bytes: the bytes it writes. -/
def encrypt (a : Aead) (plain1 plain2 aad : Bytes) (nonce : Nonce96)
    (cipherSize : Nat) : Checked (Bytes × Aead) := do
  require (cipherSize = plain1.length + plain2.length + expansion) .cipherSize
  -- starting at block 1
  let c := a.chacha20.seek nonce 1
  let (cipher1, c) ← c.crypt plain1 plain1.length
  let (cipher2, c) ← c.crypt plain2 plain2.length
  -- the tag, with the key drawn from block 0
  let c := c.seek nonce 0
  let (tag, c) ← computeTag c aad (cipher1 ++ cipher2) expansion
  return (cipher1 ++ cipher2 ++ tag, { chacha20 := c })

/-- `Decrypt` into the spans `plain1` and `plain2`: whether the tag
matches, and what the spans hold afterwards. -/
def decrypt (a : Aead) (cipher aad : Bytes) (nonce : Nonce96)
    (plain1 plain2 : Bytes) :
    Checked (Bool × Bytes × Bytes × Aead) := do
  require (cipher.length = plain1.length + plain2.length + expansion) .cipherSize
  -- the tag, with the key drawn from block 0
  let c := a.chacha20.seek nonce 0
  let body ← spanFirst cipher (cipher.length - expansion)
  let (expectedTag, c) ← computeTag c aad body expansion
  let tag ← spanLast cipher expansion
  if timingsafeBcmp expectedTag tag then
    return (false, plain1, plain2, { chacha20 := c })
  -- starting at block 1
  let cipher1 ← spanFirst cipher plain1.length
  let (out1, c) ← c.crypt cipher1 plain1.length
  let rest ← spanSubspan cipher plain1.length
  let cipher2 ← spanFirst rest plain2.length
  let (out2, c) ← c.crypt cipher2 plain2.length
  return (true, out1, out2, { chacha20 := c })

end Aead

-- ========================================================= what it computes

open ChaCha20Aligned (generator)

/-- The state after `Seek(nonce, 0)` under a key: its stream is block 0,
which keys the tag, and then the cipher's keystream. -/
def origin (key : Bytes) (nonce : Nonce96) : ChaCha20Aligned :=
  (ChaCha20Aligned.keyed key).seek nonce 0

/-- The tag over the associated data and a ciphertext. -/
def tag (key : Bytes) (nonce : Nonce96) (aad cipher : Bytes) : Bytes :=
  (poly1305Finish (macUpdates
    ⟨poly1305Init (segment generator (origin key nonce) 0 32)⟩
    aad cipher).ctx).1

/-- The one-time key is the head of block 0; in this form the kernel
computes the block once. -/
theorem tag_eq_block (key : Bytes) (nonce : Nonce96) (aad cipher : Bytes) :
    tag key nonce aad cipher = (poly1305Finish (macUpdates
      ⟨poly1305Init ((serialize (origin key nonce).words.toList).take 32)⟩
      aad cipher).ctx).1 := by
  have hblock : serialize (origin key nonce).words.toList
      = segment generator (origin key nonce) 0 64 :=
    block_eq_segment generator (origin key nonce)
  rw [hblock, segment_take _ _ _ (by decide)]
  rfl

/-- A text XORed with the keystream from block 1 on. -/
def cipherText (key : Bytes) (nonce : Nonce96) (text : Bytes) : Bytes :=
  xor text (segment generator (origin key nonce) 64 text.length)

/-- A text of at most one block is XORed with the head of block 1. -/
theorem cipherText_eq_block (key : Bytes) (nonce : Nonce96) {text : Bytes}
    (h : text.length ≤ 64) :
    cipherText key nonce text = xor text ((serialize
      (generator.next (origin key nonce)).words.toList).take text.length) := by
  have hblock : serialize (generator.next (origin key nonce)).words.toList
      = segment generator (generator.next (origin key nonce)) 0 64 :=
    block_eq_segment generator _
  have hnext := segment_iterate generator (origin key nonce) 1 0 text.length
  rw [hblock, segment_take _ _ _ h]
  exact congrArg (xor text) hnext.symm

/-- What `Encrypt` writes. -/
def sealed (key : Bytes) (nonce : Nonce96) (aad plain : Bytes) : Bytes :=
  cipherText key nonce plain ++ tag key nonce aad (cipherText key nonce plain)

/-- What `Decrypt` finds: the text, where the last 16 bytes are the tag
of what stands before them. -/
def opened (key : Bytes) (nonce : Nonce96) (aad cipher : Bytes) :
    Option Bytes :=
  let body := cipher.take (cipher.length - 16)
  if cipher.drop (cipher.length - 16) = tag key nonce aad body then
    some (cipherText key nonce body)
  else none

@[simp] theorem tag_length (key : Bytes) (nonce : Nonce96)
    (aad cipher : Bytes) : (tag key nonce aad cipher).length = 16 :=
  Poly1305.poly1305Finish_length _

@[simp] theorem cipherText_length (key : Bytes) (nonce : Nonce96)
    (text : Bytes) : (cipherText key nonce text).length = text.length :=
  xor_length (segment_length _ _ _ _)

theorem sealed_length (key : Bytes) (nonce : Nonce96) (aad plain : Bytes) :
    (sealed key nonce aad plain).length = plain.length + 16 := by
  rw [sealed, List.length_append, cipherText_length, tag_length]

/-- Sealing the empty text gives the tag alone. -/
theorem sealed_nil (key : Bytes) (nonce : Nonce96) (aad : Bytes) :
    sealed key nonce aad [] = tag key nonce aad [] := by
  have htext : cipherText key nonce [] = [] :=
    List.eq_nil_of_length_eq_zero (cipherText_length key nonce [])
  rw [sealed, htext, List.nil_append]

/-- Deciphering is enciphering. -/
theorem cipherText_cipherText (key : Bytes) (nonce : Nonce96)
    (text : Bytes) :
    cipherText key nonce (cipherText key nonce text) = text := by
  unfold cipherText
  rw [xor_length (segment_length _ _ _ _)]
  exact xor_xor (segment_length _ _ _ _)

/-- What was sealed is opened with the same key, nonce and associated
data. -/
theorem opened_sealed (key : Bytes) (nonce : Nonce96) (aad plain : Bytes) :
    opened key nonce aad (sealed key nonce aad plain) = some plain := by
  have hsub : plain.length + 16 - 16 = (cipherText key nonce plain).length := by
    rw [cipherText_length]
    omega
  simp only [opened, sealed_length, hsub]
  simp only [sealed, List.take_left, List.drop_left, if_true,
    cipherText_cipherText]

/-- What was sealed is not opened with a key and a nonce that give its
text another tag. -/
theorem opened_sealed_of_tag_ne {key key' : Bytes} {nonce nonce' : Nonce96}
    {aad plain : Bytes}
    (h : tag key nonce aad (cipherText key nonce plain)
      ≠ tag key' nonce' aad (cipherText key nonce plain)) :
    opened key' nonce' aad (sealed key nonce aad plain) = none := by
  have hsub : plain.length + 16 - 16 = (cipherText key nonce plain).length := by
    rw [cipherText_length]
    omega
  simp only [opened, sealed_length, hsub]
  simp only [sealed, List.take_left, List.drop_left]
  exact if_neg h

/-- A ciphertext is opened exactly when its last 16 bytes are the tag of
the bytes before them. -/
theorem opened_isSome_iff (key : Bytes) (nonce : Nonce96)
    (aad cipher : Bytes) :
    (opened key nonce aad cipher).isSome
      ↔ cipher.drop (cipher.length - 16)
        = tag key nonce aad (cipher.take (cipher.length - 16)) := by
  simp only [opened]
  split
  next h => exact iff_of_true rfl h
  next h => exact iff_of_false Bool.false_ne_true h

/-- An opened text is 16 bytes shorter. -/
theorem opened_length {key : Bytes} {nonce : Nonce96}
    {aad cipher text : Bytes} (h : opened key nonce aad cipher = some text) :
    text.length = cipher.length - 16 := by
  simp only [opened] at h
  split at h
  next =>
    cases h
    rw [cipherText_length, List.length_take_of_le (Nat.sub_le _ _)]
  next => cases h

-- ===================================== the member functions compute it

/-- The object holds this key, whatever was done with it before. -/
structure Keyed (c : ChaCha20) (key : Bytes) : Prop where
  buffer_length : c.buffer.length = 64
  seek : ∀ nonce ctr, c.aligned.seek nonce ctr
    = (ChaCha20Aligned.keyed key).seek nonce ctr

variable {c : ChaCha20} {key : Bytes}

/-- A seek to block 0 is at the start of the stream. -/
theorem Keyed.at_zero (h : Keyed c key) (nonce : Nonce96) :
    (c.seek nonce 0).At (origin key nonce) 0 := by
  have hat := ChaCha20.at_seek h.buffer_length nonce 0
  rwa [h.seek] at hat

/-- A seek to block 1 is 64 bytes behind it. -/
theorem Keyed.at_one (h : Keyed c key) (nonce : Nonce96) :
    (c.seek nonce 1).At (origin key nonce) 64 := by
  have hat := ChaCha20.at_seek h.buffer_length nonce 1
  rw [h.seek, ← ChaCha20Aligned.next_seek_zero] at hat
  exact hat.of_next

/-- An object at any place of a stream of the key holds the key. -/
theorem keyed_of_at {nonce : Nonce96} {pos : Nat}
    (h : c.At (origin key nonce) pos) : Keyed c key := by
  obtain ⟨k, hk, -⟩ := h.aligned
  refine ⟨h.buffer_length, fun n ctr => ?_⟩
  rw [hk, ChaCha20Aligned.seek_iterate_next, origin,
    ChaCha20Aligned.seek_seek]

/-- `ComputeTag` at block 0 computes the tag and ends at block 1. -/
theorem computeTag_spec {nonce : Nonce96} (h : c.At (origin key nonce) 0)
    (aad cipher : Bytes) :
    ∃ c', computeTag c aad cipher 16 = .ok (tag key nonce aad cipher, c')
      ∧ c'.At (origin key nonce) 64 := by
  obtain ⟨c', hks, hat⟩ := ChaCha20.keystream_spec h 64
  refine ⟨c', ?_, by rwa [Nat.zero_add] at hat⟩
  have hlen := segment_length generator (origin key nonce) 0 32
  have hfirst : spanFirst (segment generator (origin key nonce) 0 64) 32
      = .ok (segment generator (origin key nonce) 0 32) := by
    rw [spanFirst_of_le (by rw [segment_length]; decide),
      segment_take _ _ _ (by decide)]
  show (c.keystream 64 >>= fun p => spanFirst p.1 32 >>= fun key =>
    Poly1305.new key >>= fun poly => (macUpdates poly aad cipher).finalize 16
      >>= fun tag => .ok (tag, p.2)) = _
  rw [hks, ok_bind, hfirst, ok_bind, Poly1305.new_of_length hlen, ok_bind,
    Poly1305.finalize_tagLen, ok_bind]
  rfl

/-- Two texts enciphered one after the other. -/
theorem cipherText_append (key : Bytes) (nonce : Nonce96) (t₁ t₂ : Bytes) :
    cipherText key nonce (t₁ ++ t₂)
      = xor t₁ (segment generator (origin key nonce) 64 t₁.length)
        ++ xor t₂ (segment generator (origin key nonce) (64 + t₁.length)
          t₂.length) := by
  unfold cipherText
  rw [List.length_append, segment_append,
    xor_append (segment_length _ _ _ _).symm]

namespace Aead

/-- The constructor takes 32 bytes and nothing else. -/
theorem new_eq_ok (h : key.length = 32) :
    ∃ a, Aead.new key = .ok a ∧ Keyed a.chacha20 key := by
  have hkey : key.length = ChaCha20Aligned.keyLen := h
  have hset : ChaCha20Aligned.setKey key
      = .ok (ChaCha20Aligned.keyed key) := by
    unfold ChaCha20Aligned.setKey
    rw [require_of hkey]
    rfl
  refine ⟨⟨ChaCha20Aligned.keyed key, List.replicate 64 0, 0⟩, ?_,
    List.length_replicate, fun _ _ => rfl⟩
  unfold Aead.new ChaCha20.new
  rw [hset]
  rfl

/-- `Encrypt` seals its two texts, in any state of the object. -/
theorem encrypt_spec {a : Aead} (h : Keyed a.chacha20 key)
    (plain1 plain2 aad : Bytes) (nonce : Nonce96) :
    ∃ a', a.encrypt plain1 plain2 aad nonce
        (plain1.length + plain2.length + 16)
          = .ok (sealed key nonce aad (plain1 ++ plain2), a')
      ∧ Keyed a'.chacha20 key := by
  obtain ⟨c₁, hcrypt₁, hat₁⟩ := ChaCha20.crypt_spec (h.at_one nonce) plain1
  obtain ⟨c₂, hcrypt₂, hat₂⟩ := ChaCha20.crypt_spec hat₁ plain2
  obtain ⟨c₃, htag, hat₃⟩ := computeTag_spec ((keyed_of_at hat₂).at_zero nonce)
    aad (cipherText key nonce (plain1 ++ plain2))
  refine ⟨⟨c₃⟩, ?_, keyed_of_at hat₃⟩
  unfold encrypt
  rw [require_of rfl, ok_bind]
  simp only [hcrypt₁, hcrypt₂, ok_bind, ← cipherText_append]
  rw [htag, ok_bind]
  rfl

/-- `Decrypt` opens a ciphertext of the size of its two output spans,
and leaves the spans as they are where it does not open. -/
theorem decrypt_spec {a : Aead} (h : Keyed a.chacha20 key)
    {cipher plain1 plain2 : Bytes} (aad : Bytes) (nonce : Nonce96)
    (hsize : cipher.length = plain1.length + plain2.length + 16) :
    ∃ a', a.decrypt cipher aad nonce plain1 plain2
        = .ok (match opened key nonce aad cipher with
          | some m => (true, m.take plain1.length, m.drop plain1.length, a')
          | none => (false, plain1, plain2, a'))
      ∧ Keyed a'.chacha20 key := by
  have hbody : cipher.length - 16 = plain1.length + plain2.length := by omega
  obtain ⟨c₁, htag, hat₁⟩ := computeTag_spec (h.at_zero nonce) aad
    (cipher.take (plain1.length + plain2.length))
  have hfirst : spanFirst cipher (plain1.length + plain2.length)
      = .ok (cipher.take (plain1.length + plain2.length)) :=
    spanFirst_of_le (by omega)
  have hlast : spanLast cipher 16
      = .ok (cipher.drop (plain1.length + plain2.length)) := by
    rw [spanLast_of_le (by omega), hbody]
  have hlen : (tag key nonce aad
      (cipher.take (plain1.length + plain2.length))).length
      = (cipher.drop (plain1.length + plain2.length)).length := by
    rw [tag_length, List.length_drop]
    omega
  have hbcmp := timingsafeBcmp_eq_false_iff hlen
  unfold decrypt
  rw [require_of hsize, ok_bind]
  simp only [hbody, hfirst, htag, hlast, ok_bind, opened]
  by_cases htags : cipher.drop (plain1.length + plain2.length)
      = tag key nonce aad (cipher.take (plain1.length + plain2.length))
  · -- the tag matches: decipher into both spans
    obtain ⟨c₂, hcrypt₁, hat₂⟩ := ChaCha20.crypt_spec hat₁
      (cipher.take plain1.length)
    obtain ⟨c₃, hcrypt₂, hat₃⟩ := ChaCha20.crypt_spec hat₂
      ((cipher.drop plain1.length).take plain2.length)
    have hlen₁ : (cipher.take plain1.length).length = plain1.length :=
      List.length_take_of_le (by omega)
    have hlen₂ : ((cipher.drop plain1.length).take plain2.length).length
        = plain2.length := by
      rw [List.length_take, List.length_drop]
      omega
    have htext := cipherText_append key nonce (cipher.take plain1.length)
      ((cipher.drop plain1.length).take plain2.length)
    rw [hlen₁] at hcrypt₁ hcrypt₂ htext
    rw [hlen₂] at hcrypt₂ htext
    rw [← List.take_add] at htext
    have hout₁ : (xor (cipher.take plain1.length)
        (segment generator (origin key nonce) 64 plain1.length)).length
          = plain1.length := by
      rw [xor_length (by rw [segment_length, hlen₁]), hlen₁]
    refine ⟨⟨c₃⟩, ?_, keyed_of_at hat₃⟩
    rw [if_pos htags, if_neg (by rw [hbcmp.mpr htags.symm]; exact Bool.false_ne_true)]
    rw [spanFirst_of_le (by omega), ok_bind, hcrypt₁, ok_bind,
      spanSubspan_of_le (by omega), ok_bind,
      spanFirst_of_le (by rw [List.length_drop]; omega), ok_bind, hcrypt₂,
      ok_bind, htext]
    simp only [List.take_left' hout₁, List.drop_left' hout₁]
    rfl
  · rw [if_neg htags, if_pos]
    · exact ⟨_, rfl, keyed_of_at hat₁⟩
    · rw [← Bool.not_eq_false, hbcmp]
      exact fun heq => htags heq.symm

/-- A ciphertext of any other size violates the assertion. -/
theorem decrypt_of_size_ne (a : Aead) {cipher plain1 plain2 : Bytes}
    (aad : Bytes) (nonce : Nonce96)
    (hsize : cipher.length ≠ plain1.length + plain2.length + 16) :
    a.decrypt cipher aad nonce plain1 plain2 = .error .cipherSize := by
  unfold decrypt
  rw [require_of_not hsize, error_bind]

end Aead

end Remc.Crypto
