/-
`KeysWrapper` (keys_wrapper.h, keys_wrapper.cpp): the private key of a
session and the key it shares with the other side.

The primitives are libsodium's, which is not part of the repository:
`Sodium` takes the three functions the wrapper calls as a parameter, on
32-byte strings, with the one way `crypto_scalarmult` can fail. What the
sessions rely on beyond that is `Sodium.Agrees`.
-/
import Remc.Basic

namespace Remc.Crypto

/-- `std::array<std::byte, crypto_scalarmult_BYTES>`. -/
abbrev Key := { bytes : Bytes // bytes.length = 32 }

namespace Key

/-- The value-initialised key. -/
def zero : Key := ⟨List.replicate 32 0, List.length_replicate⟩

end Key

/-- The libsodium functions: `crypto_scalarmult_base` of a private key,
`crypto_scalarmult` of a private and a public key, and
`crypto_generichash` of 32 bytes to 32 bytes without a key. -/
structure Sodium where
  scalarmultBase : Key → Key
  scalarmult : Key → Key → Option Key
  generichash : Key → Key

/-- Both sides of an exchange of honest public keys get a result, and
get the same one. -/
def Sodium.Agrees (sodium : Sodium) : Prop :=
  ∀ a b : Key, ∃ k,
    sodium.scalarmult a (sodium.scalarmultBase b) = some k
      ∧ sodium.scalarmult b (sodium.scalarmultBase a) = some k

/-- `KeysWrapper`; the constructor draws the private key and leaves the
shared key zero. -/
structure KeysWrapper where
  privateKey : Key
  sharedKey : Key := Key.zero
deriving DecidableEq

namespace KeysWrapper

variable (sodium : Sodium)

/-- `GetPublicKey`. -/
def getPublicKey (k : KeysWrapper) : Key :=
  sodium.scalarmultBase k.privateKey

/-- `ComputeSharedKey`. -/
def computeSharedKey (k : KeysWrapper) (otherPublicKey : Bytes) :
    Checked (Bool × KeysWrapper) :=
  if h : otherPublicKey.length = 32 then
    -- compute and check key valid
    match sodium.scalarmult k.privateKey ⟨otherPublicKey, h⟩ with
    | none => .ok (false, k)
    | some tmp => .ok (true, { k with sharedKey := sodium.generichash tmp })
  else .error .publicKeySize

/-- The key two honest parties end up with. -/
def agreedKey (a b : Key) : Key :=
  match sodium.scalarmult a (sodium.scalarmultBase b) with
  | none => Key.zero
  | some tmp => sodium.generichash tmp

variable {sodium}

/-- The key does not depend on which side computes it. -/
theorem agreedKey_comm (h : sodium.Agrees) (a b : Key) :
    agreedKey sodium a b = agreedKey sodium b a := by
  obtain ⟨k, hab, hba⟩ := h a b
  rw [agreedKey, agreedKey, hab, hba]

/-- With the public key of an honest party, `ComputeSharedKey` succeeds
and sets the key of the two. -/
theorem computeSharedKey_agrees (h : sodium.Agrees) (k : KeysWrapper)
    (b : Key) :
    k.computeSharedKey sodium (sodium.scalarmultBase b).val
      = .ok (true, { k with sharedKey := agreedKey sodium k.privateKey b }) := by
  obtain ⟨tmp, htmp, -⟩ := h k.privateKey b
  unfold computeSharedKey agreedKey
  rw [dif_pos (sodium.scalarmultBase b).property]
  simp only [Subtype.coe_eta, htmp]

end KeysWrapper

-- ================================================================= two keys

/-- The private key of a client, and that of a server. -/
def clientKey : Key :=
  ⟨[1, 2, 3, 4, 5, 6, 7, 8, 9, 10, 11, 12, 13, 14, 15, 16, 17, 18, 19, 20, 21,
    22, 23, 24, 25, 26, 27, 28, 29, 30, 31, 32], rfl⟩

def serverKey : Key :=
  ⟨[33, 34, 35, 36, 37, 38, 39, 40, 41, 42, 43, 44, 45, 46, 47, 48, 49, 50, 51,
    52, 53, 54, 55, 56, 57, 58, 59, 60, 61, 62, 63, 64], rfl⟩

/-- What X25519 and BLAKE2b make of these two keys. -/
def clientPublicKey : Key :=
  ⟨[7, 163, 124, 188, 20, 32, 147, 200, 183, 85, 220, 27, 16, 232, 108, 180, 38,
    55, 74, 209, 106, 168, 83, 237, 11, 223, 192, 178, 184, 109, 28, 124], rfl⟩

def serverPublicKey : Key :=
  ⟨[88, 105, 175, 244, 80, 84, 151, 50, 203, 170, 237, 94, 93, 249, 179, 10,
    109, 163, 28, 176, 229, 116, 43, 173, 90, 212, 161, 167, 104, 241, 166,
    123], rfl⟩

def commonPoint : Key :=
  ⟨[168, 77, 199, 195, 200, 240, 88, 177, 178, 220, 76, 209, 233, 181, 220, 10,
    121, 135, 248, 139, 106, 149, 100, 205, 227, 57, 31, 196, 33, 21, 158,
    119], rfl⟩

def commonKey : Key :=
  ⟨[225, 29, 179, 181, 234, 70, 180, 28, 72, 75, 238, 190, 58, 242, 46, 235,
    226, 187, 29, 207, 76, 218, 57, 140, 217, 60, 141, 217, 149, 201, 141,
    243], rfl⟩

/-- libsodium on these two keys. -/
def tabulated : Sodium where
  scalarmultBase k := if k = serverKey then serverPublicKey else clientPublicKey
  scalarmult _ _ := some commonPoint
  generichash _ := commonKey

theorem tabulated_serverKey :
    tabulated.scalarmultBase serverKey = serverPublicKey := by
  show (if serverKey = serverKey then serverPublicKey
    else clientPublicKey) = serverPublicKey
  exact if_pos rfl

theorem tabulated_agrees : tabulated.Agrees :=
  fun _ _ => ⟨commonPoint, rfl, rfl⟩

end Remc.Crypto
