/-
AEAD_CHACHA20_POLY1305 of RFC 8439, section 2.8, from the block function
and the authenticator.

The text is XORed with the stream from block 1 on, the key of the
authenticator is the head of block 0, and it runs over the associated data
and the ciphertext, each padded with zeros to a multiple of 16 bytes, and
their lengths. Texts longer than the 32-bit block counter reaches go on as
`ChaCha.keystream` does, with its carry into the nonce.
-/
import Remc.Lib.ChaCha
import Remc.Lib.Keystream
import Remc.Lib.PolyMac

namespace Rfc8439

open LittleEndian

/-- Zeros up to a multiple of 16 bytes. -/
def pad16 (m : List UInt8) : List UInt8 :=
  List.replicate ((16 - m.length % 16) % 16) 0

/-- What the authenticator runs over. -/
def macData (aad cipher : List UInt8) : List UInt8 :=
  aad ++ pad16 aad ++ cipher ++ pad16 cipher
    ++ toBytes 8 aad.length ++ toBytes 8 cipher.length

def oneTimeKey (key : List UInt8) (nonce : ChaCha.Nonce) : List UInt8 :=
  (ChaCha.block key 0 nonce).take 32

def tag (key : List UInt8) (nonce : ChaCha.Nonce) (aad cipher : List UInt8) :
    List UInt8 :=
  PolyMac.poly1305 (oneTimeKey key nonce) (macData aad cipher)

/-- The text under the stream from block 1 on. -/
def encipher (key : List UInt8) (nonce : ChaCha.Nonce) (text : List UInt8) :
    List UInt8 :=
  Keystream.xor text (ChaCha.keystream key nonce 1 0 text.length)

/-- The ciphertext and its tag. -/
def encrypt (key : List UInt8) (nonce : ChaCha.Nonce) (aad plain : List UInt8) :
    List UInt8 :=
  encipher key nonce plain ++ tag key nonce aad (encipher key nonce plain)

end Rfc8439
