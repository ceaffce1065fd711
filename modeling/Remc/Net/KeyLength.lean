/-
The length of the key that `DefaultReadCallback` computes with.

`ComputeSharedKey` asserts that it is given 32 bytes. The client's
callback looks at the size of the packet before it calls it;
`DefaultReadCallback` looks at the flags alone. So a handshake keeps the
assertion exactly if its message size on the wire is that of a sealed
32-byte key (`keyLength_iff`), and every peer that knows the current key,
which is all zero at first, can send one of another size.
-/
import Remc.Net.Hostile
import Remc.Net.Peer

namespace Remc.Net

open Crypto

-- ================================================================ the size

/-- The plain text has the size of a key exactly if the message size is
that of a sealed key. -/
theorem plainSize_eq_32_iff (h : Header) :
    plainSize h = 32 ↔ h.messageSize = 48 := by
  have h32 : (32 : UInt32).toNat = 32 := rfl
  rw [plainSize, ← h32, UInt32.toNat_inj]
  constructor
  · intro hsize
    have hadd : h.messageSize - 16 + 16 = 32 + 16 := congrArg (· + 16) hsize
    rwa [UInt32.sub_add_cancel] at hadd
  · intro hsize
    rw [hsize]
    rfl

-- ============================================================ the callback

namespace SessionServer

/-- `ComputeSharedKey` returns exactly on 32 bytes. -/
theorem callbackKey_ok_iff (sodium : Sodium) (s : Session) (payload : Bytes) :
    (∃ r, callbackKey sodium s payload = .ok r) ↔ payload.length = 32 := by
  unfold callbackKey KeysWrapper.computeSharedKey
  constructor
  · rintro ⟨r, hr⟩
    by_contra hlen
    rw [dif_neg hlen] at hr
    cases hr
  · intro hlen
    rw [dif_pos hlen]
    cases sodium.scalarmult s.keys.privateKey ⟨payload, hlen⟩ with
    | none => exact ⟨_, rfl⟩
    | some tmp => exact ⟨_, rfl⟩

/-- `DefaultReadCallback` goes on to `ComputeSharedKey` with the payload
of a handshake, and only then. -/
theorem callbackAnswer_task (sodium : Sodium) (s : Session) (packet : Packet)
    (payload : Bytes) :
    (callbackAnswer sodium s packet).task = .serverKey payload
      ↔ packet.header.flags = Flags.handshake ∧ packet.payload = payload := by
  unfold callbackAnswer
  split
  next hflags =>
    constructor
    · intro h
      cases h
      exact ⟨hflags, rfl⟩
    · rintro ⟨-, rfl⟩
      rfl
  next hflags =>
    constructor
    · intro h
      split at h
      next => cases h
      next => cases h
    · rintro ⟨h, -⟩
      exact absurd h hflags

/-- What `DefaultReadCallback` gives to `ComputeSharedKey` when it handles
this packet is 32 bytes long, as the assertion there says, whatever has
become of the session by then. -/
def KeepsKeyLength (sodium : Sodium) (packet : Packet) : Prop :=
  ∀ (s s' : Session) (payload : Bytes),
    (callbackAnswer sodium s packet).task = .serverKey payload →
      payload.length = 32 ∧ ∃ r, callbackKey sodium s' payload = .ok r

/-- In every state of a session, a packet that `DefaultReadCallback`
accepts keeps the assertion of `ComputeSharedKey` exactly if it is no
handshake or its message size on the wire is that of a key and a tag. -/
theorem keyLength_iff (sodium : Sodium) {now : Int64} {s : Session}
    {buffer : Bytes} {packet : Packet}
    (h : readPacket now buffer (readNonce s) s.keys.sharedKey.val
      = .ok (.ok packet)) :
    KeepsKeyLength sodium packet
      ↔ ((headerOf buffer).flags = Flags.handshake →
        (headerOf buffer).messageSize = 48) := by
  have hkey := s.keys.sharedKey.property
  have hflags := accepted_flags hkey h
  have hlength : (headerOf buffer).flags = Flags.handshake →
      (packet.payload.length = 32 ↔ (headerOf buffer).messageSize = 48) := by
    intro hhandshake
    have hcrypto : ¬NoCrypto (headerOf buffer).flags := by
      rw [hhandshake]
      decide
    rw [accepted_payload_length hkey hcrypto h]
    exact plainSize_eq_32_iff _
  constructor
  · intro hkeeps hhandshake
    obtain ⟨hlen, -⟩ := hkeeps s s packet.payload
      ((callbackAnswer_task sodium s packet _).mpr ⟨hflags.trans hhandshake, rfl⟩)
    exact (hlength hhandshake).mp hlen
  · intro hsize s₁ s₂ payload htask
    obtain ⟨hhandshake, rfl⟩ := (callbackAnswer_task sodium s₁ packet _).mp htask
    have hwire := hflags.symm.trans hhandshake
    have hlen := (hlength hwire).mpr (hsize hwire)
    exact ⟨hlen, (callbackKey_ok_iff sodium s₂ _).mpr hlen⟩

/-- A server session that has completed one read and still has the zero
key. -/
def firstRead : Session :=
  ((Peer.start .server ⟨Key.zero, Key.zero⟩ 0).completeRead 0 []).session

/-- Such a session accepts a handshake with any payload within the
limit. -/
theorem readPacket_firstRead {payload : Bytes}
    (hsize : payload.length ≤ tcpPayloadSizeMax) :
    readPacket 0 (created 0 payload 1 Flags.handshake 0 5 Key.zero.val ++ [])
        (readNonce firstRead) firstRead.keys.sharedKey.val
      = .ok (.ok (sentPacket 0 payload 1 Flags.handshake 0 5)) :=
  (readPacket_created Key.zero.property hsize (fun _ => rfl) 0 0 1 5 []).trans
    (congrArg Except.ok (checkPacket_sentPacket hsize (by decide) 1
      Flags.handshake 0 5))

/-- A handshake with a key of 32 bytes. -/
theorem keyLength_iff_key :
    KeepsKeyLength ⟨id, fun _ _ => none, id⟩
        (sentPacket 0 Key.zero.val 1 Flags.handshake 0 5)
      ↔ ((headerOf (created 0 Key.zero.val 1 Flags.handshake 0 5
          Key.zero.val ++ [])).flags = Flags.handshake →
        (headerOf (created 0 Key.zero.val 1 Flags.handshake 0 5
          Key.zero.val ++ [])).messageSize = 48) :=
  keyLength_iff _ (readPacket_firstRead (by decide))

/-- An empty handshake: `ComputeSharedKey` is given no bytes at all. -/
theorem empty_handshake :
    ¬∀ (sodium : Sodium) (now : Int64) (s : Session) (buffer : Bytes)
        (packet : Packet),
        readPacket now buffer (readNonce s) s.keys.sharedKey.val
          = .ok (.ok packet) → KeepsKeyLength sodium packet := by
  intro hall
  have hkeeps := hall ⟨id, fun _ _ => none, id⟩ 0 firstRead _ _
    (@readPacket_firstRead [] (Nat.zero_le _))
  obtain ⟨hlen, -⟩ := hkeeps firstRead firstRead [] rfl
  cases hlen

end SessionServer

end Remc.Net
