/-
`ReadPacket` undoes `CreatePacket`.

`created` names what `CreatePacket` puts on the wire. Reading it, with
anything behind it, with the key it was made with and a nonce that is
the same in its 32 low bits, gives the packet that went in, up to the
freshness check (`readPacket_created`); a packet read within the time
limit passes that check (`checkPacket_sentPacket`).
-/
import Remc.Net.Wire

namespace Remc.Net

open Crypto Bitsery

variable {key : Bytes}

-- =========================================================== the time limit

/-- The freshness check of a timestamp. -/
def Fresh (now : Int64) (timestamp : UInt64) : Prop :=
  ¬timestampLimit < now.toUInt64 - timestamp

instance (now : Int64) (timestamp : UInt64) :
    Decidable (Fresh now timestamp) :=
  inferInstanceAs (Decidable (¬_))

/-- A time converted to unsigned, as an integer. -/
theorem toInt_eq_toUInt64 (t : Int64) :
    t.toInt = if 2 * t.toUInt64.toNat < 2 ^ 64 then (t.toUInt64.toNat : Int)
      else (t.toUInt64.toNat : Int) - 2 ^ 64 :=
  BitVec.toInt_eq_toNat_cond t.toBitVec

/-- The unsigned difference of two times in order is their distance. -/
theorem toNat_toUInt64_sub {t now : Int64} (h : t.toInt ≤ now.toInt) :
    ((now.toUInt64 - t.toUInt64).toNat : Int) = now.toInt - t.toInt := by
  have ht := t.toUInt64.toNat_lt
  have hnow := now.toUInt64.toNat_lt
  rw [toInt_eq_toUInt64, toInt_eq_toUInt64] at h ⊢
  rw [UInt64.toNat_sub]
  split at h <;> split at h <;> omega

/-- A time that is at most the limit ago is fresh. -/
theorem fresh_of_le {t now : Int64} (h : t.toInt ≤ now.toInt)
    (hlimit : now.toInt ≤ t.toInt + 30) : Fresh now t.toUInt64 := by
  have hdist := toNat_toUInt64_sub h
  unfold Fresh
  rw [UInt64.lt_iff_toNat_lt]
  show ¬30 < (now.toUInt64 - t.toUInt64).toNat
  omega

/-- What was just created is fresh. -/
theorem fresh_self (now : Int64) : Fresh now now.toUInt64 :=
  fresh_of_le le_rfl (by omega)

-- ========================================================= the round trip

/-- The packet that went into `CreatePacket`: its header counts the
payload without a tag. -/
def sentPacket (now : Int64) (payload : Bytes) (version : UInt16)
    (flags : UInt32) (nonce messageId : UInt64) : Packet where
  header :=
    { version, flags, timestamp := now.toUInt64, messageId
      messageSize := UInt32.ofNat payload.length, nonce }
  payload := payload

/-- What `CreatePacket` puts on the wire. -/
def created (now : Int64) (payload : Bytes) (version : UInt16)
    (flags : UInt32) (nonce messageId : UInt64) (key : Bytes) : Bytes :=
  wire (createHeader now payload version flags nonce messageId)
    (encodedPayload payload
      (createHeader now payload version flags nonce messageId) key nonce)

/-- `CreatePacket` with a 32-byte key succeeds on every payload within
the limit. -/
theorem createPacket_created {payload : Bytes} (hkey : key.length = 32)
    (hsize : payload.length ≤ tcpPayloadSizeMax) (now : Int64)
    (version : UInt16) (flags : UInt32) (nonce messageId : UInt64) :
    createPacket now payload version flags nonce messageId key
      = .ok (.ok (created now payload version flags nonce messageId key)) :=
  createPacket_eq hkey hsize now version flags nonce messageId

/-- Its output fits the read buffer of the other side. -/
theorem created_length_le {payload : Bytes}
    (hsize : payload.length ≤ tcpPayloadSizeMax) (now : Int64)
    (version : UInt16) (flags : UInt32) (nonce messageId : UInt64) :
    (created now payload version flags nonce messageId key).length
      ≤ tcpTotalPacketSize := by
  have hsize' : payload.length ≤ 512 := hsize
  have hbody := encodedPayload_length_le payload
    (createHeader now payload version flags nonce messageId) key nonce
  have hprefix := OutputBufferAdapter.sizeBytes_length_le_two
    (lt_of_le_of_lt hbody (by omega : payload.length + 16 < 0x4000))
  have htotal : tcpTotalPacketSize = 568 := rfl
  rw [created, wire_length, framed_length, htotal]
  exact wireSize_le (by omega) (by decide)

/-- Its output has the payload that it announces, whatever follows. -/
theorem complete_created {payload : Bytes}
    (hsize : payload.length ≤ tcpPayloadSizeMax) (t : Int64)
    (version : UInt16) (flags : UInt32) (nonce messageId : UInt64)
    (extra : Bytes) :
    Complete (created t payload version flags nonce messageId key ++ extra)
      ∧ packetOf (created t payload version flags nonce messageId key ++ extra)
        = { header := createHeader t payload version flags nonce messageId
            payload := encodedPayload payload
              (createHeader t payload version flags nonce messageId) key
              nonce } := by
  have hsize' : payload.length ≤ 512 := hsize
  have hlength : (encodedPayload payload
      (createHeader t payload version flags nonce messageId) key nonce).length
      = _ := encodedPayload_length hsize nonce
  have hle := encodedPayload_length_le payload
    (createHeader t payload version flags nonce messageId) key nonce
  exact complete_wire extra hlength.le (by omega)

/-- Two counters with the same 32 low bits give the same AEAD nonce. -/
theorem nonce96_eq_iff {n m : UInt64} :
    nonce96 n = nonce96 m ↔ n.toNat % 2 ^ 32 = m.toNat % 2 ^ 32 := by
  unfold nonce96
  rw [Nonce96.mk.injEq, ← UInt32.toNat_inj, UInt64.toNat_toUInt32,
    UInt64.toNat_toUInt32]
  exact and_iff_left rfl

/-- Two counts give the same nonce exactly if they agree modulo
2^32. -/
theorem nonce96_ofNat_eq_iff (m n : Nat) :
    nonce96 (UInt64.ofNat m) = nonce96 (UInt64.ofNat n)
      ↔ m % 2 ^ 32 = n % 2 ^ 32 := by
  have hdvd : 2 ^ 32 ∣ 2 ^ 64 := ⟨2 ^ 32, by decide⟩
  rw [nonce96_eq_iff, UInt64.toNat_ofNat', UInt64.toNat_ofNat',
    Nat.mod_mod_of_dvd _ hdvd, Nat.mod_mod_of_dvd _ hdvd]

/-- Taking the tag off the message size of an encrypted packet leaves the
payload's size. -/
theorem messageSize_createHeader_sub {flags : UInt32}
    (hcrypto : ¬NoCrypto flags) (t : Int64) (payload : Bytes)
    (version : UInt16) (nonce messageId : UInt64) :
    (createHeader t payload version flags nonce messageId).messageSize - 16
      = UInt32.ofNat payload.length := by
  have hcount : (createHeader t payload version flags nonce
      messageId).messageSize = UInt32.ofNat (payload.length + 16) := by
    unfold createHeader
    rw [if_neg hcrypto]
  rw [hcount, UInt32.ofNat_add]
  exact UInt32.add_sub_cancel _ _

theorem plainSize_createHeader {payload : Bytes}
    (hsize : payload.length ≤ tcpPayloadSizeMax) {flags : UInt32}
    (hcrypto : ¬NoCrypto flags) (t : Int64) (version : UInt16)
    (nonce messageId : UInt64) :
    plainSize (createHeader t payload version flags nonce messageId)
      = payload.length := by
  have hsize' : payload.length ≤ 512 := hsize
  rw [plainSize, messageSize_createHeader_sub hcrypto, UInt32.toNat_ofNat',
    Nat.mod_eq_of_lt (by omega)]

/-- Reading what was created gives the packet that went in, up to the
checks of its timestamp and size. The nonce matters only where the
payload is encrypted. -/
theorem readPacket_created {payload : Bytes} (hkey : key.length = 32)
    (hsize : payload.length ≤ tcpPayloadSizeMax) {nonce nonce' : UInt64}
    {flags : UInt32} (hnonce : ¬NoCrypto flags → nonce96 nonce = nonce96 nonce')
    (t now : Int64) (version : UInt16) (messageId : UInt64) (extra : Bytes) :
    readPacket now
        (created t payload version flags nonce messageId key ++ extra)
        nonce' key
      = .ok (checkPacket now
        (sentPacket t payload version flags nonce messageId)) := by
  obtain ⟨hcomplete, hpacket⟩ := complete_created hsize t version flags nonce
    messageId extra
  rw [readPacket_complete hkey hcomplete, hpacket]
  by_cases hplain : NoCrypto flags
  · rw [decodePayload_noCrypto (hplain : NoCrypto (createHeader t payload
      version flags nonce messageId).flags)]
    unfold encodedPayload createHeader sentPacket
    rw [if_pos hplain, if_pos hplain]
    rfl
  · have hbody : encodedPayload payload
        (createHeader t payload version flags nonce messageId) key nonce
        = sealed key (nonce96 nonce') (serializedHeader
          (createHeader t payload version flags nonce messageId)) payload := by
      unfold encodedPayload
      rw [← hnonce hplain]
      exact if_neg hplain
    have hminus := messageSize_createHeader_sub hplain t payload version nonce
      messageId
    have hplainSize : payload.length = plainSize
        (createHeader t payload version flags nonce messageId) :=
      (plainSize_createHeader hsize hplain t version nonce messageId).symm
    rw [hbody, decodePayload_eq hkey hplain (by rw [sealed_length, hplainSize]),
      opened_sealed]
    show Except.ok (checkPacket now _) = _
    unfold sentPacket
    rw [hminus]
    rfl

/-- With a key and a nonce that give the ciphertext another tag, reading
what was created is an AEAD mismatch. -/
theorem readPacket_created_mismatch {key' payload : Bytes}
    (hkey : key'.length = 32) (hsize : payload.length ≤ tcpPayloadSizeMax)
    {flags : UInt32} (hcrypto : ¬NoCrypto flags) {nonce nonce' : UInt64}
    {t : Int64} {version : UInt16} {messageId : UInt64}
    (hne : tag key (nonce96 nonce) (serializedHeader
          (createHeader t payload version flags nonce messageId))
          (cipherText key (nonce96 nonce) payload)
        ≠ tag key' (nonce96 nonce') (serializedHeader
          (createHeader t payload version flags nonce messageId))
          (cipherText key (nonce96 nonce) payload))
    (now : Int64) (extra : Bytes) :
    readPacket now
        (created t payload version flags nonce messageId key ++ extra)
        nonce' key'
      = .ok (.error .tag) := by
  obtain ⟨hcomplete, hpacket⟩ := complete_created hsize t version flags nonce
    messageId extra
  have hbody : encodedPayload payload
      (createHeader t payload version flags nonce messageId) key nonce
      = sealed key (nonce96 nonce) (serializedHeader
        (createHeader t payload version flags nonce messageId)) payload :=
    if_neg hcrypto
  have hplainSize : payload.length = plainSize
      (createHeader t payload version flags nonce messageId) :=
    (plainSize_createHeader hsize hcrypto t version nonce messageId).symm
  rw [readPacket_complete hkey hcomplete, hpacket, hbody,
    decodePayload_eq hkey hcrypto (by rw [sealed_length, hplainSize]),
    opened_sealed_of_tag_ne hne]
  rfl

/-- A packet of consistent size read within the time limit passes the
checks. -/
theorem checkPacket_sentPacket {now : Int64} {payload : Bytes} {t : Int64}
    (hsize : payload.length ≤ tcpPayloadSizeMax)
    (hfresh : Fresh now t.toUInt64) (version : UInt16) (flags : UInt32)
    (nonce messageId : UInt64) :
    checkPacket now (sentPacket t payload version flags nonce messageId)
      = .ok (sentPacket t payload version flags nonce messageId) := by
  have hsize' : payload.length ≤ 512 := hsize
  have hcount : ¬(UInt32.ofNat payload.length).toNat ≠ payload.length := by
    rw [UInt32.toNat_ofNat', Nat.mod_eq_of_lt (by omega)]
    exact not_not_intro rfl
  unfold checkPacket
  exact (if_neg hfresh).trans (if_neg hcount)

/-- `ReadPacket` undoes `CreatePacket`: for every payload within the
limit, read within the time limit, with anything behind it that the read
buffer may hold. -/
theorem readPacket_createPacket {payload : Bytes} (hkey : key.length = 32)
    (hsize : payload.length ≤ tcpPayloadSizeMax) {t now : Int64}
    (htime : t.toInt ≤ now.toInt) (hlimit : now.toInt ≤ t.toInt + 30)
    (version : UInt16) (flags : UInt32) (nonce messageId : UInt64) :
    ∃ w, createPacket t payload version flags nonce messageId key
        = .ok (.ok w)
      ∧ w.length ≤ tcpTotalPacketSize
      ∧ ∀ extra, (w ++ extra).length ≤ tcpTotalPacketSize →
        readPacket now (w ++ extra) nonce key = .ok (.ok {
          header :=
            { version, flags, timestamp := t.toUInt64, messageId
              messageSize := UInt32.ofNat payload.length, nonce }
          payload }) := by
  refine ⟨_, createPacket_created hkey hsize t version flags nonce messageId,
    created_length_le hsize t version flags nonce messageId, ?_⟩
  intro extra _
  rw [readPacket_created hkey hsize fun _ => rfl]
  exact congrArg Except.ok (checkPacket_sentPacket hsize
    (fresh_of_le htime hlimit) version flags nonce messageId)

/-- A one-byte payload read at the very end of the time limit. -/
theorem readPacket_createPacket_limit :
    ∃ w, createPacket 1000 [7] 1 Flags.noFlags 3 4 (List.replicate 32 0)
        = .ok (.ok w)
      ∧ w.length ≤ tcpTotalPacketSize
      ∧ ∀ extra, (w ++ extra).length ≤ tcpTotalPacketSize →
        readPacket 1030 (w ++ extra) 3 (List.replicate 32 0) = .ok (.ok {
          header :=
            { version := 1, flags := Flags.noFlags, timestamp := 1000
              messageId := 4, messageSize := 1, nonce := 3 }
          payload := [7] }) :=
  readPacket_createPacket (by decide) (by decide) (by decide) (by decide)
    1 Flags.noFlags 3 4

end Remc.Net
