/-
Exactly which packets `ReadPacket` accepts, and which error the others get.

What counts is in the packet as it was deserialised: whether its payload
ends with its tag (`Authentic`), whether its timestamp is within the limit
(`InTime`), and whether its payload has the announced size (`Counted`). The
code tests them in this order and never in another terms than these: the
unsigned difference of a clock past the limit and any 64-bit timestamp
exceeds the limit exactly if the timestamp lies outside the last 30 seconds
(`fresh_iff`), and decryption sets the size that the last test looks at.
-/
import Remc.Crypto.AeadCalls
import Remc.Net.Hostile

namespace Remc.Net

open Crypto Bitsery

variable {key : Bytes} {now : Int64} {nonce : UInt64} {packet : Packet}

-- ================================================================ the tests

/-- The packet is not encrypted, or its payload ends with the tag of its
header and of the rest of the payload. -/
def Authentic (key : Bytes) (nonce : UInt64) (packet : Packet) : Prop :=
  NoCrypto packet.header.flags
    ∨ packet.payload.drop (packet.payload.length - 16)
      = Rfc8439.tag key (nonce96 nonce).words (serializedHeader packet.header)
        (packet.payload.take (packet.payload.length - 16))

instance : Decidable (Authentic key nonce packet) :=
  inferInstanceAs (Decidable (_ ∨ _))

/-- The timestamp is neither older than the limit nor in the future. -/
def InTime (now : Int64) (packet : Packet) : Prop :=
  now.toInt - timestampLimit.toNat ≤ packet.header.timestamp.toNat
    ∧ (packet.header.timestamp.toNat : Int) ≤ now.toInt

instance : Decidable (InTime now packet) :=
  inferInstanceAs (Decidable (_ ∧ _))

/-- A payload that is not encrypted has the announced size. -/
def Counted (packet : Packet) : Prop :=
  NoCrypto packet.header.flags →
    packet.payload.length = packet.header.messageSize.toNat

instance : Decidable (Counted packet) :=
  inferInstanceAs (Decidable (_ → _))

/-- The payload, decrypted where it is encrypted. -/
def plainText (key : Bytes) (nonce : UInt64) (packet : Packet) : Bytes :=
  if NoCrypto packet.header.flags then packet.payload
  else Rfc8439.encipher key (nonce96 nonce).words
    (packet.payload.take (packet.payload.length - 16))

/-- The error of a packet that fails a test: that of the first one. -/
def refusal (key : Bytes) (nonce : UInt64) (now : Int64) (packet : Packet) :
    ErrorCode :=
  if ¬Authentic key nonce packet then .invalidTag
  else if ¬InTime now packet then .invalidTimestamp
  else .invalidMessageLength

/-- The payload has a tag and the announced size, where it is encrypted. -/
def Sized (packet : Packet) : Prop :=
  ¬NoCrypto packet.header.flags →
    packet.payload.length = packet.header.messageSize.toNat
      ∧ 16 ≤ packet.payload.length

-- ========================================================= the time window

/-- The wrapped difference is within the limit exactly if the timestamp is
within the window. -/
theorem fresh_iff (hnow : (timestampLimit.toNat : Int) ≤ now.toInt) :
    Fresh now packet.header.timestamp ↔ InTime now packet := by
  have hlimit : timestampLimit.toNat = 30 := rfl
  have ht := packet.header.timestamp.toNat_lt
  have hu := now.toUInt64.toNat_lt
  have hclock := toInt_eq_toUInt64 now
  unfold Fresh InTime
  rw [UInt64.lt_iff_toNat_lt, UInt64.toNat_sub, hlimit]
  rw [hlimit] at hnow
  by_cases hsign : 2 * now.toUInt64.toNat < 2 ^ 64
  · rw [if_pos hsign] at hclock
    by_cases hpast : packet.header.timestamp.toNat ≤ now.toUInt64.toNat
    · omega
    · -- a timestamp in the future wraps to at least `now + 1`
      omega
  · rw [if_neg hsign] at hclock
    omega

-- ============================================================== decryption

/-- The packet behind the decryption. -/
def decoded (key : Bytes) (nonce : UInt64) (packet : Packet) : Packet where
  header := if NoCrypto packet.header.flags then packet.header
    else { packet.header with messageSize := packet.header.messageSize - 16 }
  payload := plainText key nonce packet

theorem decodePayload_exact (hkey : key.length = 32) (hsized : Sized packet) :
    decodePayload packet key nonce
      = .ok (if Authentic key nonce packet then .ok (decoded key nonce packet)
        else .error .tag) := by
  by_cases hplain : NoCrypto packet.header.flags
  · have hdecoded : decoded key nonce packet = packet := by
      unfold decoded plainText
      rw [if_pos hplain, if_pos hplain]
    rw [decodePayload_noCrypto hplain, if_pos (.inl hplain), hdecoded]
  · obtain ⟨hsize, htag⟩ := hsized hplain
    have hlength : packet.payload.length = plainSize packet.header + 16 := by
      rw [plainSize_of_le (hsize ▸ htag), hsize]
    have hauthentic : Authentic key nonce packet
        ↔ packet.payload.drop (packet.payload.length - 16)
          = tag key (nonce96 nonce) (serializedHeader packet.header)
            (packet.payload.take (packet.payload.length - 16)) := by
      rw [tag_eq]
      exact or_iff_right hplain
    have hdecoded : decoded key nonce packet = {
        header := { packet.header with
          messageSize := packet.header.messageSize - 16 }
        payload := cipherText key (nonce96 nonce)
          (packet.payload.take (packet.payload.length - 16)) } := by
      unfold decoded plainText
      rw [if_neg hplain, if_neg hplain, cipherText_eq]
    rw [decodePayload_eq hkey hplain hlength, opened, hdecoded]
    by_cases hmatch : packet.payload.drop (packet.payload.length - 16)
        = tag key (nonce96 nonce) (serializedHeader packet.header)
          (packet.payload.take (packet.payload.length - 16))
    · rw [if_pos hmatch, if_pos (hauthentic.mpr hmatch)]
    · rw [if_neg hmatch, if_neg (mt hauthentic.mp hmatch)]

@[simp] theorem decoded_timestamp :
    (decoded key nonce packet).header.timestamp = packet.header.timestamp := by
  unfold decoded
  by_cases hplain : NoCrypto packet.header.flags
  · simp [hplain]
  · simp [hplain]

/-- Decryption leaves a payload of the size that it counts. -/
theorem decoded_counted (hsized : Sized packet) :
    (decoded key nonce packet).header.messageSize.toNat
        = (decoded key nonce packet).payload.length
      ↔ Counted packet := by
  unfold decoded plainText Counted
  by_cases hplain : NoCrypto packet.header.flags
  · simp [hplain, eq_comm]
  · obtain ⟨hsize, htag⟩ := hsized hplain
    have hminus := plainSize_of_le (hsize ▸ htag)
    rw [if_neg hplain, if_neg hplain, ← cipherText_eq, cipherText_length,
      List.length_take_of_le (Nat.sub_le _ _)]
    refine iff_of_true ?_ fun h => absurd h hplain
    show plainSize packet.header = _
    omega

-- ============================================================== the result

/-- The checks of a decrypted packet, in terms of the packet on the wire. -/
theorem checkPacket_exact (hnow : (timestampLimit.toNat : Int) ≤ now.toInt)
    (hsized : Sized packet) :
    checkPacket now (decoded key nonce packet)
      = if ¬InTime now packet then
          .error (.timestamp packet.header.timestamp)
        else if ¬Counted packet then
          .error (.messageLength (decoded key nonce packet).header.messageSize
            (decoded key nonce packet).payload.length)
        else .ok (decoded key nonce packet) := by
  have hstale : timestampLimit
        < now.toUInt64 - (decoded key nonce packet).header.timestamp
      ↔ ¬InTime now packet := by
    rw [decoded_timestamp, ← fresh_iff hnow, Fresh, not_not]
  have hcount : ¬(decoded key nonce packet).header.messageSize.toNat
        = (decoded key nonce packet).payload.length ↔ ¬Counted packet :=
    not_congr (decoded_counted hsized)
  rw [decoded_timestamp] at hstale
  rw [checkPacket, decoded_timestamp]
  simp only [hstale, hcount]

/-- Deserialised without an error is complete. -/
theorem complete_of_quickDeserialization {w : Bytes}
    (h : quickDeserialization w = (packet, 0)) :
    Complete w ∧ packetOf w = packet := by
  by_cases hcomplete : Complete w
  · rw [quickDeserialization_complete hcomplete] at h
    exact ⟨hcomplete, congrArg Prod.fst h⟩
  · obtain ⟨p, e, he, hread⟩ := quickDeserialization_not_complete hcomplete
    rw [hread] at h
    exact absurd (congrArg Prod.snd h) he

/-- `ReadPacket` runs the three tests in order. -/
theorem readPacket_eq {w : Bytes} (hkey : key.length = 32)
    (hnow : (timestampLimit.toNat : Int) ≤ now.toInt)
    (hread : quickDeserialization w = (packet, 0)) (hsized : Sized packet) :
    readPacket now w nonce key
      = .ok (if ¬Authentic key nonce packet then .error .tag
        else if ¬InTime now packet then
          .error (.timestamp packet.header.timestamp)
        else if ¬Counted packet then
          .error (.messageLength (decoded key nonce packet).header.messageSize
            (decoded key nonce packet).payload.length)
        else .ok (decoded key nonce packet)) := by
  obtain ⟨hcomplete, hpacket⟩ := complete_of_quickDeserialization hread
  rw [readPacket_complete hkey hcomplete, hpacket,
    decodePayload_exact hkey hsized, ← checkPacket_exact hnow hsized]
  by_cases hauthentic : Authentic key nonce packet
  · rw [if_pos hauthentic, if_neg (not_not_intro hauthentic)]
    rfl
  · rw [if_neg hauthentic, if_pos hauthentic]
    rfl

/-- Decryption leaves the header alone but for the size. -/
theorem decoded_header :
    (decoded key nonce packet).header = { packet.header with
      messageSize := (decoded key nonce packet).header.messageSize } := by
  unfold decoded
  by_cases hplain : NoCrypto packet.header.flags
  · simp [hplain]
  · simp [hplain]

/-- For every buffer that deserialises, every clock past the limit, nonce
and key: the packet is accepted exactly if it passes the three tests, with
its payload decrypted and counted, and otherwise gets the error of the first
test that it fails. -/
theorem readPacket_exact {w : Bytes} (hkey : key.length = 32)
    (hnow : (timestampLimit.toNat : Int) ≤ now.toInt)
    (hread : quickDeserialization w = (packet, 0)) (hsized : Sized packet)
    (nonce : UInt64) :
    ∃ r, readPacket now w nonce key = .ok r
      ∧ ((∃ p, r = .ok p)
        ↔ Authentic key nonce packet ∧ InTime now packet ∧ Counted packet)
      ∧ (∀ p, r = .ok p →
        p.payload = plainText key nonce packet
          ∧ p.header.messageSize.toNat = p.payload.length
          ∧ p.header
            = { packet.header with messageSize := p.header.messageSize })
      ∧ ∀ e, r = .error e → e.getCode = refusal key nonce now packet := by
  refine ⟨_, readPacket_eq hkey hnow hread hsized, ?_⟩
  unfold refusal
  by_cases hauthentic : Authentic key nonce packet
  · by_cases htime : InTime now packet
    · by_cases hcount : Counted packet
      · simp only [hauthentic, htime, hcount, not_true_eq_false, if_false]
        refine ⟨by simp, ?_, fun e he => nomatch he⟩
        intro p hp
        cases hp
        exact ⟨rfl, (decoded_counted hsized).mpr hcount, decoded_header⟩
      · simp [hauthentic, htime, hcount, PacketError.getCode]
    · simp [hauthentic, htime, PacketError.getCode]
  · simp [hauthentic, PacketError.getCode]

/-- The packet of one encrypted byte, at the end of the time limit. -/
theorem readPacket_exact_limit :
    ∃ r, readPacket 1030 (created 1000 [7] 1 Flags.noFlags 3 4
        (List.replicate 32 0) ++ []) 3 (List.replicate 32 0) = .ok r
      ∧ ((∃ p, r = .ok p)
        ↔ Authentic (List.replicate 32 0) 3 (packetOf (created 1000 [7] 1
            Flags.noFlags 3 4 (List.replicate 32 0) ++ []))
          ∧ InTime 1030 (packetOf (created 1000 [7] 1 Flags.noFlags 3 4
            (List.replicate 32 0) ++ []))
          ∧ Counted (packetOf (created 1000 [7] 1 Flags.noFlags 3 4
            (List.replicate 32 0) ++ []))) := by
  have hlimit : ([7] : Bytes).length ≤ tcpPayloadSizeMax := by decide
  have hlength : (encodedPayload [7] (createHeader 1000 [7] 1 Flags.noFlags 3 4)
      (List.replicate 32 0) 3).length = 17 := encodedPayload_length hlimit 3
  obtain ⟨hcomplete, hpacket⟩ :=
    complete_created hlimit 1000 1 Flags.noFlags 3 4 []
  have hsized : Sized (packetOf (created 1000 [7] 1 Flags.noFlags 3 4
      (List.replicate 32 0) ++ [])) := by
    intro _
    rw [hpacket]
    exact ⟨hlength, hlength ▸ by norm_num⟩
  have hkey : (List.replicate 32 (0 : UInt8)).length = 32 :=
    List.length_replicate
  have hnow : (timestampLimit.toNat : Int) ≤ (1030 : Int64).toInt := by decide
  obtain ⟨r, hr, haccept, -⟩ := readPacket_exact hkey hnow
    (quickDeserialization_complete hcomplete) hsized 3
  exact ⟨r, hr, haccept⟩

end Remc.Net
