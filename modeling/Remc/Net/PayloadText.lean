/-
The text of a received packet, as the callbacks read it.

`GetTag` and `GetPayloadAsString` are written for a payload that still ends
with its tag, as it stands on the wire (`getTag_sealed`). `ReadPacket`
returns the payload without the tag, and a packet with the `NoCrypto` bit
never had one. On what `ReadPacket` returns, `GetPayloadAsString` therefore
leaves out the last 16 bytes of the message, and all of a message of at most
16 (`payloadText_iff`).
-/
import Remc.Net.RoundTrip

namespace Remc.Net

open Crypto Bitsery

variable {key : Bytes}

-- ============================================================ the accessors

namespace Packet

/-- In one form for all lengths: a payload of at most 16 bytes has no text. -/
theorem getPayloadAsString_eq (p : Packet) :
    p.getPayloadAsString = p.payload.take (p.payload.length - 16) := by
  unfold getPayloadAsString
  by_cases hlen : 16 < p.payload.length
  · rw [if_pos hlen]
  · have hnone : p.payload.length - 16 = 0 := by omega
    rw [if_neg hlen, hnone, List.take_zero]

/-- The text is the payload where there is none. -/
theorem getPayloadAsString_eq_payload_iff (p : Packet) :
    p.getPayloadAsString = p.payload ↔ p.payload = [] := by
  rw [getPayloadAsString_eq]
  constructor
  · intro htext
    have hlen := congrArg List.length htext
    rw [List.length_take] at hlen
    apply List.eq_nil_of_length_eq_zero
    omega
  · intro hnil
    simp [hnil]

/-- On the wire, the two are the ciphertext and its tag. -/
theorem getTag_sealed (header : Header) {plain : Bytes} (hplain : plain ≠ [])
    (nonce : Nonce96) (aad : Bytes) :
    getTag ⟨header, sealed key nonce aad plain⟩
        = tag key nonce aad (cipherText key nonce plain)
      ∧ getPayloadAsString ⟨header, sealed key nonce aad plain⟩
        = cipherText key nonce plain := by
  have hpos := List.length_pos_of_ne_nil hplain
  have hlen : (sealed key nonce aad plain).length - 16
      = (cipherText key nonce plain).length := by
    rw [sealed_length, cipherText_length, Nat.add_sub_cancel]
  have hlong : 16 < (sealed key nonce aad plain).length := by
    rw [sealed_length]
    omega
  rw [getPayloadAsString_eq, getTag, if_pos hlong, hlen, sealed]
  simp

end Packet

-- =========================================================== the round trip

/-- For every payload within the limit and every header: the received text
is the payload without its last 16 bytes, so it is the payload exactly if
there is nothing to receive. -/
theorem payloadText_iff {payload : Bytes} (hkey : key.length = 32)
    (hsize : payload.length ≤ tcpPayloadSizeMax) {t now : Int64}
    (hfresh : Fresh now t.toUInt64) (version : UInt16) (flags : UInt32)
    (nonce messageId : UInt64) :
    ∃ w p, createPacket t payload version flags nonce messageId key
        = .ok (.ok w)
      ∧ readPacket now w nonce key = .ok (.ok p)
      ∧ p.getPayloadAsString = payload.take (payload.length - 16)
      ∧ (p.getPayloadAsString = payload ↔ payload = []) := by
  refine ⟨_, sentPacket t payload version flags nonce messageId,
    createPacket_created hkey hsize t version flags nonce messageId, ?_,
    Packet.getPayloadAsString_eq _,
    Packet.getPayloadAsString_eq_payload_iff _⟩
  have hnonce : ¬NoCrypto flags → nonce96 nonce = nonce96 nonce := fun _ => rfl
  have hread := readPacket_created hkey hsize hnonce t now version messageId []
  rw [List.append_nil] at hread
  rw [hread, checkPacket_sentPacket hsize hfresh]

/-- A message of two bytes, and one of seventeen without encryption. -/
theorem payloadText_iff_two :
    (∃ w p, createPacket 1000 [104, 105] 1 Flags.noFlags 3 4
          (List.replicate 32 0) = .ok (.ok w)
        ∧ readPacket 1001 w 3 (List.replicate 32 0) = .ok (.ok p)
        ∧ p.getPayloadAsString = [])
      ∧ ∃ w p, createPacket 1000 (List.replicate 17 104) 1 Flags.noCrypto 3 4
          (List.replicate 32 0) = .ok (.ok w)
        ∧ readPacket 1001 w 3 (List.replicate 32 0) = .ok (.ok p)
        ∧ p.getPayloadAsString = [104] := by
  have hkey : (List.replicate 32 (0 : UInt8)).length = 32 :=
    List.length_replicate
  have hfresh : Fresh 1001 (1000 : Int64).toUInt64 := by decide
  constructor
  · have hsize : ([104, 105] : Bytes).length ≤ tcpPayloadSizeMax := by decide
    obtain ⟨w, p, hcreate, hread, htext, -⟩ :=
      payloadText_iff hkey hsize hfresh 1 Flags.noFlags 3 4
    exact ⟨w, p, hcreate, hread, htext⟩
  · have hsize : (List.replicate 17 (104 : UInt8)).length
        ≤ tcpPayloadSizeMax := by decide
    obtain ⟨w, p, hcreate, hread, htext, -⟩ :=
      payloadText_iff hkey hsize hfresh 1 Flags.noCrypto 3 4
    exact ⟨w, p, hcreate, hread, htext⟩

/-- The message of two bytes is received as an empty text. -/
theorem short_text_lost :
    ∃ w p, createPacket 1000 [104, 105] 1 Flags.noFlags 3 4
        (List.replicate 32 0) = .ok (.ok w)
      ∧ readPacket 1000 w 3 (List.replicate 32 0) = .ok (.ok p)
      ∧ p.getPayloadAsString ≠ [104, 105] := by
  have hsize : ([104, 105] : Bytes).length ≤ tcpPayloadSizeMax := by decide
  refine ⟨_, sentPacket 1000 [104, 105] 1 Flags.noFlags 3 4,
    createPacket_created rfl hsize 1000 1 Flags.noFlags 3 4, ?_, ?_⟩
  · have hkey : (List.replicate 32 (0 : UInt8)).length = 32 :=
      List.length_replicate
    have hnonce : ¬NoCrypto Flags.noFlags → nonce96 3 = nonce96 3 :=
      fun _ => rfl
    have hread := readPacket_created hkey hsize hnonce 1000 1000 1 4 []
    rw [List.append_nil] at hread
    rw [hread, checkPacket_sentPacket hsize (fresh_self 1000)]
  · rw [Packet.getPayloadAsString_eq]
    exact List.cons_ne_nil _ _ ∘ Eq.symm

end Remc.Net
