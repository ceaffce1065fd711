/-
`ReadPacket` on buffers from the network.

# Preconditions

The message size of the header and the size in front of the payload are
two numbers, of which only one bounds the other. `ReadsSafely` is what
the decryption branch needs of them; `SafeWire` is what a buffer must
look like for it, byte by byte (`readsSafely_iff`). A buffer of zeros
does not look like that.

# Tags

What `ReadPacket` accepts with the `NoCrypto` bit clear carries the tag
of its own header and ciphertext; with the bit set no tag is looked at,
and the bit is not protected by anything else.
-/
import Remc.Net.RoundTrip

namespace Remc.Net

open Crypto Bitsery

variable {key : Bytes}

-- ============================================================ preconditions

/-- `ReadPacket` ends with a packet or an error, and on the way, where it
takes the decryption branch: the message size is not below a tag's, the
plain text it makes room for is no longer than the buffer, `Decrypt`'s
size assertion holds at the call, and its two spans are in range. -/
def ReadsSafely (now : Int64) (w : Bytes) (nonce : UInt64) (key : Bytes) :
    Prop :=
  (∃ r, readPacket now w nonce key = .ok r)
    ∧ ∀ packet, quickDeserialization w = (packet, 0) →
      ¬NoCrypto packet.header.flags →
        16 ≤ packet.header.messageSize.toNat
          ∧ plainSize packet.header ≤ w.length
          ∧ packet.payload.length = plainSize packet.header + 0 + 16
          ∧ 16 ≤ packet.payload.length

/-- The buffer lacks the payload it announces, or has the `NoCrypto` bit,
or the size in front of the payload is the message size and has room for
a tag. -/
def SafeWire (w : Bytes) : Prop :=
  ¬Complete w ∨ NoCrypto (headerOf w).flags
    ∨ (sizeAt w 34 = (headerOf w).messageSize.toNat
      ∧ 16 ≤ (headerOf w).messageSize.toNat)

/-- A complete buffer's payload has the size in front of it. -/
theorem packetOf_payload_length {w : Bytes} (h : Complete w) :
    (packetOf w).payload.length = sizeAt w 34 := by
  have hlen := h.2
  show (containerBytes w 34).length = _
  unfold containerBytes
  rw [List.length_take, List.length_drop]
  omega

/-- From 16 on, taking the tag off the message size does not wrap. -/
theorem plainSize_of_le {h : Header} (hsize : 16 ≤ h.messageSize.toNat) :
    plainSize h + 16 = h.messageSize.toNat := by
  have hlt := h.messageSize.toNat_lt
  have h16 : (16 : UInt32).toNat = 16 := rfl
  rw [plainSize, UInt32.toNat_sub, h16]
  omega

theorem readsSafely_of_safeWire {w : Bytes} (hkey : key.length = 32)
    (h : SafeWire w) (now : Int64) (nonce : UInt64) :
    ReadsSafely now w nonce key := by
  by_cases hcomplete : Complete w
  · have hread := readPacket_complete hkey hcomplete now nonce
    have hpacket := quickDeserialization_complete hcomplete
    rcases h with hnot | hplain | ⟨hsize, htag⟩
    · exact absurd hcomplete hnot
    · constructor
      · rw [hread, decodePayload_noCrypto
          (hplain : NoCrypto (packetOf w).header.flags)]
        exact ⟨_, rfl⟩
      · intro packet hdes hcrypto
        rw [hpacket] at hdes
        cases hdes
        exact absurd hplain hcrypto
    · have hlen : (packetOf w).payload.length
          = plainSize (packetOf w).header + 16 := by
        rw [packetOf_payload_length hcomplete, hsize]
        exact (plainSize_of_le htag).symm
      constructor
      · by_cases hplain : NoCrypto (packetOf w).header.flags
        · rw [hread, decodePayload_noCrypto hplain]
          exact ⟨_, rfl⟩
        · rw [hread, decodePayload_eq hkey hplain hlen]
          exact ⟨_, rfl⟩
      · intro packet hdes _
        rw [hpacket] at hdes
        cases hdes
        have hfits := hcomplete.2
        have hpayload := packetOf_payload_length hcomplete
        exact ⟨htag, by omega, hlen, by omega⟩
  · constructor
    · obtain ⟨e, he⟩ := readPacket_not_complete hkey hcomplete now nonce
      exact ⟨_, he⟩
    · intro packet hdes _
      obtain ⟨p, e, he, hdes'⟩ := quickDeserialization_not_complete hcomplete
      rw [hdes'] at hdes
      cases hdes
      exact absurd rfl he

theorem safeWire_of_readsSafely {now : Int64} {w : Bytes} {nonce : UInt64}
    (h : ReadsSafely now w nonce key) : SafeWire w := by
  by_cases hcomplete : Complete w
  · by_cases hplain : NoCrypto (headerOf w).flags
    · exact Or.inr (Or.inl hplain)
    · obtain ⟨htag, -, hlen, -⟩ := h.2 (packetOf w)
        (quickDeserialization_complete hcomplete) hplain
      rw [packetOf_payload_length hcomplete, Nat.add_zero,
        plainSize_of_le htag] at hlen
      exact Or.inr (Or.inr ⟨hlen, htag⟩)
  · exact Or.inl hcomplete

/-- `ReadPacket` keeps every precondition on a buffer exactly when the
buffer's two sizes agree and have room for a tag, or decryption is not
reached. -/
theorem readsSafely_iff (hkey : key.length = 32) (now : Int64) (w : Bytes)
    (nonce : UInt64) : ReadsSafely now w nonce key ↔ SafeWire w :=
  ⟨safeWire_of_readsSafely, fun h => readsSafely_of_safeWire hkey h now nonce⟩

/-- A header of zeros and nothing behind it is read safely. -/
theorem readsSafely_zeros :
    ReadsSafely 0 (List.replicate 34 0) 0 (List.replicate 32 0) :=
  (readsSafely_iff (by decide) 0 _ 0).mpr (Or.inl (by decide))

/-- A read buffer of zeros, which is what one zero byte from any client
leaves behind: the assertion of `Decrypt` fails. -/
theorem zeros_violate :
    readPacket 0 (List.replicate tcpTotalPacketSize 0) 0
        (List.replicate 32 0) = .error .cipherSize
      ∧ ¬∀ (now : Int64) (w : Bytes) (nonce : UInt64) (key : Bytes),
          key.length = 32 → ReadsSafely now w nonce key := by
  have hcomplete : Complete (List.replicate tcpTotalPacketSize 0) := by
    decide +kernel
  have hcrypto : ¬NoCrypto
      (packetOf (List.replicate tcpTotalPacketSize 0)).header.flags := by
    decide +kernel
  have hsize : plainSize
      (packetOf (List.replicate tcpTotalPacketSize 0)).header
        = 2 ^ 32 - 16 := by
    decide +kernel
  have hviolates : readPacket 0 (List.replicate tcpTotalPacketSize 0) 0
      (List.replicate 32 0) = .error .cipherSize := by
    rw [readPacket_complete (by decide) hcomplete,
      decodePayload_of_size_ne (by decide) hcrypto]
    · rfl
    · have hlen := hcomplete.2
      rw [packetOf_payload_length hcomplete, hsize]
      rw [List.length_replicate] at hlen
      have htotal : tcpTotalPacketSize = 568 := rfl
      omega
  refine ⟨hviolates, fun hall => ?_⟩
  obtain ⟨r, hr⟩ := (hall 0 (List.replicate tcpTotalPacketSize 0) 0
    (List.replicate 32 0) (by decide)).1
  rw [hviolates] at hr
  cases hr

-- ===================================================================== tags

/-- The buffer's payload ends with the tag of the buffer's own header and
of the payload before it. -/
def CarriesTag (key : Bytes) (nonce : UInt64) (w : Bytes) : Prop :=
  let body := containerBytes w 34
  body.drop (body.length - 16)
    = tag key (nonce96 nonce) (serializedHeader (headerOf w))
      (body.take (body.length - 16))

/-- Checking a packet changes nothing. -/
theorem checkPacket_ok {now : Int64} {packet p : Packet}
    (h : checkPacket now packet = .ok p) : p = packet := by
  unfold checkPacket at h
  split at h
  next => cases h
  next =>
    split at h
    next => cases h
    next =>
      cases h
      rfl

/-- A packet passes the checks exactly if it is fresh and has as many
bytes as its header says. -/
theorem checkPacket_ok_iff {now : Int64} {packet : Packet} :
    checkPacket now packet = .ok packet
      ↔ Fresh now packet.header.timestamp
        ∧ packet.header.messageSize.toNat = packet.payload.length := by
  unfold checkPacket
  constructor
  · intro h
    split at h
    next => cases h
    next hfresh =>
      split at h
      next => cases h
      next hsize => exact ⟨hfresh, not_not.mp hsize⟩
  · rintro ⟨hfresh, hsize⟩
    exact (if_neg hfresh).trans (if_neg (not_not_intro hsize))

/-- Decryption takes the tag off the message size, and leaves the rest of
the header alone. -/
theorem decodePayload_header {packet p : Packet} {nonce : UInt64}
    (h : decodePayload packet key nonce = .ok (.ok p)) :
    p.header = if NoCrypto packet.header.flags then packet.header
      else { packet.header with
        messageSize := packet.header.messageSize - 16 } := by
  unfold decodePayload at h
  split at h
  next hplain =>
    cases h
    rw [if_pos hplain]
  next hcrypto =>
    obtain ⟨cc20, -, h⟩ := bind_eq_ok h
    obtain ⟨⟨ok, payload, _, _⟩, -, h⟩ := bind_eq_ok h
    dsimp only at h
    split at h
    next =>
      cases h
      rw [if_neg hcrypto]
    next => cases h

/-- What is accepted was complete, and passed the decryption and the
checks. -/
theorem readPacket_accepted {w : Bytes} {p : Packet} {now : Int64}
    {nonce : UInt64} (hkey : key.length = 32)
    (h : readPacket now w nonce key = .ok (.ok p)) :
    Complete w ∧ decodePayload (packetOf w) key nonce = .ok (.ok p)
      ∧ checkPacket now p = .ok p := by
  by_cases hcomplete : Complete w
  · rw [readPacket_complete hkey hcomplete] at h
    cases hdecode : decodePayload (packetOf w) key nonce with
    | error v =>
        rw [hdecode] at h
        cases h
    | ok decoded =>
        rw [hdecode] at h
        have hcheck : decoded >>= checkPacket now = .ok p := by
          injection h
        obtain ⟨q, rfl, hq⟩ := bind_eq_ok hcheck
        cases checkPacket_ok hq
        exact ⟨hcomplete, rfl, hq⟩
  · obtain ⟨e, he⟩ := readPacket_not_complete hkey hcomplete now nonce
    rw [he] at h
    cases h

/-- The flags of an accepted packet are those on the wire. -/
theorem accepted_flags {w : Bytes} {p : Packet} {now : Int64} {nonce : UInt64}
    (hkey : key.length = 32) (h : readPacket now w nonce key = .ok (.ok p)) :
    p.header.flags = (headerOf w).flags := by
  obtain ⟨-, hdecode, -⟩ := readPacket_accepted hkey h
  rw [decodePayload_header hdecode]
  split <;> rfl

/-- An accepted packet that was encrypted has a payload of its message
size on the wire, less the tag. -/
theorem accepted_payload_length {w : Bytes} {p : Packet} {now : Int64}
    {nonce : UInt64} (hkey : key.length = 32)
    (hcrypto : ¬NoCrypto (headerOf w).flags)
    (h : readPacket now w nonce key = .ok (.ok p)) :
    p.payload.length = plainSize (headerOf w) := by
  obtain ⟨-, hdecode, hcheck⟩ := readPacket_accepted hkey h
  have hwire : ¬NoCrypto (packetOf w).header.flags := hcrypto
  obtain ⟨-, hsize⟩ := checkPacket_ok_iff.mp hcheck
  rw [← hsize, decodePayload_header hdecode, if_neg hwire]
  rfl

/-- What `ReadPacket` accepts with the `NoCrypto` bit clear carries its
tag; with the bit set it is returned as it was on the wire. -/
theorem accepted_carriesTag {w : Bytes} {p : Packet} {now : Int64}
    {nonce : UInt64} (hkey : key.length = 32)
    (h : readPacket now w nonce key = .ok (.ok p)) :
    (¬NoCrypto (headerOf w).flags → CarriesTag key nonce w)
      ∧ (NoCrypto (headerOf w).flags → p = packetOf w) := by
  obtain ⟨-, hdecode, -⟩ := readPacket_accepted hkey h
  constructor
  · intro hcrypto
    by_cases hsize : (packetOf w).payload.length
        = plainSize (packetOf w).header + 16
    · rw [decodePayload_eq hkey hcrypto hsize] at hdecode
      apply (opened_isSome_iff key (nonce96 nonce)
        (serializedHeader (headerOf w)) (containerBytes w 34)).mp
      cases hopen : opened key (nonce96 nonce)
          (serializedHeader (headerOf w)) (containerBytes w 34) with
      | some m => rfl
      | none =>
          have hnone : opened key (nonce96 nonce) (serializedHeader
              (packetOf w).header) (packetOf w).payload = none := hopen
          rw [hnone] at hdecode
          cases hdecode
    · rw [decodePayload_of_size_ne hkey hcrypto hsize] at hdecode
      cases hdecode
  · intro hplain
    rw [decodePayload_noCrypto (hplain : NoCrypto (packetOf w).header.flags)]
      at hdecode
    cases hdecode
    rfl

/-- A packet as it was created is accepted and carries its tag. -/
theorem accepted_carriesTag_created :
    (¬NoCrypto (headerOf (created 1000 [7] 1 Flags.noFlags 3 4
        (List.replicate 32 0) ++ [])).flags →
      CarriesTag (List.replicate 32 0) 3 (created 1000 [7] 1 Flags.noFlags 3 4
        (List.replicate 32 0) ++ []))
    ∧ (NoCrypto (headerOf (created 1000 [7] 1 Flags.noFlags 3 4
        (List.replicate 32 0) ++ [])).flags →
      sentPacket 1000 [7] 1 Flags.noFlags 3 4
        = packetOf (created 1000 [7] 1 Flags.noFlags 3 4
          (List.replicate 32 0) ++ [])) :=
  accepted_carriesTag (by decide)
    ((readPacket_created (by decide) (by decide) (fun _ => rfl) 1000 1000 1 4
      []).trans (congrArg Except.ok (checkPacket_sentPacket
        (by decide) (by decide) 1 Flags.noFlags 3 4)))

/-- A header with an empty sealed payload, and the header it becomes when
the `NoCrypto` bit is set. -/
def downgraded (flags : UInt32) : Header where
  version := 1
  flags := flags
  timestamp := 1000
  messageId := 4
  messageSize := 16
  nonce := 3

/-- The two headers have different tags. -/
theorem tag_downgraded_ne :
    tag (List.replicate 32 0) (nonce96 3)
        (headerBytes (downgraded Flags.noFlags) ++ List.replicate 94 0) []
      ≠ tag (List.replicate 32 0) (nonce96 3)
        (headerBytes (downgraded Flags.noCrypto) ++ List.replicate 94 0) []
    := by
  rw [tag_eq_block, tag_eq_block]
  decide +kernel

/-- A packet with the `NoCrypto` bit and a payload of its message size is
accepted under any key. -/
theorem readPacket_noCrypto {h : Header} {body : Bytes} {now : Int64}
    (hkey : key.length = 32) (hplain : NoCrypto h.flags)
    (hsize : body.length = h.messageSize.toNat)
    (hlimit : body.length < 0x40000000) (hfresh : Fresh now h.timestamp)
    (nonce : UInt64) (extra : Bytes) :
    readPacket now (wire h body ++ extra) nonce key
      = .ok (.ok { header := h, payload := body }) := by
  obtain ⟨hcomplete, hpacket⟩ := complete_wire extra hsize.le hlimit
  have hdecode : decodePayload ⟨h, body⟩ key nonce = .ok (.ok ⟨h, body⟩) :=
    decodePayload_noCrypto hplain nonce
  rw [readPacket_complete hkey hcomplete, hpacket, hdecode]
  have hcheck : checkPacket now ⟨h, body⟩ = .ok ⟨h, body⟩ := by
    unfold checkPacket
    exact (if_neg hfresh).trans (if_neg (not_not_intro hsize.symm))
  exact congrArg Except.ok hcheck

/-- The tag of a packet on the wire. -/
theorem carriesTag_wire {h : Header} {body : Bytes} {nonce : UInt64}
    (hsize : body.length = h.messageSize.toNat)
    (hlimit : body.length < 0x40000000) :
    CarriesTag key nonce (wire h body)
      ↔ body.drop (body.length - 16) = tag key (nonce96 nonce)
        (serializedHeader h) (body.take (body.length - 16)) := by
  obtain ⟨-, hpacket⟩ := complete_wire [] hsize.le hlimit
  rw [List.append_nil] at hpacket
  have hheader : (packetOf (wire h body)).header = h := by rw [hpacket]
  have hpayload : (packetOf (wire h body)).payload = body := by rw [hpacket]
  rw [packetOf_header] at hheader
  rw [packetOf_payload] at hpayload
  simp only [CarriesTag, hheader, hpayload]

/-- A change of one header bit makes `ReadPacket` return a packet whose
tag was never looked at, and is not the tag of its header. -/
theorem noCrypto_undetected :
    ¬∀ (key : Bytes) (t now : Int64) (payload : Bytes) (version : UInt16)
        (flags : UInt32) (nonce messageId : UInt64) (w w' : Bytes) (p : Packet),
        key.length = 32 → ¬NoCrypto flags →
        createPacket t payload version flags nonce messageId key
          = .ok (.ok w) →
        w'.length = w.length → (∃ i, i < 34 ∧ w'[i]? ≠ w[i]?) →
        readPacket now w' nonce key = .ok (.ok p) →
          CarriesTag key nonce w' := by
  intro hall
  -- the sealed empty payload: the tag alone
  obtain ⟨body, hbody⟩ : ∃ body, body = sealed (List.replicate 32 0)
    (nonce96 3) (serializedHeader (downgraded Flags.noFlags)) [] := ⟨_, rfl⟩
  have hlen : body.length = 16 := by rw [hbody, sealed_length, List.length_nil]
  have hcreate : createPacket 1000 [] 1 Flags.noFlags 3 4 (List.replicate 32 0)
      = .ok (.ok (wire (downgraded Flags.noFlags) body)) := by
    rw [hbody]
    exact createPacket_created (by decide) (by decide) 1000 1 Flags.noFlags 3 4
  have hlength : (wire (downgraded Flags.noCrypto) body).length
      = (wire (downgraded Flags.noFlags) body).length := by
    rw [wire_length, wire_length, framed_length, framed_length]
  have hdiffers : (wire (downgraded Flags.noCrypto) body)[2]?
      ≠ (wire (downgraded Flags.noFlags) body)[2]? := by
    have hbyte : ∀ flags, (wire (downgraded flags) body)[2]?
        = (headerBytes (downgraded flags))[2]? := by
      intro flags
      rw [wire, framed, List.append_assoc, List.append_assoc,
        List.getElem?_append_left (by rw [headerBytes_length]; decide)]
    rw [hbyte, hbyte]
    decide
  have hkey : (List.replicate 32 (0 : UInt8)).length = 32 := List.length_replicate
  have hplain : NoCrypto (downgraded Flags.noCrypto).flags := by decide
  have hfresh : Fresh 1000 (downgraded Flags.noCrypto).timestamp := by decide
  have hlimit : body.length < 0x40000000 := by omega
  have hread := readPacket_noCrypto hkey hplain hlen hlimit hfresh 3 []
  rw [List.append_nil] at hread
  have hcarries := hall (List.replicate 32 0) 1000 1000 [] 1 Flags.noFlags 3 4 _
    _ _ hkey (by decide) hcreate hlength ⟨2, by omega, hdiffers⟩ hread
  rw [carriesTag_wire hlen hlimit, hlen, Nat.sub_self,
    List.drop_zero, List.take_zero, hbody, sealed_nil] at hcarries
  rw [serializedHeader_eq, serializedHeader_eq] at hcarries
  exact tag_downgraded_ne hcarries

end Remc.Net
