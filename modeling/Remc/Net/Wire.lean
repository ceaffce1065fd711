/-
What packets look like on the wire, and what `CreatePacket` and
`ReadPacket` compute.

A serialised packet is `framed`: 34 bytes of header, the payload's size,
the payload. It sits in a vector that grows to 128 bytes with the first
field and once more if the packet is longer, so `wire` is the framed
packet and the zeros behind it; the header alone, which is the
associated data, always comes with 94 of them.

On reading, every buffer either has the payload it announces
(`Bitsery.Delimited`) and gives that packet, or gives an error. With
this the two functions have closed forms (`createPacket_eq`,
`decodePayload_eq`, `readPacket_complete`) from which everything
else about packets follows.
-/
import Remc.Net.Packet

namespace Remc.Net

open Crypto Bitsery

-- ================================================================= writing

/-- The fields of a header, in order. -/
def headerBytes (h : Header) : Bytes :=
  LittleEndian.toBytes 2 h.version.toNat
    ++ LittleEndian.toBytes 4 h.flags.toNat
    ++ LittleEndian.toBytes 8 h.timestamp.toNat
    ++ LittleEndian.toBytes 8 h.messageId.toNat
    ++ LittleEndian.toBytes 4 h.messageSize.toNat
    ++ LittleEndian.toBytes 8 h.nonce.toNat

/-- A packet: header, payload size, payload. -/
def framed (h : Header) (payload : Bytes) : Bytes :=
  headerBytes h ++ OutputBufferAdapter.sizeBytes payload.length ++ payload

/-- The vector that holds a packet of `n` bytes. -/
def wireSize (n : Nat) : Nat :=
  if n ≤ 128 then 128 else Vec.grownSize 128 128 n

/-- A packet as it is sent: with the zeros behind it. -/
def wire (h : Header) (payload : Bytes) : Bytes :=
  framed h payload ++ List.replicate
    (wireSize (framed h payload).length - (framed h payload).length) 0

@[simp] theorem headerBytes_length (h : Header) :
    (headerBytes h).length = 34 := by
  simp only [headerBytes, List.length_append, LittleEndian.toBytes_length]

theorem framed_length (h : Header) (payload : Bytes) :
    (framed h payload).length = 34
      + (OutputBufferAdapter.sizeBytes payload.length).length
      + payload.length := by
  simp only [framed, List.length_append, headerBytes_length]

theorem le_wireSize (n : Nat) : n ≤ wireSize n := by
  unfold wireSize
  split
  next h => exact h
  next => exact Vec.le_grownSize 128 128 n

/-- The vector is within every bound from 320 on that the packet is
within. -/
theorem wireSize_le {n m : Nat} (h : n ≤ m) (hm : 320 ≤ m) :
    wireSize n ≤ m := by
  unfold wireSize Vec.grownSize
  simp only
  split
  next => omega
  next => split <;> omega

theorem wire_length (h : Header) (payload : Bytes) :
    (wire h payload).length = wireSize (framed h payload).length := by
  have hle := le_wireSize (framed h payload).length
  rw [wire, List.length_append, List.length_replicate]
  omega

open OutputBufferAdapter in
/-- The header fills the first 34 of 128 bytes. -/
theorem serializeHeader_written (h : Header) :
    Written (serializeHeader .new h) (headerBytes h) 128 128 := by
  have hversion : Written (OutputBufferAdapter.new.writeBytes 2 h.version.toNat)
      (LittleEndian.toBytes 2 h.version.toNat) 128 128 :=
    written_new.write_grow (d := LittleEndian.toBytes 2 h.version.toNat)
      (Nat.zero_lt_succ 1)
  have hflags := hversion.write (d := LittleEndian.toBytes 4 h.flags.toNat)
    (by simp only [LittleEndian.toBytes_length]; omega)
  have htimestamp := hflags.write
    (d := LittleEndian.toBytes 8 h.timestamp.toNat)
    (by simp only [List.length_append, LittleEndian.toBytes_length]; omega)
  have hid := htimestamp.write (d := LittleEndian.toBytes 8 h.messageId.toNat)
    (by simp only [List.length_append, LittleEndian.toBytes_length]; omega)
  have hsize := hid.write (d := LittleEndian.toBytes 4 h.messageSize.toNat)
    (by simp only [List.length_append, LittleEndian.toBytes_length]; omega)
  exact hsize.write (d := LittleEndian.toBytes 8 h.nonce.toNat)
    (by simp only [List.length_append, LittleEndian.toBytes_length]; omega)

/-- The associated data: the header and 94 zeros. -/
theorem serializedHeader_eq (h : Header) :
    serializedHeader h = headerBytes h ++ List.replicate 94 0 := by
  have hdata := (serializeHeader_written h).data
  rwa [headerBytes_length] at hdata

/-- A packet whose payload is within its message size is serialised. -/
theorem serializedPacket_eq {h : Header} {payload : Bytes}
    (hmax : payload.length ≤ h.messageSize.toNat)
    (hlimit : payload.length < 0x40000000) :
    serializedPacket { header := h, payload := payload }
      = .ok (wire h payload) := by
  obtain ⟨a, capacity, hcontainer, hwritten⟩ :=
    (serializeHeader_written h).container1b hmax hlimit
      (by rw [headerBytes_length]; omega)
  have hdata := hwritten.data
  unfold serializedPacket serializePacket
  rw [hcontainer, ok_bind, hdata]
  rfl

-- ================================================================= reading

/-- The header in the first 34 bytes. -/
def headerOf (w : Bytes) : Header where
  version := UInt16.ofNat (field w 0 2)
  flags := UInt32.ofNat (field w 2 4)
  timestamp := UInt64.ofNat (field w 6 8)
  messageId := UInt64.ofNat (field w 14 8)
  messageSize := UInt32.ofNat (field w 22 4)
  nonce := UInt64.ofNat (field w 26 8)

/-- The packet in a buffer. -/
def packetOf (w : Bytes) : Packet where
  header := headerOf w
  payload := containerBytes w 34

@[simp] theorem packetOf_header (w : Bytes) :
    (packetOf w).header = headerOf w := rfl

@[simp] theorem packetOf_payload (w : Bytes) :
    (packetOf w).payload = containerBytes w 34 := rfl

/-- The buffer has the payload it announces: the size behind the header
is within the message size, and so many bytes follow it. -/
abbrev Complete (w : Bytes) : Prop :=
  Delimited w 34 (headerOf w).messageSize.toNat

/-- A field inside the first `k` bytes. -/
theorem field_take {w : Bytes} {k pos n : Nat} (h : pos + n ≤ k) :
    field (w.take k) pos n = field w pos n := by
  unfold field
  rw [List.drop_take, List.take_take, Nat.min_eq_left (by omega)]

theorem headerOf_take (w : Bytes) : headerOf (w.take 34) = headerOf w := by
  unfold headerOf
  rw [field_take (by decide), field_take (by decide), field_take (by decide),
    field_take (by decide), field_take (by decide), field_take (by decide)]

theorem reads_header : Reads readHeader 34 headerOf := by
  unfold readHeader
  refine ((reads_bytes 2).bind fun _ => (reads_bytes 4).bind fun _ =>
    (reads_bytes 8).bind fun _ => (reads_bytes 8).bind fun _ =>
    (reads_bytes 4).bind fun _ => (reads_bytes 8).bind fun _ =>
      reads_pure _).congr ?_
  intro bs _
  simp only [headerOf, field, List.drop_zero, List.take_take, List.drop_drop]
  rfl

/-- Running the deserialiser is all there is to it. -/
theorem quickDeserialization_of_run {w : Bytes} {packet : Packet}
    {a : InputBufferAdapter}
    (h : readPacketObject (readingAt w 0) = (packet, a)) :
    quickDeserialization w = (packet, a.error) := by
  have hnew : InputBufferAdapter.new w = readingAt w 0 := rfl
  rw [quickDeserialization, hnew, h]

/-- A buffer that has the payload it announces gives its packet. -/
theorem quickDeserialization_complete {w : Bytes} (h : Complete w) :
    quickDeserialization w = (packetOf w, 0) := by
  have hlen := h.2
  have hheader := reads_header.enough w 0 (by omega)
  rw [List.drop_zero, headerOf_take, Nat.zero_add] at hheader
  have hrun : readPacketObject (readingAt w 0)
      = (packetOf w, readingAt w (34 + sizeLength w 34 + sizeAt w 34)) := by
    rw [readPacketObject, run_bind hheader,
      run_bind (readContainer1b_delimited h)]
    rfl
  rw [quickDeserialization_of_run hrun, error_readingAt hlen]

/-- Any other buffer gives an error. -/
theorem quickDeserialization_not_complete {w : Bytes} (h : ¬Complete w) :
    ∃ p e, e ≠ 0 ∧ quickDeserialization w = (p, e) := by
  have herror : ∀ e : ReaderError, e ≠ .noError → e.toNat ≠ 0 := by
    intro e he
    cases e with
    | noError => exact absurd rfl he
    | readingError => decide
    | dataOverflow => decide
    | invalidData => decide
    | invalidPointer => decide
  by_cases hlen : 34 ≤ w.length
  · have hheader := reads_header.enough w 0 (by omega)
    rw [List.drop_zero, headerOf_take, Nat.zero_add] at hheader
    obtain ⟨payload, e, he, hpayload⟩ := readContainer1b_not_delimited hlen h
    have hrun : readPacketObject (readingAt w 0)
        = ({ header := headerOf w, payload := payload }, failed w e) := by
      rw [readPacketObject, run_bind hheader, run_bind hpayload]
      rfl
    have hresult := quickDeserialization_of_run hrun
    rw [error_failed he] at hresult
    exact ⟨_, _, herror e he, hresult⟩
  · have hne : ReaderError.dataOverflow ≠ .noError := by decide
    obtain ⟨header, hheader⟩ :=
      reads_header.short w 0 (Nat.zero_le _) (by omega)
    obtain ⟨payload, hpayload⟩ :=
      readContainer1b_failed (w := w) hne header.messageSize.toNat
    have hrun : readPacketObject (readingAt w 0)
        = ({ header := header, payload := payload },
          failed w .dataOverflow) := by
      rw [readPacketObject, run_bind hheader, run_bind hpayload]
      rfl
    have hresult := quickDeserialization_of_run hrun
    rw [error_failed hne] at hresult
    exact ⟨_, _, herror _ hne, hresult⟩

-- ------------------------------------------------- written and read back

/-- A number written at a position is the field there. -/
theorem field_written {w : Bytes} {pos n v : Nat} (pre post : Bytes)
    (hw : w = pre ++ (LittleEndian.toBytes n v ++ post))
    (hpos : pre.length = pos) (hv : v < 256 ^ n) : field w pos n = v := by
  unfold field
  rw [hw, ← hpos, List.drop_left,
    List.take_left' (LittleEndian.toBytes_length n v),
    LittleEndian.ofBytes_toBytes_of_lt hv]

/-- A written header is read back. -/
theorem headerOf_headerBytes (h : Header) (rest : Bytes) :
    headerOf (headerBytes h ++ rest) = h := by
  have hversion : field (headerBytes h ++ rest) 0 2 = h.version.toNat :=
    field_written [] _ (by simp only [headerBytes, List.append_assoc]; rfl)
      rfl h.version.toNat_lt
  have hflags : field (headerBytes h ++ rest) 2 4 = h.flags.toNat :=
    field_written (LittleEndian.toBytes 2 h.version.toNat) _
      (by simp only [headerBytes, List.append_assoc]; rfl) rfl
      h.flags.toNat_lt
  have htimestamp : field (headerBytes h ++ rest) 6 8 = h.timestamp.toNat :=
    field_written (LittleEndian.toBytes 2 h.version.toNat
        ++ LittleEndian.toBytes 4 h.flags.toNat) _
      (by simp only [headerBytes, List.append_assoc]; rfl) rfl
      h.timestamp.toNat_lt
  have hid : field (headerBytes h ++ rest) 14 8 = h.messageId.toNat :=
    field_written (LittleEndian.toBytes 2 h.version.toNat
        ++ LittleEndian.toBytes 4 h.flags.toNat
        ++ LittleEndian.toBytes 8 h.timestamp.toNat) _
      (by simp only [headerBytes, List.append_assoc]; rfl) rfl
      h.messageId.toNat_lt
  have hsize : field (headerBytes h ++ rest) 22 4 = h.messageSize.toNat :=
    field_written (LittleEndian.toBytes 2 h.version.toNat
        ++ LittleEndian.toBytes 4 h.flags.toNat
        ++ LittleEndian.toBytes 8 h.timestamp.toNat
        ++ LittleEndian.toBytes 8 h.messageId.toNat) _
      (by simp only [headerBytes, List.append_assoc]; rfl) rfl
      h.messageSize.toNat_lt
  have hnonce : field (headerBytes h ++ rest) 26 8 = h.nonce.toNat :=
    field_written (LittleEndian.toBytes 2 h.version.toNat
        ++ LittleEndian.toBytes 4 h.flags.toNat
        ++ LittleEndian.toBytes 8 h.timestamp.toNat
        ++ LittleEndian.toBytes 8 h.messageId.toNat
        ++ LittleEndian.toBytes 4 h.messageSize.toNat) _
      (by simp only [headerBytes, List.append_assoc]; rfl) rfl
      h.nonce.toNat_lt
  unfold headerOf
  rw [hversion, hflags, htimestamp, hid, hsize, hnonce]
  simp only [UInt16.ofNat_toNat, UInt32.ofNat_toNat, UInt64.ofNat_toNat]

theorem headerOf_framed (h : Header) (payload rest : Bytes) :
    headerOf (framed h payload ++ rest) = h := by
  rw [framed, List.append_assoc, List.append_assoc, headerOf_headerBytes]

/-- A framed packet is complete, whatever follows it, and is the packet
that is read. -/
theorem complete_framed {h : Header} {payload : Bytes} (rest : Bytes)
    (hmax : payload.length ≤ h.messageSize.toNat)
    (hlimit : payload.length < 0x40000000) :
    Complete (framed h payload ++ rest)
      ∧ packetOf (framed h payload ++ rest)
        = { header := h, payload := payload } := by
  have hheader := headerOf_framed h payload rest
  have hdelimited :=
    delimited_written (headerBytes h) rest hlimit hmax
  have hbytes := containerBytes_written (headerBytes h) rest hlimit
  rw [headerBytes_length, ← List.append_assoc, ← List.append_assoc,
    ← framed] at hdelimited hbytes
  unfold Complete packetOf
  rw [hheader, hbytes]
  exact ⟨hdelimited, rfl⟩

/-- A packet on the wire is complete, whatever follows it. -/
theorem complete_wire {h : Header} {payload : Bytes} (extra : Bytes)
    (hmax : payload.length ≤ h.messageSize.toNat)
    (hlimit : payload.length < 0x40000000) :
    Complete (wire h payload ++ extra)
      ∧ packetOf (wire h payload ++ extra)
        = { header := h, payload := payload } := by
  rw [wire, List.append_assoc]
  exact complete_framed _ hmax hlimit

-- =========================================================== closed forms

/-- The payload of a packet on the wire. -/
def encodedPayload (payload : Bytes) (header : Header) (sharedKey : Bytes)
    (nonce : UInt64) : Bytes :=
  if NoCrypto header.flags then payload
  else sealed sharedKey (nonce96 nonce) (serializedHeader header) payload

/-- Sealing adds a tag. -/
theorem encodedPayload_length_le (payload : Bytes) (header : Header)
    (sharedKey : Bytes) (nonce : UInt64) :
    (encodedPayload payload header sharedKey nonce).length
      ≤ payload.length + 16 := by
  unfold encodedPayload
  split
  next => exact Nat.le_add_right _ _
  next => rw [sealed_length]

variable {key : Bytes}

/-- The header announces the payload's size on the wire. -/
theorem encodedPayload_length {now : Int64} {payload : Bytes}
    {version : UInt16} {flags : UInt32} {nonce messageId : UInt64}
    (hsize : payload.length ≤ tcpPayloadSizeMax) (nonce' : UInt64) :
    (encodedPayload payload
        (createHeader now payload version flags nonce messageId) key
        nonce').length
      = (createHeader now payload version flags nonce messageId).messageSize.toNat
    := by
  have hsize' : payload.length ≤ 512 := hsize
  unfold encodedPayload createHeader
  by_cases hplain : NoCrypto flags
  · rw [if_pos hplain, if_pos hplain, UInt32.toNat_ofNat',
      Nat.mod_eq_of_lt (by omega)]
  · rw [if_neg hplain, if_neg hplain, sealed_length, UInt32.toNat_ofNat',
      Nat.mod_eq_of_lt (by omega)]

theorem encodePayload_eq {now : Int64} {payload : Bytes}
    {version : UInt16} {flags : UInt32} {nonce messageId : UInt64}
    (hkey : key.length = 32) (hsize : payload.length ≤ tcpPayloadSizeMax)
    (nonce' : UInt64) :
    encodePayload payload
        (createHeader now payload version flags nonce messageId) key nonce'
      = .ok (encodedPayload payload
        (createHeader now payload version flags nonce messageId) key nonce') := by
  have hlength : (encodedPayload payload
      (createHeader now payload version flags nonce messageId) key nonce').length
      = _ := encodedPayload_length hsize nonce'
  unfold encodePayload
  unfold encodedPayload at hlength ⊢
  by_cases hplain : NoCrypto
      (createHeader now payload version flags nonce messageId).flags
  · rw [if_pos hplain] at hlength ⊢
    rw [if_pos hplain]
    rw [← hlength, memcpyFrom_of_le (by omega), ok_bind,
      memcpyTo_of_le (by simp), List.drop_zero, List.take_length]
    simp [Ring.overwrite]
  · rw [if_neg hplain] at hlength ⊢
    rw [if_neg hplain]
    obtain ⟨a, hnew, hkeyed⟩ := Aead.new_eq_ok hkey
    obtain ⟨a', hencrypt, -⟩ := Aead.encrypt_spec hkeyed payload []
      (serializedHeader
        (createHeader now payload version flags nonce messageId))
      (nonce96 nonce')
    rw [List.length_nil, Nat.add_zero, List.append_nil] at hencrypt
    rw [sealed_length] at hlength
    rw [hnew, ok_bind, ← hlength, hencrypt]
    rfl

/-- `CreatePacket` with a 32-byte key: a payload within the limit gives
its wire bytes. -/
theorem createPacket_eq {payload : Bytes} (hkey : key.length = 32)
    (hsize : payload.length ≤ tcpPayloadSizeMax) (now : Int64)
    (version : UInt16) (flags : UInt32) (nonce messageId : UInt64) :
    createPacket now payload version flags nonce messageId key
      = .ok (.ok (wire
        (createHeader now payload version flags nonce messageId)
        (encodedPayload payload
          (createHeader now payload version flags nonce messageId) key
          nonce))) := by
  have hargs : ¬(tcpPayloadSizeMax < payload.length ∨ key.isEmpty) := by
    rintro (hgt | hempty)
    · exact Nat.not_lt_of_le hsize hgt
    · cases key with
      | nil => cases hkey
      | cons _ _ => cases hempty
  have hlength : (encodedPayload payload
      (createHeader now payload version flags nonce messageId) key nonce).length
      = _ := encodedPayload_length hsize nonce
  unfold createPacket
  rw [if_neg hargs]
  simp only [encodePayload_eq hkey hsize nonce, ok_bind]
  rw [serializedPacket_eq hlength.le]
  · rfl
  · have hle := encodedPayload_length_le payload
      (createHeader now payload version flags nonce messageId) key nonce
    have hsize' : payload.length ≤ 512 := hsize
    omega

/-- A payload beyond the limit is an error. -/
theorem createPacket_of_gt {payload : Bytes}
    (hsize : tcpPayloadSizeMax < payload.length) (now : Int64)
    (version : UInt16) (flags : UInt32) (nonce messageId : UInt64) :
    createPacket now payload version flags nonce messageId key
      = .ok (.error (.createArguments payload.length)) := by
  unfold createPacket
  rw [if_pos (Or.inl hsize)]
  rfl

/-- Decryption with a 32-byte key, where the payload has the size of a
plain text and a tag. -/
theorem decodePayload_eq {packet : Packet} (hkey : key.length = 32)
    (hcrypto : ¬NoCrypto packet.header.flags)
    (hsize : packet.payload.length = plainSize packet.header + 16)
    (nonce : UInt64) :
    decodePayload packet key nonce
      = .ok (match opened key (nonce96 nonce)
          (serializedHeader packet.header) packet.payload with
        | some m => .ok {
            header := { packet.header with
              messageSize := packet.header.messageSize - 16 }
            payload := m }
        | none => .error .tag) := by
  obtain ⟨a, hnew, hkeyed⟩ := Aead.new_eq_ok hkey
  have hlen : packet.payload.length
      = (List.replicate (plainSize packet.header) (0 : UInt8)).length
        + ([] : Bytes).length + 16 := by
    rw [List.length_replicate, hsize]
    rfl
  obtain ⟨a', hdecrypt, -⟩ := Aead.decrypt_spec hkeyed
    (serializedHeader packet.header) (nonce96 nonce) hlen
  unfold decodePayload
  rw [if_neg hcrypto, hnew, ok_bind, hdecrypt, ok_bind]
  cases hopen : opened key (nonce96 nonce) (serializedHeader packet.header)
      packet.payload with
  | none => rfl
  | some m =>
      have hm := opened_length hopen
      have htake : m.take (List.replicate (plainSize packet.header)
          (0 : UInt8)).length = m := by
        apply List.take_of_length_le
        rw [List.length_replicate]
        omega
      show Except.ok (Except.ok (Packet.mk _ (m.take _))) = _
      rw [htake]

/-- Any other size violates the assertion of `Decrypt`. -/
theorem decodePayload_of_size_ne {packet : Packet} (hkey : key.length = 32)
    (hcrypto : ¬NoCrypto packet.header.flags)
    (hsize : packet.payload.length ≠ plainSize packet.header + 16)
    (nonce : UInt64) :
    decodePayload packet key nonce = .error .cipherSize := by
  obtain ⟨a, hnew, -⟩ := Aead.new_eq_ok hkey
  have hlen : packet.payload.length
      ≠ (List.replicate (plainSize packet.header) (0 : UInt8)).length
        + ([] : Bytes).length + 16 := by
    rw [List.length_replicate]
    exact hsize
  unfold decodePayload
  rw [if_neg hcrypto, hnew, ok_bind, Aead.decrypt_of_size_ne a _ _ hlen]
  rfl

theorem decodePayload_noCrypto {packet : Packet}
    (hplain : NoCrypto packet.header.flags) (nonce : UInt64) :
    decodePayload packet key nonce = .ok (.ok packet) := by
  rw [decodePayload, if_pos hplain]
  rfl

/-- `ReadPacket` of a buffer that has the payload it announces. -/
theorem readPacket_complete {w : Bytes} (hkey : key.length = 32)
    (h : Complete w) (now : Int64) (nonce : UInt64) :
    readPacket now w nonce key
      = (decodePayload (packetOf w) key nonce).map (· >>= checkPacket now) := by
  have hne : key.isEmpty = false := by
    cases key with
    | nil => cases hkey
    | cons _ _ => rfl
  unfold readPacket
  rw [hne, if_neg Bool.false_ne_true, quickDeserialization_complete h]
  show (if (0 : Nat) ≠ 0 then _ else _) = _
  rw [if_neg (not_not_intro rfl)]
  cases hdecode : decodePayload (packetOf w) key nonce with
  | error v => rfl
  | ok d => rfl

/-- `ReadPacket` of any other buffer ends with an error. -/
theorem readPacket_not_complete {w : Bytes} (hkey : key.length = 32)
    (h : ¬Complete w) (now : Int64) (nonce : UInt64) :
    ∃ e, readPacket now w nonce key = .ok (.error (.serialization e)) := by
  have hne : key.isEmpty = false := by
    cases key with
    | nil => cases hkey
    | cons _ _ => rfl
  obtain ⟨p, e, he, hread⟩ := quickDeserialization_not_complete h
  refine ⟨e, ?_⟩
  unfold readPacket
  rw [hne, hread]
  exact if_pos he

end Remc.Net
