/-
How a packet may be spelled on the wire.

bitsery writes the payload's size in one, two or four bytes, whichever is
the shortest, and reads any of them; and it does not look behind the
payload. `SizeForm` says what the three forms of a size denote, in numbers
rather than in shifts and masks, and `Spells` which buffers stand for a
packet. Those, and no others, are deserialised without an error
(`quickDeserialization_exact`).

So a packet has many spellings and one that is written. The tag covers the
header and the ciphertext and nothing else, so `ReadPacket` cannot tell
the spellings apart, and what it reads can be written again
(`respelled`).
-/
import Remc.Net.Hostile

namespace Remc.Bitsery

-- ================================================================== sizes

/-- What a size looks like, and the number it denotes: the top bits of the
first byte say how many bytes follow. -/
inductive SizeForm : Nat → Bytes → Prop
  | one (b : UInt8) (h : b.toNat < 0x80) : SizeForm b.toNat [b]
  | two (b c : UInt8) (hlow : 0x80 ≤ b.toNat) (hhigh : b.toNat < 0xc0) :
      SizeForm ((b.toNat - 0x80) * 2 ^ 8 + c.toNat) [b, c]
  | four (b c d e : UInt8) (h : 0xc0 ≤ b.toNat) :
      SizeForm (((b.toNat - 0xc0) * 2 ^ 8 + c.toNat) * 2 ^ 16
        + (d.toNat + 2 ^ 8 * e.toNat)) [b, c, d, e]

/-- A shift and an or are a product and a sum. -/
theorem shiftLeft_or (m : Nat) {i n : Nat} (h : n < 2 ^ i) :
    (m <<< i) ||| n = m * 2 ^ i + n := by
  rw [← Nat.shiftLeft_add_eq_or_of_lt h, Nat.shiftLeft_eq]

/-- The masks of `readSize` take the top bits off. -/
theorem mask_two {b : Nat} (hlow : 0x80 ≤ b) (hhigh : b < 0xc0) :
    b &&& 0x40 = 0 ∧ b &&& 0x7f = b - 0x80 := by
  obtain ⟨m, rfl⟩ := Nat.exists_eq_add_of_le hlow
  have htop : 1 <<< 7 ||| m = 0x80 + m := shiftLeft_or 1 (by omega)
  obtain ⟨hbit, hmask, -⟩ := size_tags m (by omega)
  rw [Nat.or_comm, show (0x80 : Nat) = 1 <<< 7 from rfl, htop] at hbit hmask
  exact ⟨hbit, hmask.trans (Nat.add_sub_cancel_left ..).symm⟩

theorem mask_four {b : Nat} (hlow : 0xc0 ≤ b) (hhigh : b < 0x100) :
    b &&& 0x40 ≠ 0 ∧ b &&& 0x3f = b - 0xc0 := by
  obtain ⟨m, rfl⟩ := Nat.exists_eq_add_of_le hlow
  have htop : 3 <<< 6 ||| m = 0xc0 + m := shiftLeft_or 3 (by omega)
  obtain ⟨-, -, hbit, hmask, -⟩ := size_tags m (by omega)
  rw [Nat.or_comm, show (0xc0 : Nat) = 3 <<< 6 from rfl, htop] at hbit hmask
  exact ⟨hbit, hmask.trans (Nat.add_sub_cancel_left ..).symm⟩

variable {b : UInt8}

theorem size_one (h : b.toNat < 0x80) (bs : Bytes) :
    sizeLength (b :: bs) 0 = 1 ∧ sizeAt (b :: bs) 0 = b.toNat := by
  unfold sizeLength sizeAt restLength restValue
  simp [field_cons_zero, h]

theorem size_two (hlow : 0x80 ≤ b.toNat) (hhigh : b.toNat < 0xc0) (c : UInt8)
    (bs : Bytes) :
    sizeLength (b :: c :: bs) 0 = 2
      ∧ sizeAt (b :: c :: bs) 0 = (b.toNat - 0x80) * 2 ^ 8 + c.toNat := by
  obtain ⟨hbit, hmask⟩ := mask_two hlow hhigh
  have hsum := shiftLeft_or (b.toNat - 0x80) (i := 8) c.toNat_lt
  unfold sizeLength sizeAt restLength restValue
  simp [field_cons_zero, hbit, hmask, hsum, Nat.not_lt_of_le hlow]

theorem size_four (h : 0xc0 ≤ b.toNat) (c d e : UInt8) (bs : Bytes) :
    sizeLength (b :: c :: d :: e :: bs) 0 = 4
      ∧ sizeAt (b :: c :: d :: e :: bs) 0
        = ((b.toNat - 0xc0) * 2 ^ 8 + c.toNat) * 2 ^ 16
          + (d.toNat + 2 ^ 8 * e.toNat) := by
  obtain ⟨hbit, hmask⟩ := mask_four h b.toNat_lt
  have hlow : 0x80 ≤ b.toNat := le_trans (by decide) h
  have hword : field (c :: d :: e :: bs) 1 2 = d.toNat + 2 ^ 8 * e.toNat := by
    simp [field, LittleEndian.ofBytes]
  have hlt : d.toNat + 2 ^ 8 * e.toNat < 2 ^ 16 := by
    have hd := d.toNat_lt
    have he := e.toNat_lt
    omega
  unfold sizeLength sizeAt restLength restValue
  simp only [field_cons_zero, List.drop_succ_cons, List.drop_zero, hword, hmask,
    if_neg (Nat.not_lt_of_le hlow), if_pos hbit,
    shiftLeft_or _ (i := 8) c.toNat_lt, shiftLeft_or _ hlt]
  trivial

/-- How many bytes a size takes is in its first byte. -/
theorem sizeLength_cons (b : UInt8) (bs bs' : Bytes) :
    sizeLength (b :: bs) 0 = sizeLength (b :: bs') 0 := by
  unfold sizeLength
  rw [field_cons_zero, field_cons_zero]

/-- A size is read as the number it denotes, whatever follows it. -/
theorem SizeForm.read {n : Nat} {size : Bytes} (h : SizeForm n size)
    (rest : Bytes) :
    sizeLength (size ++ rest) 0 = size.length
      ∧ sizeAt (size ++ rest) 0 = n := by
  cases h with
  | one b h => exact size_one h rest
  | two b c hlow hhigh => exact size_two hlow hhigh c rest
  | four b c d e h => exact size_four h c d e rest

/-- What is read as a size has one of the forms. -/
theorem sizeForm_of_length {w : Bytes} (h : sizeLength w 0 ≤ w.length) :
    SizeForm (sizeAt w 0) (w.take (sizeLength w 0)) := by
  cases w with
  | nil => simp [sizeLength] at h
  | cons b bs =>
      by_cases hone : b.toNat < 0x80
      · obtain ⟨hlength, hat⟩ := size_one hone bs
        rw [hlength, hat]
        exact .one b hone
      · have hlow : 0x80 ≤ b.toNat := Nat.le_of_not_lt hone
        by_cases htwo : b.toNat < 0xc0
        · rw [sizeLength_cons b bs [0], (size_two hlow htwo 0 []).1] at h
          obtain _ | ⟨c, bs⟩ := bs
          · simp at h
          obtain ⟨hlength, hat⟩ := size_two hlow htwo c bs
          rw [hlength, hat]
          exact .two b c hlow htwo
        · have hfour : 0xc0 ≤ b.toNat := Nat.le_of_not_lt htwo
          rw [sizeLength_cons b bs [0, 0, 0], (size_four hfour 0 0 0 []).1] at h
          obtain _ | ⟨c, _ | ⟨d, _ | ⟨e, bs⟩⟩⟩ := bs
          · simp at h
          · simp at h
          · simp at h
          obtain ⟨hlength, hat⟩ := size_four hfour c d e bs
          rw [hlength, hat]
          exact .four b c d e hfour

theorem SizeForm.lt {n : Nat} {size : Bytes} (h : SizeForm n size) :
    n < 0x40000000 := by
  cases h with
  | one b h => omega
  | two b c hlow hhigh =>
      have hc := c.toNat_lt
      omega
  | four b c d e h =>
      have hb := b.toNat_lt
      have hc := c.toNat_lt
      have hd := d.toNat_lt
      have he := e.toNat_lt
      omega

/-- What is written is one of the forms. -/
theorem sizeForm_sizeBytes {n : Nat} (hn : n < 0x40000000) :
    SizeForm n (OutputBufferAdapter.sizeBytes n) := by
  obtain ⟨hlength, hat⟩ := size_sizeBytes hn []
  rw [List.append_nil] at hlength hat
  have hform := sizeForm_of_length hlength.le
  rw [hlength, hat, List.take_length] at hform
  exact hform

/-- And the shortest. -/
theorem SizeForm.sizeBytes_le {n : Nat} {size : Bytes} (h : SizeForm n size) :
    (OutputBufferAdapter.sizeBytes n).length ≤ size.length := by
  cases h with
  | one b h => rw [OutputBufferAdapter.sizeBytes, if_pos h]; rfl
  | two b c hlow hhigh =>
      have hc := c.toNat_lt
      exact OutputBufferAdapter.sizeBytes_length_le_two (by omega)
  | four b c d e h =>
      unfold OutputBufferAdapter.sizeBytes
      split
      next => simp
      next => split <;> simp

/-- A size at a position is one at the start of what is there. -/
theorem size_drop (w : Bytes) (pos : Nat) :
    sizeLength w pos = sizeLength (w.drop pos) 0
      ∧ sizeAt w pos = sizeAt (w.drop pos) 0 := by
  unfold sizeLength sizeAt field
  rw [List.drop_zero, List.drop_drop]
  exact ⟨rfl, rfl⟩

/-- The bytes of a field are those at its position. -/
theorem toBytes_field {w : Bytes} {pos n : Nat} (h : pos + n ≤ w.length) :
    LittleEndian.toBytes n (field w pos n) = (w.drop pos).take n := by
  have hlength : ((w.drop pos).take n).length = n := by
    rw [List.length_take, List.length_drop]
    omega
  have hbytes := LittleEndian.toBytes_ofBytes ((w.drop pos).take n)
  rw [hlength] at hbytes
  exact hbytes

end Remc.Bitsery

namespace Remc.Net

open Bitsery

-- =============================================================== packets

/-- The header that is read is the header that was written. -/
theorem headerBytes_headerOf {w : Bytes} (h : 34 ≤ w.length) :
    headerBytes (headerOf w) = w.take 34 := by
  unfold headerBytes headerOf
  simp only [UInt16.toNat_ofNat', UInt32.toNat_ofNat', UInt64.toNat_ofNat']
  rw [show 2 ^ 16 = 256 ^ 2 from rfl, show 2 ^ 32 = 256 ^ 4 from rfl,
    show 2 ^ 64 = 256 ^ 8 from rfl]
  simp only [LittleEndian.toBytes_mod]
  rw [toBytes_field (by omega), toBytes_field (by omega),
    toBytes_field (by omega), toBytes_field (by omega),
    toBytes_field (by omega), toBytes_field (by omega),
    show 34 = 2 + 4 + 8 + 8 + 4 + 8 from rfl, List.take_add, List.take_add,
    List.take_add, List.take_add, List.take_add]
  rfl

/-- A buffer stands for a packet: the header, a size in any form, the
payload, and anything. -/
def Spells (w : Bytes) (packet : Packet) : Prop :=
  ∃ size rest, w = headerBytes packet.header
      ++ (size ++ (packet.payload ++ rest))
    ∧ SizeForm packet.payload.length size
    ∧ packet.payload.length ≤ packet.header.messageSize.toNat

/-- What stands for a packet has the payload it announces. -/
theorem Spells.complete {w : Bytes} {packet : Packet} (h : Spells w packet) :
    Complete w ∧ packetOf w = packet := by
  obtain ⟨size, rest, rfl, hsize, hmax⟩ := h
  have hheader := headerOf_headerBytes packet.header
    (size ++ (packet.payload ++ rest))
  obtain ⟨hlength, hat⟩ := hsize.read (packet.payload ++ rest)
  have hdrop : (headerBytes packet.header
      ++ (size ++ (packet.payload ++ rest))).drop 34
      = size ++ (packet.payload ++ rest) :=
    List.drop_left' (headerBytes_length packet.header)
  obtain ⟨hlength', hat'⟩ := size_drop (headerBytes packet.header
    ++ (size ++ (packet.payload ++ rest))) 34
  rw [hdrop, hlength] at hlength'
  rw [hdrop, hat] at hat'
  constructor
  · unfold Complete Delimited
    rw [hheader, hlength', hat']
    refine ⟨hmax, ?_⟩
    simp only [List.length_append, headerBytes_length]
    omega
  · unfold packetOf containerBytes
    rw [hheader, hlength', hat', ← List.drop_drop, hdrop, List.drop_left,
      List.take_left]

/-- A buffer that has the payload it announces stands for its packet. -/
theorem spells_packetOf {w : Bytes} (h : Complete w) :
    Spells w (packetOf w) := by
  obtain ⟨hmax, hlen⟩ := h
  obtain ⟨hlength, hat⟩ := size_drop w 34
  have hform : SizeForm (sizeAt w 34) ((w.drop 34).take (sizeLength w 34)) := by
    rw [hlength, hat]
    apply sizeForm_of_length
    rw [← hlength, List.length_drop]
    omega
  have hpayload : (containerBytes w 34).length = sizeAt w 34 := by
    rw [containerBytes, List.length_take, List.length_drop]
    omega
  refine ⟨(w.drop 34).take (sizeLength w 34),
    w.drop (34 + sizeLength w 34 + sizeAt w 34), ?_, ?_, ?_⟩
  · have hrest : containerBytes w 34
        ++ w.drop (34 + sizeLength w 34 + sizeAt w 34)
        = (w.drop 34).drop (sizeLength w 34) := by
      have h := List.take_append_drop (sizeAt w 34)
        (w.drop (34 + sizeLength w 34))
      rw [List.drop_drop] at h ⊢
      exact h
    show w = headerBytes (headerOf w) ++ (_ ++ (containerBytes w 34 ++ _))
    rw [headerBytes_headerOf (by omega), hrest, List.take_append_drop,
      List.take_append_drop]
  · show SizeForm (containerBytes w 34).length _
    rw [hpayload]
    exact hform
  · show (containerBytes w 34).length ≤ _
    rw [hpayload]
    exact hmax

theorem Spells.deserialized {w : Bytes} {packet : Packet}
    (h : Spells w packet) : quickDeserialization w = (packet, 0) := by
  obtain ⟨hcomplete, rfl⟩ := h.complete
  exact quickDeserialization_complete hcomplete

theorem spells_of_deserialized {w : Bytes} {packet : Packet}
    (h : quickDeserialization w = (packet, 0)) : Spells w packet := by
  by_cases hcomplete : Complete w
  · rw [quickDeserialization_complete hcomplete] at h
    cases h
    exact spells_packetOf hcomplete
  · obtain ⟨p, e, he, hfails⟩ := quickDeserialization_not_complete hcomplete
    rw [hfails] at h
    cases h
    exact absurd rfl he

/-- What bitsery deserialises without an error: exactly the buffers that
stand for a packet, and it gives that packet. -/
theorem quickDeserialization_exact (w : Bytes) (packet : Packet) :
    quickDeserialization w = (packet, 0) ↔ Spells w packet :=
  ⟨spells_of_deserialized, Spells.deserialized⟩

/-- What can be read can be written, and that is one of its spellings, with
none shorter; and `ReadPacket` does not tell the spellings of a packet
apart. -/
theorem respelled {w : Bytes} {packet : Packet}
    (h : quickDeserialization w = (packet, 0)) :
    (∃ extra, serializedPacket packet
        = .ok (framed packet.header packet.payload ++ extra)
      ∧ Spells (framed packet.header packet.payload ++ extra) packet
      ∧ (framed packet.header packet.payload).length ≤ w.length)
    ∧ ∀ w', Spells w' packet → ∀ (now : Int64) (nonce : UInt64) (key : Bytes),
      readPacket now w' nonce key = readPacket now w nonce key := by
  obtain ⟨size, rest, hw, hsize, hmax⟩ := spells_of_deserialized h
  constructor
  · refine ⟨_, serializedPacket_eq hmax hsize.lt, ?_, ?_⟩
    · refine ⟨OutputBufferAdapter.sizeBytes packet.payload.length,
        List.replicate (wireSize (framed packet.header packet.payload).length
          - (framed packet.header packet.payload).length) 0, ?_,
        sizeForm_sizeBytes hsize.lt, hmax⟩
      simp only [framed, List.append_assoc]
    · have hle := hsize.sizeBytes_le
      rw [framed_length, hw]
      simp only [List.length_append, headerBytes_length]
      omega
  · intro w' hw' now nonce key
    unfold readPacket
    rw [h, hw'.deserialized]

/-- The header of an encrypted message of two bytes, and its payload on the
wire. -/
def greetingHeader : Header :=
  createHeader 0 [104, 105] 1 Flags.noFlags 3 0

def greetingPayload : Bytes :=
  encodedPayload [104, 105] greetingHeader (List.replicate 32 0) 3

/-- With its size in two bytes, and without the zeros behind it, an
encrypted packet is read as the one that was sent: its tag verifies. -/
theorem respelled_encrypted :
    readPacket 5 (headerBytes greetingHeader ++ ([0x80, 18] ++ greetingPayload))
        3 (List.replicate 32 0)
      = .ok (.ok (sentPacket 0 [104, 105] 1 Flags.noFlags 3 0)) := by
  have hkey : (List.replicate 32 (0 : UInt8)).length = 32 :=
    List.length_replicate
  have hsize : ([104, 105] : Bytes).length ≤ tcpPayloadSizeMax := by decide
  have hlength : greetingPayload.length = greetingHeader.messageSize.toNat :=
    encodedPayload_length hsize 3
  let packet : Packet := { header := greetingHeader, payload := greetingPayload }
  have hsent : Spells (created 0 [104, 105] 1 Flags.noFlags 3 0
      (List.replicate 32 0) ++ []) packet := by
    obtain ⟨hcomplete, hpacket⟩ := complete_created hsize 0 1 Flags.noFlags 3 0 []
    rw [show packet = _ from hpacket.symm]
    exact spells_packetOf hcomplete
  have hform : SizeForm greetingPayload.length [0x80, 18] := by
    rw [hlength]
    exact .two 0x80 18 (by decide) (by decide)
  have htwo : Spells (headerBytes greetingHeader
      ++ ([0x80, 18] ++ greetingPayload)) packet :=
    ⟨[0x80, 18], [], by rw [List.append_nil], hform, hlength.le⟩
  rw [(respelled hsent.deserialized).2 _ htwo,
    readPacket_created hkey hsize (fun _ => rfl) 0 5 1 0 []]
  exact congrArg Except.ok (checkPacket_sentPacket hsize (by decide) 1
    Flags.noFlags 3 0)

end Remc.Net
