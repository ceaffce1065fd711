/-
Packets (packet.h, packet.cpp): the header, the errors, `CreatePacket`
and `ReadPacket`.

Both functions read the clock; here it is an argument. `std::time_t` is
a signed 64-bit number, but the freshness check subtracts an unsigned
timestamp from it, so that comparison is unsigned.

The one part of an error text that is not a function of the packet is
the address of the key span, which the two argument errors print; the
texts take it as a string.
-/
import Remc.Crypto.Aead
import Remc.Net.Bitsery

namespace Remc.Net

open Crypto Bitsery

-- ================================================================= Packet

/-- `Packet::Header`. -/
structure Header where
  version : UInt16
  flags : UInt32
  timestamp : UInt64
  messageId : UInt64
  messageSize : UInt32
  nonce : UInt64
deriving DecidableEq, Repr

/-- `Packet`. -/
structure Packet where
  header : Header
  payload : Bytes
deriving DecidableEq, Repr

namespace Flags

/-- `NoFlags`. -/
def noFlags : UInt32 := 0

/-- `NoCrypto`: crypt/decrypt payload. -/
def noCrypto : UInt32 := 1

/-- `Handshake`. -/
def handshake : UInt32 := (1 : UInt32) <<< 1

/-- `TestMessage`; it has every bit of the flags above set. -/
def testMessage : UInt32 := 0xff

end Flags

/-- `flags & Packet::Flags::NoCrypto`. -/
abbrev NoCrypto (flags : UInt32) : Prop := flags &&& Flags.noCrypto ≠ 0

namespace Packet

/-- `GetTag`. -/
def getTag (p : Packet) : Bytes :=
  if 16 < p.payload.length then p.payload.drop (p.payload.length - 16) else []

/-- `GetPayloadAsString`, as the bytes of the string. -/
def getPayloadAsString (p : Packet) : Bytes :=
  if 16 < p.payload.length then p.payload.take (p.payload.length - 16) else []

end Packet

-- ============================================================ PacketError

/-- `PacketError::ErrorCode`. -/
inductive ErrorCode where
  | noError
  | invalidTimestamp
  | invalidMessageLength
  | invalidTag
  | invalidSerialization
  | invalidArguments
deriving DecidableEq, Repr

namespace ErrorCode

/-- `GetCodeAsInt`. -/
def toUInt8 : ErrorCode → UInt8
  | .noError => 0
  | .invalidTimestamp => 1
  | .invalidMessageLength => 2
  | .invalidTag => 3
  | .invalidSerialization => 4
  | .invalidArguments => 5

/-- `GetCodeAsString`. -/
def asString : ErrorCode → String
  | .noError => "NoError"
  | .invalidTimestamp => "InvalidTimestamp"
  | .invalidMessageLength => "InvalidMessageLength"
  | .invalidTag => "InvalidTag"
  | .invalidSerialization => "InvalidSerialization"
  | .invalidArguments => "InvalidArguments"

end ErrorCode

/-- `PacketError`: one constructor for each place that makes one, with
what its text shows. -/
inductive PacketError where
  | createArguments (payloadSize : Nat)
  | readArguments
  | serialization (error : Nat)
  | tag
  | timestamp (t : UInt64)
  | messageLength (messageSize : UInt32) (payloadSize : Nat)
deriving DecidableEq, Repr

namespace PacketError

/-- `GetCode`. -/
def getCode : PacketError → ErrorCode
  | .createArguments _ => .invalidArguments
  | .readArguments => .invalidArguments
  | .serialization _ => .invalidSerialization
  | .tag => .invalidTag
  | .timestamp _ => .invalidTimestamp
  | .messageLength _ _ => .invalidMessageLength

/-- `Message`; `key` is the address of the key span as it prints. -/
def message (key : String) : PacketError → String
  | .createArguments payloadSize =>
      "invalid arguments: (size:" ++ toString payloadSize ++ ") (key:" ++ key
        ++ ")"
  | .readArguments => "invalid arguments: (key:" ++ key ++ ")"
  | .serialization error => "deserialization error: " ++ toString error
  | .tag => "AEAD mismatch"
  | .timestamp t => "invalid packet timestamp (" ++ toString t.toNat ++ ")"
  | .messageLength messageSize payloadSize =>
      "message size mismatch: " ++ toString messageSize.toNat ++ ":"
        ++ toString payloadSize

end PacketError

-- ========================================================== global consts

/-- `TCP_PAYLOAD_SIZE_MAX`. -/
def tcpPayloadSizeMax : Nat := 512

/-- `sizeof(Packet::Header)`, the padding of its members included. -/
def sizeofHeader : Nat := 40

/-- `TCP_TOTAL_PACKET_SIZE`. -/
def tcpTotalPacketSize : Nat := tcpPayloadSizeMax + sizeofHeader + 16

/-- `TIMESTAMP_LIMIT`, in seconds. -/
def timestampLimit : UInt64 := 30

/-- `RING_BUFFER_CAPACITY`. -/
def ringBufferCapacity : Nat := tcpTotalPacketSize * 10

-- ============================================================== serialize

/-- `serialize(S&, Packet::Header&)`, writing. -/
def serializeHeader (a : OutputBufferAdapter) (h : Header) :
    OutputBufferAdapter :=
  let a := a.writeBytes 2 h.version.toNat
  let a := a.writeBytes 4 h.flags.toNat
  let a := a.writeBytes 8 h.timestamp.toNat
  let a := a.writeBytes 8 h.messageId.toNat
  let a := a.writeBytes 4 h.messageSize.toNat
  a.writeBytes 8 h.nonce.toNat

/-- `serialize(S&, Packet&)`, writing. -/
def serializePacket (a : OutputBufferAdapter) (p : Packet) :
    Checked OutputBufferAdapter :=
  (serializeHeader a p.header).container1b p.payload
    p.header.messageSize.toNat

/-- `serialize(S&, Packet::Header&)`, reading. -/
def readHeader : Reader Header := do
  let version ← readBytes 2
  let flags ← readBytes 4
  let timestamp ← readBytes 8
  let messageId ← readBytes 8
  let messageSize ← readBytes 4
  let nonce ← readBytes 8
  return {
    version := UInt16.ofNat version
    flags := UInt32.ofNat flags
    timestamp := UInt64.ofNat timestamp
    messageId := UInt64.ofNat messageId
    messageSize := UInt32.ofNat messageSize
    nonce := UInt64.ofNat nonce }

/-- `serialize(S&, Packet&)`, reading. -/
def readPacketObject : Reader Packet := do
  let header ← readHeader
  let payload ← readContainer1b header.messageSize.toNat
  return { header, payload }

/-- `quickSerialization` of a header into an empty vector. Nobody looks
at the number of bytes it returns: the vector is used whole. -/
def serializedHeader (h : Header) : Bytes :=
  (serializeHeader .new h).buffer.data

/-- `quickSerialization` of a packet into an empty vector. -/
def serializedPacket (p : Packet) : Checked Bytes := do
  let a ← serializePacket .new p
  return a.buffer.data

/-- `quickDeserialization`: the packet and the adapter's error. -/
def quickDeserialization (buffer : Bytes) : Packet × Nat :=
  let (packet, a) := readPacketObject (.new buffer)
  (packet, a.error)

-- =========================================================== CreatePacket

/-- `Nonce96(nonce, 0)`: the 32 low bits of the counter. -/
def nonce96 (nonce : UInt64) : Nonce96 := ⟨nonce.toUInt32, 0⟩

/-- The payload on the wire: sealed, or copied as it is. -/
def encodePayload (payload : Bytes) (header : Header) (sharedKey : Bytes)
    (nonce : UInt64) : Checked Bytes := do
  let size := header.messageSize.toNat
  if NoCrypto header.flags then
    memcpyTo (List.replicate size 0) 0 (← memcpyFrom payload 0 size)
  else
    let cc20 ← Aead.new sharedKey
    let (cipher, _) ←
      cc20.encrypt payload [] (serializedHeader header) (nonce96 nonce) size
    return cipher

/-- The header that `CreatePacket` fills in. -/
def createHeader (now : Int64) (payload : Bytes) (version : UInt16)
    (flags : UInt32) (nonce messageId : UInt64) : Header where
  version := version
  flags := flags
  timestamp := now.toUInt64
  messageId := messageId
  nonce := nonce
  messageSize := UInt32.ofNat
    (if NoCrypto flags then payload.length else payload.length + 16)

/-- `CreatePacket`. -/
def createPacket (now : Int64) (payload : Bytes) (version : UInt16)
    (flags : UInt32) (nonce messageId : UInt64) (sharedKey : Bytes) :
    Checked (Except PacketError Bytes) := do
  -- check arguments valid
  if tcpPayloadSizeMax < payload.length ∨ sharedKey.isEmpty then
    return .error (.createArguments payload.length)
  let header := createHeader now payload version flags nonce messageId
  let body ← encodePayload payload header sharedKey nonce
  let result ← serializedPacket { header, payload := body }
  return .ok result

-- ============================================================= ReadPacket

/-- `packet.header.message_size - 16`, in the field's 32 bits. -/
def plainSize (h : Header) : Nat := (h.messageSize - 16).toNat

/-- The packet after decryption; with `NoCrypto` it is left alone. -/
def decodePayload (packet : Packet) (sharedKey : Bytes) (nonce : UInt64) :
    Checked (Except PacketError Packet) := do
  if NoCrypto packet.header.flags then
    return .ok packet
  else
    let cc20 ← Aead.new sharedKey
    let (ok, payload, _, _) ←
      cc20.decrypt packet.payload (serializedHeader packet.header)
        (nonce96 nonce) (List.replicate (plainSize packet.header) 0) []
    if ok then
      return .ok {
        header :=
          { packet.header with messageSize := packet.header.messageSize - 16 }
        payload }
    else return .error .tag

/-- `check packet valid`: the timestamp, then the message size. -/
def checkPacket (now : Int64) (packet : Packet) : Except PacketError Packet :=
  if timestampLimit < now.toUInt64 - packet.header.timestamp then
    .error (.timestamp packet.header.timestamp)
  else if packet.header.messageSize.toNat ≠ packet.payload.length then
    .error (.messageLength packet.header.messageSize packet.payload.length)
  else .ok packet

/-- `ReadPacket`. -/
def readPacket (now : Int64) (buffer : Bytes) (nonce : UInt64)
    (sharedKey : Bytes) : Checked (Except PacketError Packet) := do
  -- check arguments valid
  if sharedKey.isEmpty then
    return .error .readArguments
  let (packet, error) := quickDeserialization buffer
  if error ≠ 0 then
    return .error (.serialization error)
  let decoded ← decodePayload packet sharedKey nonce
  return decoded >>= checkPacket now

end Remc.Net
