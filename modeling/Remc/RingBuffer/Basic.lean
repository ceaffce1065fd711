/-
`RingBuffer` (ring_buffer.h): a queue of byte strings in one circular
storage, each stored behind a size prefix of an integral type.

Positions and sizes are naturals: a constructed storage has at most
`PTRDIFF_MAX` bytes and so has every span, so no sum of two of them
wraps. The one place where `std::size_t` arithmetic does wrap is the
constructor's `capacity + 1`, and there the model keeps the machine
type.

A moved-from buffer is an object like any other: its storage is empty
and its positions are zero.
-/
import Remc.Basic

namespace Remc.Containers

-- ==================================================== the prefix types

/-- An integral `PrefixSizeType`: its `sizeof` and its
`std::numeric_limits<PrefixSizeType>::max()`. -/
structure PrefixSizeType where
  sizeof : Nat
  max : Nat
  max_lt : max < 256 ^ sizeof

namespace PrefixSizeType

/-- `uint16_t`, the default and the one the sessions use. -/
def uint16 : PrefixSizeType := ⟨2, 65535, by decide⟩

/-- `int8_t`: one byte, of which the top bit is the sign. -/
def int8 : PrefixSizeType := ⟨1, 127, by decide⟩

/-- `bool` is integral too: the only sizes it holds are 0 and 1. -/
def bool : PrefixSizeType := ⟨1, 1, by decide⟩

/-- The object representation of `static_cast<PrefixSizeType>(n)`, for
a value the type holds. -/
def store (P : PrefixSizeType) (n : Nat) : Bytes :=
  LittleEndian.toBytes P.sizeof n

/-- The `std::size_t` that an object of the type converts to, read from
its bytes: a bit pattern above the maximum is a negative value, which
the conversion sign-extends. -/
def load (P : PrefixSizeType) (bs : Bytes) : Nat :=
  let v := LittleEndian.ofBytes bs
  if v ≤ P.max then v else v + (2 ^ 64 - 256 ^ P.sizeof)

@[simp] theorem store_length (P : PrefixSizeType) (n : Nat) :
    (P.store n).length = P.sizeof := LittleEndian.toBytes_length _ _

/-- A size the type holds is read back as written. -/
theorem load_store (P : PrefixSizeType) {n : Nat} (h : n ≤ P.max) :
    P.load (P.store n) = n := by
  have hv : LittleEndian.ofBytes (P.store n) = n :=
    LittleEndian.ofBytes_toBytes_of_lt (Nat.lt_of_le_of_lt h P.max_lt)
  rw [load, hv, if_pos h]

end PrefixSizeType

-- ========================================================== the buffer

/-- `RingBuffer`: the storage `buffer_`, `head_` and `tail_`. -/
structure RingBuffer where
  buffer : Bytes
  head : Nat
  tail : Nat
deriving DecidableEq, Repr

namespace RingBuffer

/-- `buffer_.max_size()`: `PTRDIFF_MAX`. -/
def maxSize : Nat := 2 ^ 63 - 1

/-- The constructor. `capacity + 1` is computed in `std::size_t`; a
storage beyond `max_size()` makes `resize` throw. -/
def new (capacity : UInt64) : Except String RingBuffer :=
  if capacity = 0 then .error "capacity should be > 0"
  else
    let size := (capacity + 1).toNat
    if maxSize < size then .error "vector::_M_default_append"
    else .ok { buffer := List.replicate size 0, head := 0, tail := 0 }

/-- What a move leaves behind. -/
def movedFrom : RingBuffer := { buffer := [], head := 0, tail := 0 }

/-- `IsEmpty`. -/
def isEmpty (rb : RingBuffer) : Bool := rb.head == rb.tail

/-- `GetCapacity`. -/
def getCapacity (rb : RingBuffer) : Nat :=
  if rb.buffer.isEmpty then 0 else rb.buffer.length - 1

/-- `FreeSpace`. -/
def freeSpace (rb : RingBuffer) : Nat :=
  if rb.buffer.isEmpty then 0
  else if rb.tail ≤ rb.head then (rb.buffer.length - rb.head) + rb.tail - 1
  else rb.tail - rb.head - 1

/-- The lambda `foo` of `Push`: one span copied in at `head_`. -/
def pushSpan (rb : RingBuffer) (data : Bytes) : Checked RingBuffer :=
  let spaceToEnd := rb.buffer.length - rb.head
  if spaceToEnd < data.length then do
    let delta := data.length - spaceToEnd
    -- 1st part
    let fst ← memcpyFrom data 0 spaceToEnd
    let buffer ← memcpyTo rb.buffer rb.head fst
    -- 2nd part
    let snd ← memcpyFrom data spaceToEnd delta
    let buffer ← memcpyTo buffer 0 snd
    return { rb with buffer := buffer, head := delta }
  else do
    let buffer ← memcpyTo rb.buffer rb.head data
    return { rb with
      buffer := buffer
      head := (rb.head + data.length) % rb.buffer.length }

/-- `Push<P>`. -/
def push (P : PrefixSizeType) (rb : RingBuffer) (data : Bytes) :
    Checked (Bool × RingBuffer) :=
  if data.isEmpty ∨ rb.freeSpace < data.length + P.sizeof
      ∨ P.max < data.length then
    .ok (false, rb)
  else do
    -- size
    let rb ← rb.pushSpan (P.store data.length)
    -- buffer
    let rb ← rb.pushSpan data
    return (true, rb)

/-- The lambda `foo` of `Pop`: `size` bytes copied out at `pos`, with
the position behind them. -/
def popSpan (rb : RingBuffer) (size pos : Nat) : Checked (Bytes × Nat) :=
  let spaceToEnd := rb.buffer.length - pos
  if spaceToEnd < size then do
    -- 1st part
    let fst ← memcpyFrom rb.buffer pos spaceToEnd
    -- 2nd part
    let snd ← memcpyFrom rb.buffer 0 (size - spaceToEnd)
    return (fst ++ snd, (size - spaceToEnd) % rb.buffer.length)
  else do
    let data ← memcpyFrom rb.buffer pos size
    return (data, (size + pos) % rb.buffer.length)

/-- `Pop<P>`. -/
def pop (P : PrefixSizeType) (rb : RingBuffer) :
    Checked (Option Bytes × RingBuffer) :=
  if rb.isEmpty then .ok (none, rb)
  else do
    -- size
    let (size, pos) ← rb.popSpan P.sizeof rb.tail
    -- buffer
    let (result, pos) ← rb.popSpan (P.load size) pos
    return (some result, { rb with tail := pos })

/-- `Clear`. -/
def clear (rb : RingBuffer) : RingBuffer :=
  { rb with head := 0, tail := 0 }

end RingBuffer

end Remc.Containers
