/-
The sending half of a session: `message_queue_`, and the writes it has
asked of its socket.

`SessionServer` and `SessionClient` each have a `WriteImpl` and a posted
`Write` handler that ends in the same three lines; the two copies of both
are the same code. `Outbox` holds what they work on. The socket's side is
the list of every `async_write` that was started, in order, and the
bytes the stream has taken; which of them it takes next, and when a
completion handler runs, is up to the environment.

# The queue is always empty

`WriteImpl` takes the message out of the queue before it starts writing
it. So a queue that is empty stays empty (`Drained.enqueue`,
`Drained.written`): every handler finds it empty and starts a write of
its own, whatever is still being written.
-/
import Remc.Net.RoundTrip
import Remc.RingBuffer.Refinement

namespace Remc.Net

open Containers

/-- An `asio::async_write` that was started: its buffer, how much of it
the stream has taken, and whether its completion handler has run. -/
structure AsyncWrite where
  buffer : Bytes
  transferred : Nat := 0
  completed : Bool := false
deriving DecidableEq, Repr

/-- `message_queue_`, the writes started on `socket_`, and the bytes the
stream has taken from them. -/
structure Outbox where
  messageQueue : RingBuffer
  writes : List AsyncWrite := []
  stream : Bytes := []
deriving DecidableEq, Repr

namespace Outbox

-- ========================================================= the operations

/-- `WriteImpl`. -/
def writeImpl (o : Outbox) : Checked Outbox := do
  let (opt, messageQueue) ← o.messageQueue.pop .uint16
  match opt with
  | none => return { o with messageQueue }
  | some buffer =>
      return { o with messageQueue, writes := o.writes ++ [{ buffer }] }

/-- The end of the posted `Write` handler: queue the packet, and start
writing if the queue was empty before. What `Push` returns is not looked
at. -/
def enqueue (o : Outbox) (packet : Bytes) : Checked Outbox := do
  let flag := o.messageQueue.isEmpty
  let (_, messageQueue) ← o.messageQueue.push .uint16 packet
  let o := { o with messageQueue }
  if flag then o.writeImpl else return o

/-- The stream takes the next `n` bytes of a write. -/
def transfer (o : Outbox) (i n : Nat) : Outbox :=
  match o.writes[i]? with
  | none => o
  | some w =>
      { o with
        stream := o.stream ++ (w.buffer.drop w.transferred).take n
        writes := o.writes.set i { w with transferred := w.transferred + n } }

/-- The completion handler of a write, with its error code. -/
def written (o : Outbox) (i : Nat) (ec : Bool) : Checked Outbox := do
  match o.writes[i]? with
  | none => return o
  | some w =>
      let o := { o with writes := o.writes.set i { w with completed := true } }
      if ec then return o
      else if o.messageQueue.isEmpty then return o
      else o.writeImpl

/-- What `Close` does to the queue. -/
def clear (o : Outbox) : Outbox :=
  { o with messageQueue := o.messageQueue.clear }

/-- The packets that were handed to the socket, in order. -/
def sent (o : Outbox) : List Bytes := o.writes.map AsyncWrite.buffer

/-- The writes whose completion handler has not run. -/
def outstanding (o : Outbox) : Nat :=
  o.writes.countP fun w => !w.completed

-- ==================================================== the queue is drained

/-- No message is queued. -/
def Drained (o : Outbox) : Prop :=
  Represents .uint16 o.messageQueue
    { capacity := ringBufferCapacity, queue := [], live := true }

/-- The constructor's queue, `RingBuffer(RING_BUFFER_CAPACITY)`. -/
def new : Outbox where
  messageQueue := { buffer := List.replicate (ringBufferCapacity + 1) 0
                    head := 0, tail := 0 }

/-- It is what the constructor makes. -/
theorem new_messageQueue :
    RingBuffer.new (UInt64.ofNat ringBufferCapacity)
      = .ok new.messageQueue := rfl

theorem new_drained : Drained new :=
  represents_new new_messageQueue (by decide)

theorem Drained.clear {o : Outbox} (h : o.Drained) : o.clear.Drained :=
  Represents.clear h

/-- A packet that `CreatePacket` can return fits the empty queue. -/
def Fits (packet : Bytes) : Prop :=
  packet ≠ [] ∧ packet.length ≤ tcpTotalPacketSize

/-- The empty queue has room for it. -/
theorem Fits.accepts {packet : Bytes} (h : Fits packet) :
    Fifo.Accepts .uint16
      { capacity := ringBufferCapacity, queue := [], live := true } packet := by
  obtain ⟨hne, hlen⟩ := h
  have htotal : tcpTotalPacketSize = 568 := rfl
  have hmax : PrefixSizeType.uint16.max = 65535 := rfl
  have hsizeof : PrefixSizeType.uint16.sizeof = 2 := rfl
  have hcapacity : ringBufferCapacity = 5680 := rfl
  refine ⟨hne, by omega, ?_⟩
  show 0 + packet.length + PrefixSizeType.uint16.sizeof ≤ ringBufferCapacity
  omega

/-- A drained queue takes it. -/
theorem Drained.push {o : Outbox} (h : o.Drained) {packet : Bytes}
    (hfits : Fits packet) :
    ∃ messageQueue, o.messageQueue.push .uint16 packet
        = .ok (true, messageQueue)
      ∧ Represents .uint16 messageQueue
        { capacity := ringBufferCapacity, queue := [packet], live := true } := by
  obtain ⟨messageQueue, hpush, hqueue⟩ := Represents.push h packet
  rw [Fifo.push, if_pos hfits.accepts] at hpush hqueue
  exact ⟨messageQueue, hpush, hqueue⟩

/-- What goes into a drained queue comes straight out of it: one more
write is started, and the queue is drained again. -/
theorem Drained.enqueue {o : Outbox} (h : o.Drained) {packet : Bytes}
    (hfits : Fits packet) :
    ∃ messageQueue, o.enqueue packet = .ok { o with
        messageQueue, writes := o.writes ++ [{ buffer := packet }] }
      ∧ Represents .uint16 messageQueue
        { capacity := ringBufferCapacity, queue := [], live := true } := by
  have hempty : o.messageQueue.isEmpty = true := h.isEmpty_iff.mpr rfl
  obtain ⟨pushed, hpush, hpushed⟩ := h.push hfits
  obtain ⟨popped, hpop, hpopped⟩ := hpushed.pop
  refine ⟨popped, ?_, hpopped⟩
  unfold Outbox.enqueue
  rw [hpush, ok_bind]
  simp only [hempty, if_true, Outbox.writeImpl]
  rw [hpop]
  rfl

/-- A started write adds its packet. -/
theorem sent_start (o : Outbox) (buffer : Bytes) :
    (o.writes ++ [({ buffer } : AsyncWrite)]).map AsyncWrite.buffer
      = o.sent ++ [buffer] :=
  List.map_append

/-- Replacing a write does not change what is the same of both. -/
theorem map_set_eq {β : Type} (f : AsyncWrite → β) {ws : List AsyncWrite}
    {i : Nat} {w w' : AsyncWrite} (hw : ws[i]? = some w) (h : f w' = f w) :
    (ws.set i w').map f = ws.map f := by
  obtain ⟨hi, rfl⟩ := List.getElem?_eq_some_iff.mp hw
  have hi' : i < (ws.map f).length := by rwa [List.length_map]
  have hget : (ws.map f)[i] = f ws[i] := List.getElem_map f
  rw [List.map_set, h, ← hget, List.set_getElem_self]

/-- What becomes of a write does not change its packet. -/
theorem sent_set {o : Outbox} {i : Nat} {w w' : AsyncWrite}
    (hw : o.writes[i]? = some w) (hbuffer : w'.buffer = w.buffer) :
    (o.writes.set i w').map AsyncWrite.buffer = o.sent :=
  map_set_eq AsyncWrite.buffer hw hbuffer

/-- With nothing queued a completion handler starts nothing. -/
theorem Drained.written {o : Outbox} (h : o.Drained) {i : Nat}
    {w : AsyncWrite} (hw : o.writes[i]? = some w) (ec : Bool) :
    o.written i ec = .ok { o with
      writes := o.writes.set i { w with completed := true } } := by
  have hempty : o.messageQueue.isEmpty = true := h.isEmpty_iff.mpr rfl
  unfold Outbox.written
  cases ec with
  | false => simp only [hw, hempty, Bool.false_eq_true, if_false, if_true]; rfl
  | true => simp only [hw, if_true]; rfl

-- ====================================================== outstanding writes

/-- A started write is outstanding. -/
theorem outstanding_start (ws : List AsyncWrite) (buffer : Bytes) :
    (ws ++ [({ buffer } : AsyncWrite)]).countP (fun w => !w.completed)
      = ws.countP (fun w => !w.completed) + 1 := by
  rw [List.countP_append]
  rfl

/-- Replacing a write by one that is no less completed does not add an
outstanding one. -/
theorem outstanding_set {ws : List AsyncWrite} {i : Nat} {w w' : AsyncWrite}
    (hw : ws[i]? = some w) (hle : w.completed = true → w'.completed = true) :
    (ws.set i w').countP (fun w => !w.completed)
      ≤ ws.countP (fun w => !w.completed) := by
  induction ws generalizing i with
  | nil => exact le_rfl
  | cons v ws ih =>
      cases i with
      | zero =>
          cases hw
          rw [List.set_cons_zero, List.countP_cons, List.countP_cons]
          cases hdone : w.completed with
          | true => simp [hle hdone]
          | false => cases w'.completed <;> simp
      | succ i =>
          rw [List.set_cons_succ, List.countP_cons, List.countP_cons]
          exact Nat.add_le_add_right (ih hw) _

end Outbox

/-- Every packet `CreatePacket` returns fits the queue. -/
theorem created_fits {key payload : Bytes}
    (hsize : payload.length ≤ tcpPayloadSizeMax) (now : Int64)
    (version : UInt16) (flags : UInt32) (nonce messageId : UInt64) :
    Outbox.Fits (created now payload version flags nonce messageId key) := by
  refine ⟨?_, created_length_le hsize now version flags nonce messageId⟩
  have hle := le_wireSize (framed
    (createHeader now payload version flags nonce messageId)
    (encodedPayload payload
      (createHeader now payload version flags nonce messageId) key nonce)).length
  rw [← wire_length, framed_length] at hle
  intro hnil
  rw [created] at hnil
  rw [hnil, List.length_nil] at hle
  omega

end Remc.Net
