/-
Sessions (session_base.h, server.h, server.cpp, client.h, client.cpp).

`SessionServer` and `SessionClient` share their data but for the client's
`task_queue_`, and their `Write`, `WriteImpl` and `Read` run the same
statements but for what they post; so one record `Session` serves both,
and each class keeps its own functions under its own name.

# What runs when

`Write` only posts a closure to the session's executor, which runs it
later (`PostedWrite`). A completed read increments the counter and posts
a task to the thread pool; the pool runs it later still, on another
thread, and other handlers may run between two of its statements. `Task`
is where such a task stands, one constructor for each place between
statements that touch the session.
-/
import Remc.Crypto.Keys
import Remc.Net.Outbox

namespace Remc.Net

open Crypto Containers

/-- The two derived classes of `SessionBase`. -/
inductive Role where
  | client
  | server
deriving DecidableEq, Repr

/-- `WriteCallbackType`: what it does to the session it is given. A
callback changes its session through `KeysInfo()`; a `Write` it makes is
a `Write` like any other. -/
abbrev WriteCallback := Packet → KeysWrapper → Checked KeysWrapper

/-- `SessionBase`, with the `message_queue_` of both derived classes and
the `task_queue_` of the client's. -/
structure Session where
  keys : KeysWrapper
  /-- nonce for cc20-poly1305 -/
  messageCounter : UInt64 := 0
  /-- session lifetime (heartbeat) -/
  lastTimestamp : Int64
  /-- `socket_.is_open()` -/
  isOpen : Bool := true
  outbox : Outbox := .new
  taskQueue : UInt64 → Option WriteCallback := fun _ => none

-- ==================================================================== Write

/-- What the closure posted by `Write` captures. The server's has the
message id of the packet it answers; the client's has the callback for
the answer, and draws its message id when it runs. -/
inductive PostedWrite where
  | server (flags : UInt32) (messageId : UInt64) (payload : Bytes)
  | client (flags : UInt32) (payload : Bytes) (cb : Option WriteCallback)

namespace PostedWrite

def flags : PostedWrite → UInt32
  | .server flags _ _ => flags
  | .client flags _ _ => flags

def payload : PostedWrite → Bytes
  | .server _ _ payload => payload
  | .client _ payload _ => payload

/-- The message id, where the client draws one. -/
def messageId (drawn : UInt64) : PostedWrite → UInt64
  | .server _ messageId _ => messageId
  | .client _ _ _ => drawn

/-- The class whose `Write` posts it. -/
def role : PostedWrite → Role
  | .server _ _ _ => .server
  | .client _ _ _ => .client

/-- `Write`, up to its result and what it posts: invalid payload data is
refused. -/
def post (w : PostedWrite) : Bool × List PostedWrite :=
  if tcpPayloadSizeMax < w.payload.length then (false, []) else (true, [w])

end PostedWrite

namespace Session

/-- The `CreatePacket` call of both posted handlers. -/
def createPacket (now : Int64) (s : Session) (flags : UInt32)
    (messageId : UInt64) (payload : Bytes) :
    Checked (Except PacketError Bytes) :=
  Net.createPacket now payload 1 flags s.messageCounter messageId
    s.keys.sharedKey.val

/-- The completion handler of both `WriteImpl`s. -/
def written (now : Int64) (s : Session) (i : Nat) (ec : Bool) :
    Checked Session := do
  let outbox ← s.outbox.written i ec
  return { s with
    outbox, lastTimestamp := if ec then s.lastTimestamp else now }

/-- `SessionServer::Close`. -/
def close (s : Session) : Session :=
  if s.isOpen then { s with isOpen := false, outbox := s.outbox.clear } else s

/-- What both completion handlers of a read do to the session. -/
def completeRead (now : Int64) (s : Session) : Session :=
  { s with messageCounter := s.messageCounter + 1, lastTimestamp := now }

end Session

/-- The buffer of a read that returned these bytes: a fresh block of
zeros, of which the first have been overwritten. -/
def readBuffer (chunk : Bytes) : Bytes :=
  chunk ++ List.replicate (tcpTotalPacketSize - chunk.length) 0

-- ==================================================================== tasks

/-- Where a pool task stands. -/
inductive Task where
  /-- `DefaultReadCallback` has not begun. -/
  | serverRead (buffer : Bytes)
  /-- Its `ReadPacket` has returned a packet. -/
  | serverAnswer (packet : Packet)
  /-- Its answer to a `Handshake` has been posted. -/
  | serverKey (payload : Bytes)
  /-- The task of `SessionClient::Read` has not begun. -/
  | clientRead (buffer : Bytes)
  /-- It has taken a callback out of `task_queue_`. -/
  | clientCallback (cb : WriteCallback) (packet : Packet)
  | done

/-- The class whose reads post the task. -/
def Task.OfRole : Task → Role → Prop
  | .serverRead _, role => role = .server
  | .serverAnswer _, role => role = .server
  | .serverKey _, role => role = .server
  | .clientRead _, role => role = .client
  | .clientCallback _ _, role => role = .client
  | .done, _ => True

/-- The buffer of a task that has not begun. -/
def Task.unread : Task → Option Bytes
  | .serverRead buffer => some buffer
  | .clientRead buffer => some buffer
  | _ => none

/-- What a part of a task leaves: the session, what it posted, and where
the task stands then. -/
structure TaskResult where
  session : Session
  posted : List PostedWrite := []
  task : Task := .done

-- ============================================================ SessionServer

namespace SessionServer

/-- `Write`; the overload for a `string_view` makes the same check. -/
def write (flags : UInt32) (messageId : UInt64) (payload : Bytes) :
    Bool × List PostedWrite :=
  PostedWrite.post (.server flags messageId payload)

/-- The closure that `Write` posts. -/
def writeHandler (now : Int64) (s : Session) (flags : UInt32)
    (messageId : UInt64) (payload : Bytes) : Checked Session := do
  match ← s.createPacket now flags messageId payload with
  | .error _ => return s
  | .ok packet => return { s with outbox := ← s.outbox.enqueue packet }

/-- The nonce `DefaultReadCallback` gives to `ReadPacket`. -/
def readNonce (s : Session) : UInt64 := s.messageCounter - 1

/-- `DefaultReadCallback` returns after a failed `ReadPacket`. -/
def afterRead (s : Session) : Except PacketError Packet → TaskResult
  | .error _ => { session := s }
  | .ok packet => { session := s, task := .serverAnswer packet }

/-- `DefaultReadCallback`, up to its `ReadPacket`. -/
def callbackRead (now : Int64) (s : Session) (buffer : Bytes) :
    Checked TaskResult := do
  let p ← readPacket now buffer (readNonce s) s.keys.sharedKey.val
  return afterRead s p

theorem callbackRead_eq {now : Int64} {s : Session} {buffer : Bytes}
    {result : Except PacketError Packet}
    (h : readPacket now buffer (readNonce s) s.keys.sharedKey.val = .ok result) :
    callbackRead now s buffer = .ok (afterRead s result) := by
  rw [callbackRead, h]
  rfl

/-- The answer to a test message. -/
def answerText (messageCounter : UInt64) : Bytes :=
  ("asnwer from server " ++ toString messageCounter.toNat).toList.map
    Char.toUInt8

/-- `DefaultReadCallback`, the branches on the flags up to their
`Write`. -/
def callbackAnswer (sodium : Sodium) (s : Session) (packet : Packet) :
    TaskResult :=
  if packet.header.flags = Flags.handshake then
    -- send my public to client
    { session := s
      posted := (write Flags.handshake packet.header.messageId
        (s.keys.getPublicKey sodium).val).2
      task := .serverKey packet.payload }
  else if packet.header.flags = Flags.testMessage then
    { session := s
      posted := (write Flags.testMessage packet.header.messageId
        (answerText s.messageCounter)).2 }
  else { session := s }

/-- `DefaultReadCallback`, the rest of the `Handshake` branch. -/
def callbackKey (sodium : Sodium) (s : Session) (payload : Bytes) :
    Checked TaskResult := do
  -- compute shared key
  let (_, keys) ← s.keys.computeSharedKey sodium payload
  return { session := { s with keys } }

end SessionServer

-- ============================================================ SessionClient

namespace SessionClient

/-- `Write`; the overload for a `string_view` makes the same check. -/
def write (flags : UInt32) (payload : Bytes) (cb : Option WriteCallback) :
    Bool × List PostedWrite :=
  PostedWrite.post (.client flags payload cb)

/-- `task_queue_.emplace`, which keeps an entry that is there. -/
def emplace (taskQueue : UInt64 → Option WriteCallback) (messageId : UInt64) :
    Option WriteCallback → UInt64 → Option WriteCallback
  | none => taskQueue
  | some cb =>
      match taskQueue messageId with
      | some _ => taskQueue
      | none => Function.update taskQueue messageId (some cb)

/-- The closure that `Write` posts, with the id it draws. -/
def writeHandler (now : Int64) (drawn : UInt64) (s : Session)
    (flags : UInt32) (payload : Bytes) (cb : Option WriteCallback) :
    Checked Session := do
  match ← s.createPacket now flags drawn payload with
  | .error _ => return s
  | .ok packet =>
      -- set callback on this message_id
      let s := { s with taskQueue := emplace s.taskQueue drawn cb }
      return { s with outbox := ← s.outbox.enqueue packet }

/-- The nonce the task of `Read` gives to `ReadPacket`. -/
def readNonce (s : Session) : UInt64 := s.messageCounter

/-- After a successful `ReadPacket` the callback for its message id is
moved out of `task_queue_`, to be called then. -/
def afterRead (s : Session) : Except PacketError Packet → TaskResult
  | .error _ => { session := s }
  | .ok packet =>
      match s.taskQueue packet.header.messageId with
      | none => { session := s }
      | some cb =>
          { session :=
              { s with taskQueue :=
                  Function.update s.taskQueue packet.header.messageId none }
            task := .clientCallback cb packet }

/-- The task of `Read`, up to the call of the callback. -/
def taskRead (now : Int64) (s : Session) (buffer : Bytes) :
    Checked TaskResult := do
  let packet ← readPacket now buffer (readNonce s) s.keys.sharedKey.val
  return afterRead s packet

theorem taskRead_eq {now : Int64} {s : Session} {buffer : Bytes}
    {result : Except PacketError Packet}
    (h : readPacket now buffer (readNonce s) s.keys.sharedKey.val = .ok result) :
    taskRead now s buffer = .ok (afterRead s result) := by
  rw [taskRead, h]
  rfl

/-- The user callback call. -/
def taskCallback (s : Session) (cb : WriteCallback) (packet : Packet) :
    Checked TaskResult := do
  let keys ← cb packet s.keys
  return { session := { s with keys } }

end SessionClient

/-- The callback with which `client_main.cpp` starts the handshake. -/
def handshakeCallback (sodium : Sodium) : WriteCallback :=
  fun packet keys => do
    if packet.header.messageSize = 32 then
      -- the span is `message_size` bytes of the payload
      let other ← memcpyFrom packet.payload 0 packet.header.messageSize.toNat
      let (_, keys) ← keys.computeSharedKey sodium other
      return keys
    else return keys

-- ================================================================= dispatch

/-- A posted closure runs. -/
def PostedWrite.run (now : Int64) (drawn : UInt64) (s : Session) :
    PostedWrite → Checked Session
  | .server flags messageId payload =>
      SessionServer.writeHandler now s flags messageId payload
  | .client flags payload cb =>
      SessionClient.writeHandler now drawn s flags payload cb

/-- A pool task runs up to the next place where it may be interrupted. -/
def Task.run (sodium : Sodium) (now : Int64) (s : Session) :
    Task → Checked TaskResult
  | .serverRead buffer => SessionServer.callbackRead now s buffer
  | .serverAnswer packet => .ok (SessionServer.callbackAnswer sodium s packet)
  | .serverKey payload => SessionServer.callbackKey sodium s payload
  | .clientRead buffer => SessionClient.taskRead now s buffer
  | .clientCallback cb packet => SessionClient.taskCallback s cb packet
  | .done => .ok { session := s }

/-- The task that a completed read posts. -/
def Role.task (buffer : Bytes) : Role → Task
  | .server => .serverRead buffer
  | .client => .clientRead buffer

/-- The nonce with which that task reads. -/
def Role.readNonce (s : Session) : Role → UInt64
  | .server => SessionServer.readNonce s
  | .client => SessionClient.readNonce s

/-- What it leaves, given what `ReadPacket` returned. -/
def Role.afterRead (s : Session) (result : Except PacketError Packet) :
    Role → TaskResult
  | .server => SessionServer.afterRead s result
  | .client => SessionClient.afterRead s result

/-- The first part of a task is its `ReadPacket` and what follows from
the result. -/
theorem Role.task_run {sodium : Sodium} {now : Int64} {s : Session}
    {buffer : Bytes} {result : Except PacketError Packet} {role : Role}
    (h : readPacket now buffer (role.readNonce s) s.keys.sharedKey.val
      = .ok result) :
    (role.task buffer).run sodium now s = .ok (role.afterRead s result) := by
  cases role with
  | server => exact SessionServer.callbackRead_eq h
  | client => exact SessionClient.taskRead_eq h

/-- What a task that begins has called, and what it leaves. -/
theorem Role.task_result {sodium : Sodium} {role : Role} {buffer : Bytes} {now : Int64}
    {s : Session} {r : TaskResult}
    (h : (role.task buffer).run sodium now s = .ok r) :
    ∃ result, readPacket now buffer (role.readNonce s) s.keys.sharedKey.val
        = .ok result ∧ r = role.afterRead s result := by
  cases role with
  | server =>
      obtain ⟨result, hread, hr⟩ := bind_eq_ok h
      cases hr
      exact ⟨result, hread, rfl⟩
  | client =>
      obtain ⟨result, hread, hr⟩ := bind_eq_ok h
      cases hr
      exact ⟨result, hread, rfl⟩

/-- Nothing but the callbacks changes then. -/
theorem Role.afterRead_frame (s : Session)
    (result : Except PacketError Packet) (role : Role) :
    (role.afterRead s result).session.keys = s.keys
      ∧ (role.afterRead s result).posted = [] := by
  cases result with
  | error e => cases role <;> exact ⟨rfl, rfl⟩
  | ok packet =>
      cases role with
      | server => exact ⟨rfl, rfl⟩
      | client =>
          show (SessionClient.afterRead s (.ok packet)).session.keys = _
            ∧ (SessionClient.afterRead s (.ok packet)).posted = _
          unfold SessionClient.afterRead
          dsimp only
          split <;> exact ⟨rfl, rfl⟩

end Remc.Net
