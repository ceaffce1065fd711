/-
A worker (server.h, server.cpp): its session table, its `io_context` and
the handlers posted to it.

# What runs where

The handlers that `CreateSession` and `RemoveSession` post and those of the
heartbeat timer run one at a time on the worker's thread, and only while
it is in `io_.run()` and `io_` is not stopped; nothing restarts a stopped
context. What a session does runs on the executor of its socket, which is
whatever context the socket came from: the model has both cases
(`SocketExecutor`), and every result is about both.

`Run` and `Stop` are called one after the other, by a thread that runs no
context; `Stop` returns at its `join`, and other threads go on in between.

# Pointers

`sessions` keeps every session object that was ever made, so a
`shared_ptr` is the place of its object there, and the null pointer that
`operator[]` inserts is `none`.
-/
import Remc.Lib.FlatHashMap
import Remc.Net.Peer

namespace Remc.Net

open Crypto Runs

variable {sodium : Sodium}

/-- `WORKER_MAX_CLIENT_COUNT`: max client count per worker. -/
def workerMaxClientCount : Nat := 4096

/-- `WORKER_HEARTBEAT_TIMEOUT`, in seconds. -/
def workerHeartbeatTimeout : Int := timestampLimit.toNat

/-- The context whose thread runs what the sockets' executor is given. -/
inductive SocketExecutor where
  /-- `io_` of the worker. -/
  | worker
  /-- Another context, such as that of the acceptor. -/
  | other
deriving DecidableEq, Repr

/-- The worker's thread runs what that executor is given. -/
def SocketExecutor.isWorker : SocketExecutor → Bool
  | .worker => true
  | .other => false

/-- A session object in the hands of a worker. -/
structure SessionObject where
  sessionId : UInt64
  peer : Peer
  /-- The calls of `Read`. -/
  readCalls : Nat := 0

/-- Its session after `SessionServer::Close`. -/
def SessionObject.close (s : SessionObject) : SessionObject :=
  { s with peer := { s.peer with session := s.peer.session.close } }

/-- A `shared_ptr` to a session. -/
abbrev SessionPtr := Option Nat

/-- Who called `RemoveSession`. -/
inductive Poster where
  | heartbeat
  | other
deriving DecidableEq, Repr

/-- What is posted to `io_`. -/
inductive Handler where
  | createSession
  | removeSession (id : UInt64) (poster : Poster)
deriving DecidableEq, Repr

/-- A worker. -/
structure Worker where
  threadFlag : Bool := false
  /-- `io_` is in the stopped state. -/
  stopped : Bool := false
  /-- `thread_` is in `io_.run()`. -/
  running : Bool := false
  /-- A call of `Stop` has not returned. -/
  stopping : Bool := false
  /-- The heartbeat timers waiting on `io_`. -/
  timers : Nat := 0
  /-- The handlers posted to `io_` and not yet run. -/
  queue : List Handler := []
  /-- The sessions whose `Close` was dispatched to their executor and has
  not yet run there. -/
  closes : List Nat := []
  sessionList : FlatHashMap UInt64 SessionPtr := ∅
  /-- Every session object made, oldest first. -/
  sessions : List SessionObject := []
  /-- `std::time(nullptr)` -/
  clock : Int64

/-- What can happen to a worker. -/
inductive WorkerEvent where
  /-- The clock advances. -/
  | tick (now : Int64)
  | run
  | stop
  /-- `Stop` has joined the thread and returns. -/
  | join
  /-- A call of `CreateSession`. -/
  | createSession
  /-- A call of `RemoveSession`, other than by the heartbeat. -/
  | removeSession (id : UInt64)
  /-- Handler `k`, of `CreateSession`, runs; the keys and the id are drawn. -/
  | create (k : Nat) (keys : KeysWrapper) (id : UInt64)
  /-- Handler `k`, of `RemoveSession`, runs. -/
  | remove (k : Nat)
  /-- A heartbeat timer's handler runs, and goes through the table in this
  order. -/
  | heartbeat (ec : Bool) (order : List UInt64)
  /-- The `Close` dispatched for this session runs. -/
  | close (ref : Nat)
  /-- Something happens at a session. -/
  | session (ref : Nat) (e : Event)

-- ============================================================ its functions

/-- `now - it->second->GetTimestamp()`; where that overflows the source is
undefined. -/
def age (now lastTimestamp : Int64) : Int := now.toInt - lastTimestamp.toInt

/-- The object a pointer is followed to. -/
def SessionPtr.deref : SessionPtr → Checked Nat
  | some ref => .ok ref
  | none => .error .nullPointer

namespace Worker

/-- `GetClientCount`. -/
def getClientCount (w : Worker) : Nat := w.sessionList.size

/-- The thread runs what is posted to `io_`. -/
def Executes (w : Worker) : Prop := w.running = true ∧ w.stopped = false

/-- The sockets' executor runs what it is given. -/
def Serves (w : Worker) : SocketExecutor → Prop
  | .worker => w.Executes
  | .other => True

/-- `CreateSession`. -/
def createSession (w : Worker) : Worker :=
  { w with queue := w.queue ++ [.createSession] }

/-- `RemoveSession`. -/
def removeSession (w : Worker) (id : UInt64) (poster : Poster) : Worker :=
  { w with queue := w.queue ++ [.removeSession id poster] }

/-- A posted handler is taken out of the queue. -/
def dequeue (w : Worker) (k : Nat) : Worker :=
  { w with queue := w.queue.eraseIdx k }

/-- The handler of `SessionServer::Close`. -/
def close (w : Worker) (ref : Nat) : Worker :=
  { w with sessions := w.sessions.modify ref SessionObject.close }

/-- `SessionServer::Close`: `asio::dispatch` runs the handler at once on a
thread of the executor, and else queues it. -/
def dispatchClose (w : Worker) (inContext : Bool) (ref : Nat) : Worker :=
  if inContext then w.close ref else { w with closes := w.closes ++ [ref] }

/-- `make_shared<SessionServer>`, with what the constructor draws. -/
def newSession (w : Worker) (keys : KeysWrapper) (id : UInt64) :
    SessionObject :=
  { sessionId := id, peer := .start .server keys w.clock }

/-- The handler of `CreateSession`. `make_shared` never returns null, so
there is no other branch than these. -/
def createSessionHandler (w : Worker) (keys : KeysWrapper) (id : UInt64) :
    Checked Worker := do
  -- is enough space for new session?
  if workerMaxClientCount < w.sessionList.size + 1 then return w
  else
    -- add to the table
    let sessionList := w.sessionList.emplace id (some w.sessions.length)
    -- start session and specify the callback
    let (sessionList, ptr) := sessionList.index none id
    let ref ← ptr.deref
    return { w with
      sessionList
      sessions := (w.sessions ++ [w.newSession keys id]).modify ref fun s =>
        { s with readCalls := s.readCalls + 1 } }

/-- The handler of `RemoveSession`, on the worker's thread. -/
def removeSessionHandler (executor : SocketExecutor) (w : Worker)
    (id : UInt64) : Checked Worker := do
  if id ∈ w.sessionList then
    let (sessionList, ptr) := w.sessionList.index none id
    let ref ← ptr.deref
    let w := { w with sessionList }.dispatchClose executor.isWorker ref
    return { w with sessionList := w.sessionList.erase id }
  else return w

/-- `it->second` of every entry, followed. -/
def tableSessions (w : Worker) : Checked (List SessionObject) :=
  w.sessionList.values.mapM fun ptr =>
    match ptr.bind fun ref => w.sessions[ref]? with
    | some session => .ok session
    | none => .error .nullPointer

/-- The ids of the sessions that have been idle for too long. -/
def stale (w : Worker) : Checked (List UInt64) := do
  let sessions ← w.tableSessions
  return (sessions.filter fun s =>
    workerHeartbeatTimeout < age w.clock s.peer.session.lastTimestamp).map
      SessionObject.sessionId

/-- The handler of `Heartbeat`'s timer, which starts the next timer. -/
def heartbeatHandler (w : Worker) (ec : Bool) (vec : List UInt64) : Worker :=
  if ec then w
  -- kill sessions
  else { w with queue :=
    w.queue ++ vec.map fun id => .removeSession id .heartbeat }

/-- `Run`: `io_.run()` returns at once where `io_` is stopped. -/
def run (w : Worker) : Worker :=
  if w.threadFlag then w
  else { w with
    threadFlag := true
    -- init heartbeat
    timers := w.timers + 1
    -- start thread
    running := !w.stopped }

/-- `Stop`, up to its `join`. -/
def stop (w : Worker) : Checked Worker := do
  if w.threadFlag then
    -- stop sessions
    let refs ← w.sessionList.values.mapM SessionPtr.deref
    return { w with
      threadFlag := false
      stopped := true
      stopping := true
      closes := w.closes ++ refs }
  else return w

/-- A worker as its constructor leaves it. -/
def start (clock : Int64) : Worker := { clock }

end Worker

-- =================================================================== steps

/-- The clock, where it is read. -/
def Event.now? : Event → Option Int64
  | .handler now _ => some now
  | .written _ _ now => some now
  | .read _ now => some now
  | .task _ now => some now
  | _ => none

/-- The socket's executor runs it. -/
def Event.onExecutor : Event → Bool
  | .handler _ _ => true
  | .written _ _ _ => true
  | .read _ _ => true
  | .close => true
  | _ => false

namespace Worker

/-- One step, for sockets of this executor. -/
inductive Step (sodium : Sodium) (executor : SocketExecutor) :
    Worker → WorkerEvent → Worker → Prop
  | tick {w : Worker} {now : Int64} (hnow : w.clock ≤ now) :
      Step sodium executor w (.tick now) { w with clock := now }
  | run {w : Worker} (hidle : w.stopping = false) :
      Step sodium executor w .run w.run
  | stop {w t : Worker} (hidle : w.stopping = false) (hstop : w.stop = .ok t) :
      Step sodium executor w .stop t
  | join {w : Worker} (hstopping : w.stopping = true) :
      Step sodium executor w .join
        { w with stopping := false, running := false }
  | createSession {w : Worker} :
      Step sodium executor w .createSession w.createSession
  | removeSession {w : Worker} {id : UInt64} :
      Step sodium executor w (.removeSession id) (w.removeSession id .other)
  | create {w t : Worker} {k : Nat} {keys : KeysWrapper} {id : UInt64}
      (hlive : w.Executes) (hk : w.queue[k]? = some .createSession)
      (hrun : (w.dequeue k).createSessionHandler keys id = .ok t) :
      Step sodium executor w (.create k keys id) t
  | remove {w t : Worker} {k : Nat} {id : UInt64} {poster : Poster}
      (hlive : w.Executes) (hk : w.queue[k]? = some (.removeSession id poster))
      (hrun : (w.dequeue k).removeSessionHandler executor id = .ok t) :
      Step sodium executor w (.remove k) t
  | heartbeat {w : Worker} {ec : Bool} {order : List UInt64}
      (hlive : w.Executes) (htimer : 0 < w.timers)
      (hstale : ec = false → ∃ vec, w.stale = .ok vec ∧ order.Perm vec) :
      Step sodium executor w (.heartbeat ec order) (w.heartbeatHandler ec order)
  | close {w : Worker} {ref : Nat} (hlive : w.Serves executor)
      (href : ref ∈ w.closes) :
      Step sodium executor w (.close ref)
        ({ w with closes := w.closes.erase ref }.close ref)
  | session {w : Worker} {ref : Nat} {e : Event} {s : SessionObject} {q : Peer}
      (hs : w.sessions[ref]? = some s) (hpeer : Peer.Step sodium s.peer e q)
      (hclose : e ≠ .close) (hnow : ∀ now, e.now? = some now → now = w.clock)
      (hlive : e.onExecutor = true → w.Serves executor) :
      Step sodium executor w (.session ref e)
        { w with sessions := w.sessions.set ref { s with peer := q } }

end Worker

end Remc.Net
