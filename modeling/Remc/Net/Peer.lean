/-
One side of a connection as a transition system: a session, the closures
its executor has still to run, and the pool task of every read that has
completed.

The executor runs posted closures one at a time in the order they were
posted; a completion handler may run between any two of them, and a pool
task may go on at any time. `tasks` keeps every task that was ever
posted, so a task is known by the read that posted it, and the number of
completed reads is its length.

`Sound` is what every reachable peer satisfies: nothing is queued, the
counter is the number of completed reads, and every posted payload is
within the limit. From there each step has one description
(`handler_step`, `written_step`, `close_step`, `Task.run_frame`), and the
properties of runs are derived from those.
-/
import Remc.Lib.Runs
import Remc.Net.Session

namespace Remc.Net

open Crypto Containers

variable {sodium : Sodium}

/-- One side of a connection. -/
structure Peer where
  role : Role
  session : Session
  /-- The closures posted and not yet run, oldest first. -/
  posted : List PostedWrite := []
  /-- The task of every completed read, oldest first. -/
  tasks : List Task := []

/-- What can happen at a peer; `now` is the clock where it is read. -/
inductive Event where
  /-- A call of `Write`. -/
  | write (w : PostedWrite)
  /-- The executor runs the oldest posted closure; `drawn` is what
  `utils::Random` gives it. -/
  | handler (now : Int64) (drawn : UInt64)
  /-- The stream takes `n` bytes of write `i`. -/
  | transfer (i n : Nat)
  /-- The completion handler of write `i` runs. -/
  | written (i : Nat) (ec : Bool) (now : Int64)
  /-- The executor runs `Close`; what was under way on the socket may
  still complete. -/
  | close
  /-- The completion handler of a read of these bytes runs. -/
  | read (chunk : Bytes) (now : Int64)
  /-- The pool goes on with the task of read `k`. -/
  | task (k : Nat) (now : Int64)

namespace Peer

/-- The writes started so far. -/
abbrev writes (p : Peer) : List AsyncWrite := p.session.outbox.writes

/-- The number of reads completed so far. -/
abbrev reads (p : Peer) : Nat := p.tasks.length

/-- A peer as its session's constructor leaves it. -/
def start (role : Role) (keys : KeysWrapper) (now : Int64) : Peer where
  role := role
  session := { keys, lastTimestamp := now }

/-- The completion handler of a read: its task gets the whole buffer. -/
def completeRead (now : Int64) (p : Peer) (chunk : Bytes) : Peer :=
  { p with
    session := p.session.completeRead now
    tasks := p.tasks ++ [p.role.task (readBuffer chunk)] }

/-- One step. An asio write completes without an error only once the
stream has taken all of it, and a read returns between one byte and a
buffer full. -/
inductive Step (sodium : Sodium) : Peer → Event → Peer → Prop
  | write {p : Peer} {w : PostedWrite} (hrole : w.role = p.role) :
      Step sodium p (.write w) { p with posted := p.posted ++ w.post.2 }
  | handler {p : Peer} {w : PostedWrite} {rest : List PostedWrite}
      {now : Int64} {drawn : UInt64} {s : Session}
      (hposted : p.posted = w :: rest)
      (hrun : w.run now drawn p.session = .ok s) :
      Step sodium p (.handler now drawn)
        { p with session := s, posted := rest }
  | transfer {p : Peer} {i n : Nat} {w : AsyncWrite}
      (hw : p.writes[i]? = some w) (hopen : w.completed = false)
      (hpos : 0 < n) (hn : w.transferred + n ≤ w.buffer.length) :
      Step sodium p (.transfer i n)
        { p with session :=
            { p.session with outbox := p.session.outbox.transfer i n } }
  | written {p : Peer} {i : Nat} {ec : Bool} {now : Int64} {w : AsyncWrite}
      {s : Session}
      (hw : p.writes[i]? = some w) (hopen : w.completed = false)
      (hall : ec = false → w.transferred = w.buffer.length)
      (hrun : p.session.written now i ec = .ok s) :
      Step sodium p (.written i ec now) { p with session := s }
  | close {p : Peer} (hrole : p.role = .server) :
      Step sodium p .close { p with session := p.session.close }
  | read {p : Peer} {chunk : Bytes} {now : Int64} (hpos : chunk ≠ [])
      (hlen : chunk.length ≤ tcpTotalPacketSize) :
      Step sodium p (.read chunk now) (p.completeRead now chunk)
  | task {p : Peer} {k : Nat} {now : Int64} {τ : Task} {r : TaskResult}
      (hτ : p.tasks[k]? = some τ)
      (hrun : τ.run sodium now p.session = .ok r) :
      Step sodium p (.task k now)
        { p with
          session := r.session
          posted := p.posted ++ r.posted
          tasks := p.tasks.set k r.task }

/-- What holds in every state of a peer. -/
structure Sound (p : Peer) : Prop where
  drained : p.session.outbox.Drained
  counter : p.session.messageCounter = UInt64.ofNat p.reads
  sizes : ∀ w ∈ p.posted, w.payload.length ≤ tcpPayloadSizeMax
  kinds : ∀ τ ∈ p.tasks, τ.OfRole p.role

theorem start_sound (role : Role) (keys : KeysWrapper) (now : Int64) :
    (start role keys now).Sound where
  drained := Outbox.new_drained
  counter := rfl
  sizes w hw := by cases hw
  kinds τ hτ := by cases hτ

end Peer

-- ========================================================= posted closures

theorem SessionServer.writeHandler_eq {now : Int64} {s : Session}
    {flags : UInt32} {messageId : UInt64} {payload packet : Bytes}
    {outbox : Outbox}
    (hcreate : s.createPacket now flags messageId payload = .ok (.ok packet))
    (henqueue : s.outbox.enqueue packet = .ok outbox) :
    writeHandler now s flags messageId payload = .ok { s with outbox } := by
  unfold writeHandler
  rw [hcreate, ok_bind]
  show (s.outbox.enqueue packet >>= _) = _
  rw [henqueue]
  rfl

theorem SessionClient.writeHandler_eq {now : Int64} {drawn : UInt64}
    {s : Session} {flags : UInt32} {payload packet : Bytes}
    (cb : Option WriteCallback) {outbox : Outbox}
    (hcreate : s.createPacket now flags drawn payload = .ok (.ok packet))
    (henqueue : s.outbox.enqueue packet = .ok outbox) :
    writeHandler now drawn s flags payload cb
      = .ok { s with
        outbox, taskQueue := emplace s.taskQueue drawn cb } := by
  unfold writeHandler
  rw [hcreate, ok_bind]
  show (s.outbox.enqueue packet >>= _) = _
  rw [henqueue]
  rfl

namespace PostedWrite

/-- The packet that a posted closure creates. -/
def packet (now : Int64) (drawn : UInt64) (s : Session) (w : PostedWrite) :
    Bytes :=
  created now w.payload 1 w.flags s.messageCounter (w.messageId drawn)
    s.keys.sharedKey.val

/-- The callbacks afterwards. -/
def taskQueue (drawn : UInt64) (s : Session) :
    PostedWrite → UInt64 → Option WriteCallback
  | .server _ _ _ => s.taskQueue
  | .client _ _ cb => SessionClient.emplace s.taskQueue drawn cb

/-- Only payloads within the limit are posted. -/
theorem post_sizes {w w' : PostedWrite} (h : w' ∈ w.post.2) :
    w'.payload.length ≤ tcpPayloadSizeMax := by
  unfold post at h
  split at h
  next => cases h
  next hle =>
    rw [List.mem_singleton.mp h]
    exact Nat.le_of_not_lt hle

/-- A payload within the limit is posted. -/
theorem post_eq {w : PostedWrite} (h : w.payload.length ≤ tcpPayloadSizeMax) :
    w.post = (true, [w]) := by
  rw [post, if_neg (Nat.not_lt_of_le h)]

/-- With nothing queued a posted closure creates its packet and starts
writing it. -/
theorem run_eq {s : Session} {w : PostedWrite} (hdrained : s.outbox.Drained)
    (hsize : w.payload.length ≤ tcpPayloadSizeMax) (now : Int64)
    (drawn : UInt64) :
    ∃ messageQueue,
      w.run now drawn s = .ok { s with
        taskQueue := w.taskQueue drawn s
        outbox := { s.outbox with
          messageQueue
          writes := s.outbox.writes ++ [{ buffer := w.packet now drawn s }] } }
      ∧ Represents .uint16 messageQueue
        { capacity := ringBufferCapacity, queue := [], live := true } := by
  obtain ⟨messageQueue, henqueue, hqueue⟩ := hdrained.enqueue
    (created_fits hsize now 1 w.flags s.messageCounter (w.messageId drawn) :
      Outbox.Fits (w.packet now drawn s))
  have hcreate : s.createPacket now w.flags (w.messageId drawn) w.payload
      = .ok (.ok (w.packet now drawn s)) :=
    createPacket_created s.keys.sharedKey.property hsize now 1 w.flags
      s.messageCounter (w.messageId drawn)
  refine ⟨messageQueue, ?_, hqueue⟩
  cases w with
  | server flags messageId payload =>
      exact SessionServer.writeHandler_eq hcreate henqueue
  | client flags payload cb =>
      exact SessionClient.writeHandler_eq cb hcreate henqueue

end PostedWrite

/-- A public key is a small payload. -/
theorem key_size (k : Key) : k.val.length ≤ tcpPayloadSizeMax := by
  rw [k.property]
  decide

/-- A payload within the limit is posted. -/
theorem SessionServer.write_posted {payload : Bytes}
    (hsize : payload.length ≤ tcpPayloadSizeMax) (flags : UInt32)
    (messageId : UInt64) :
    (write flags messageId payload).2 = [.server flags messageId payload] :=
  congrArg Prod.snd
    (PostedWrite.post_eq (w := .server flags messageId payload) hsize)

/-- A `Handshake` is answered with the server's public key. -/
theorem SessionServer.callbackAnswer_handshake (sodium : Sodium) (s : Session)
    {packet : Packet} (h : packet.header.flags = Flags.handshake) :
    callbackAnswer sodium s packet = {
      session := s
      posted := [.server Flags.handshake packet.header.messageId
        (s.keys.getPublicKey sodium).val]
      task := .serverKey packet.payload } := by
  rw [callbackAnswer, if_pos h, write_posted (key_size _)]

-- =================================================================== tasks

theorem Role.task_ofRole (buffer : Bytes) (role : Role) :
    (role.task buffer).OfRole role := by
  cases role <;> rfl

theorem Role.task_unread (buffer : Bytes) (role : Role) :
    (role.task buffer).unread = some buffer := by
  cases role <;> rfl

/-- A pool task touches the keys and the callbacks of its session, posts
what `Write` lets through, stays a task of its class, and has begun. -/
theorem Task.run_frame {now : Int64} {s : Session} {τ : Task}
    {r : TaskResult} (h : τ.run sodium now s = .ok r) :
    r.session.messageCounter = s.messageCounter
      ∧ r.session.outbox = s.outbox
      ∧ (∀ w ∈ r.posted, w.payload.length ≤ tcpPayloadSizeMax)
      ∧ (∀ role, τ.OfRole role → r.task.OfRole role)
      ∧ r.task.unread = none := by
  have hnone : ∀ w ∈ ([] : List PostedWrite),
      w.payload.length ≤ tcpPayloadSizeMax := fun w hw => by cases hw
  cases τ with
  | serverRead buffer =>
      obtain ⟨result, -, hr⟩ := bind_eq_ok h
      cases result with
      | error e =>
          cases hr
          exact ⟨rfl, rfl, hnone, fun _ _ => trivial, rfl⟩
      | ok packet =>
          cases hr
          exact ⟨rfl, rfl, hnone, fun _ hrole => hrole, rfl⟩
  | serverAnswer packet =>
      cases h
      unfold SessionServer.callbackAnswer
      split
      next =>
        exact ⟨rfl, rfl, fun w hw => PostedWrite.post_sizes hw,
          fun _ hrole => hrole, rfl⟩
      next =>
        split
        next =>
          exact ⟨rfl, rfl, fun w hw => PostedWrite.post_sizes hw,
            fun _ _ => trivial, rfl⟩
        next => exact ⟨rfl, rfl, hnone, fun _ _ => trivial, rfl⟩
  | serverKey payload =>
      obtain ⟨result, -, hr⟩ := bind_eq_ok h
      cases hr
      exact ⟨rfl, rfl, hnone, fun _ _ => trivial, rfl⟩
  | clientRead buffer =>
      obtain ⟨result, -, hr⟩ := bind_eq_ok h
      cases result with
      | error e =>
          cases hr
          exact ⟨rfl, rfl, hnone, fun _ _ => trivial, rfl⟩
      | ok packet =>
          cases hr
          unfold SessionClient.afterRead
          dsimp only
          split
          next => exact ⟨rfl, rfl, hnone, fun _ _ => trivial, rfl⟩
          next => exact ⟨rfl, rfl, hnone, fun _ hrole => hrole, rfl⟩
  | clientCallback cb packet =>
      obtain ⟨keys, -, hr⟩ := bind_eq_ok h
      cases hr
      exact ⟨rfl, rfl, hnone, fun _ _ => trivial, rfl⟩
  | done =>
      cases h
      exact ⟨rfl, rfl, hnone, fun _ _ => trivial, rfl⟩

/-- And nothing else of its session. -/
theorem Task.run_session {now : Int64} {s : Session} {τ : Task}
    {r : TaskResult} (h : τ.run sodium now s = .ok r) :
    r.session = { s with
      keys := r.session.keys, taskQueue := r.session.taskQueue } := by
  cases τ with
  | serverRead buffer =>
      obtain ⟨result, -, hr⟩ := bind_eq_ok h
      cases hr
      cases result <;> rfl
  | serverAnswer packet =>
      cases h
      unfold SessionServer.callbackAnswer
      split
      next => rfl
      next => split <;> rfl
  | serverKey payload =>
      obtain ⟨result, -, hr⟩ := bind_eq_ok h
      cases hr
      rfl
  | clientRead buffer =>
      obtain ⟨result, -, hr⟩ := bind_eq_ok h
      cases hr
      cases result with
      | error e => rfl
      | ok packet =>
          unfold SessionClient.afterRead
          dsimp only
          split <;> rfl
  | clientCallback cb packet =>
      obtain ⟨keys, -, hr⟩ := bind_eq_ok h
      cases hr
      rfl
  | done =>
      cases h
      rfl

/-- A posted closure touches the queue and the callbacks. -/
theorem PostedWrite.run_session {now : Int64} {drawn : UInt64}
    {s s' : Session} {w : PostedWrite} (h : w.run now drawn s = .ok s') :
    s' = { s with outbox := s'.outbox, taskQueue := s'.taskQueue } := by
  cases w with
  | server flags messageId payload =>
      obtain ⟨result, -, hr⟩ := bind_eq_ok h
      cases result with
      | error e =>
          cases hr
          rfl
      | ok packet =>
          obtain ⟨outbox, -, hs⟩ := bind_eq_ok hr
          cases hs
          rfl
  | client flags payload cb =>
      obtain ⟨result, -, hr⟩ := bind_eq_ok h
      cases result with
      | error e =>
          cases hr
          rfl
      | ok packet =>
          obtain ⟨outbox, -, hs⟩ := bind_eq_ok hr
          cases hs
          rfl

-- =================================================================== steps

namespace Peer

/-- A posted closure runs: it starts a write of the packet it creates,
and leaves the keys, the counter and the tasks alone. -/
theorem handler_step {p q : Peer} {now : Int64} {drawn : UInt64}
    (hp : p.Sound) (h : Step sodium p (.handler now drawn) q) :
    ∃ w rest messageQueue, p.posted = w :: rest
      ∧ Represents .uint16 messageQueue
        { capacity := ringBufferCapacity, queue := [], live := true }
      ∧ q = { p with
          posted := rest
          session := { p.session with
            taskQueue := w.taskQueue drawn p.session
            outbox := { p.session.outbox with
              messageQueue
              writes := p.writes
                ++ [{ buffer := w.packet now drawn p.session }] } } } := by
  cases h with
  | @handler w rest _ _ s hposted hrun =>
      have hsize := hp.sizes w (by rw [hposted]; exact List.mem_cons_self ..)
      obtain ⟨messageQueue, heq, hqueue⟩ :=
        PostedWrite.run_eq hp.drained hsize now drawn
      rw [heq] at hrun
      cases hrun
      exact ⟨w, rest, messageQueue, hposted, hqueue, rfl⟩

/-- A write completes: it is marked, and nothing else is started. -/
theorem written_step {p q : Peer} {i : Nat} {ec : Bool} {now : Int64}
    (hp : p.Sound) (h : Step sodium p (.written i ec now) q) :
    ∃ w, p.writes[i]? = some w ∧ w.completed = false
      ∧ q = { p with session := { p.session with
          lastTimestamp := if ec then p.session.lastTimestamp else now
          outbox := { p.session.outbox with
            writes := p.writes.set i { w with completed := true } } } } := by
  cases h with
  | @written _ _ _ w s hw hopen hall hrun =>
      unfold Session.written at hrun
      rw [hp.drained.written hw ec] at hrun
      cases hrun
      exact ⟨w, hw, hopen, rfl⟩

/-- `Close` touches the socket and the queue, nothing else. -/
theorem close_step {p q : Peer} (hp : p.Sound) (h : Step sodium p .close q) :
    ∃ isOpen messageQueue,
      Represents .uint16 messageQueue
        { capacity := ringBufferCapacity, queue := [], live := true }
      ∧ q = { p with session := { p.session with
          isOpen, outbox := { p.session.outbox with messageQueue } } } := by
  cases h with
  | close hrole =>
      unfold Session.close
      split
      next => exact ⟨false, _, hp.drained.clear, rfl⟩
      next => exact ⟨p.session.isOpen, _, hp.drained, rfl⟩

/-- The stream takes bytes of a write that is there. -/
theorem transfer_eq {o : Outbox} {i : Nat} {w : AsyncWrite}
    (hw : o.writes[i]? = some w) (n : Nat) :
    o.transfer i n = { o with
      stream := o.stream ++ (w.buffer.drop w.transferred).take n
      writes := o.writes.set i { w with transferred := w.transferred + n } }
    := by
  unfold Outbox.transfer
  rw [hw]

/-- Every step keeps a peer sound. -/
theorem Sound.step {p q : Peer} {e : Event} (hp : p.Sound)
    (h : Step sodium p e q) : q.Sound := by
  cases e with
  | write w =>
      cases h
      refine ⟨hp.drained, hp.counter, ?_, hp.kinds⟩
      intro w' hw'
      rcases List.mem_append.mp hw' with hold | hnew
      · exact hp.sizes w' hold
      · exact PostedWrite.post_sizes hnew
  | handler now drawn =>
      obtain ⟨w, rest, messageQueue, hposted, hqueue, rfl⟩ := handler_step hp h
      refine ⟨hqueue, hp.counter, ?_, hp.kinds⟩
      intro v hv
      exact hp.sizes v (by rw [hposted]; exact List.mem_cons_of_mem _ hv)
  | transfer i n =>
      cases h with
      | transfer hw hopen hpos hn =>
          refine ⟨?_, hp.counter, hp.sizes, hp.kinds⟩
          rw [transfer_eq hw]
          exact hp.drained
  | written i ec now =>
      obtain ⟨v, hv, hopen, rfl⟩ := written_step hp h
      exact ⟨hp.drained, hp.counter, hp.sizes, hp.kinds⟩
  | close =>
      obtain ⟨isOpen, messageQueue, hqueue, rfl⟩ := close_step hp h
      exact ⟨hqueue, hp.counter, hp.sizes, hp.kinds⟩
  | read chunk now =>
      cases h
      refine ⟨hp.drained, ?_, hp.sizes, ?_⟩
      · show p.session.messageCounter + 1
          = UInt64.ofNat (p.tasks ++ [p.role.task (readBuffer chunk)]).length
        rw [hp.counter, List.length_append, UInt64.ofNat_add]
        rfl
      · intro τ hτ
        rcases List.mem_append.mp hτ with hold | hnew
        · exact hp.kinds τ hold
        · rw [List.mem_singleton.mp hnew]
          exact Role.task_ofRole _ _
  | task k now =>
      cases h with
      | @task _ _ τ r hτ hrun =>
          obtain ⟨hcounter, houtbox, hsizes, hkind, -⟩ := Task.run_frame hrun
          refine ⟨?_, ?_, ?_, ?_⟩
          · show r.session.outbox.Drained
            rw [houtbox]
            exact hp.drained
          · show r.session.messageCounter
              = UInt64.ofNat (p.tasks.set k r.task).length
            rw [hcounter, List.length_set]
            exact hp.counter
          · intro w hw
            rcases List.mem_append.mp hw with hold | hnew
            · exact hp.sizes w hold
            · exact hsizes w hnew
          · intro τ' hτ'
            rcases List.mem_or_eq_of_mem_set hτ' with hold | rfl
            · exact hp.kinds τ' hold
            · exact hkind _ (hp.kinds τ (List.mem_of_getElem? hτ))

/-- What one side of a connection is about, as the other side and its own
tasks see it: everything but how far its writes have got. -/
structure View where
  posted : List PostedWrite
  tasks : List Task
  sent : List Bytes
  keys : KeysWrapper
  taskQueue : UInt64 → Option WriteCallback

def view (p : Peer) : View where
  posted := p.posted
  tasks := p.tasks
  sent := p.session.outbox.sent
  keys := p.session.keys
  taskQueue := p.session.taskQueue

/-- What a view says about the peer's own fields. -/
theorem view_fields {p : Peer} {v : View} (h : p.view = v) :
    p.posted = v.posted ∧ p.tasks = v.tasks ∧ p.session.keys = v.keys
      ∧ p.session.taskQueue = v.taskQueue := by
  subst h
  exact ⟨rfl, rfl, rfl, rfl⟩

/-- A posted closure adds its packet to what was sent. -/
theorem handler_view {p q : Peer} {now : Int64} {drawn : UInt64}
    (hp : p.Sound) (h : Step sodium p (.handler now drawn) q) :
    ∃ w rest, p.posted = w :: rest
      ∧ q.view = { p.view with
        posted := rest
        sent := p.view.sent ++ [w.packet now drawn p.session]
        taskQueue := w.taskQueue drawn p.session } := by
  obtain ⟨w, rest, messageQueue, hposted, -, rfl⟩ := handler_step hp h
  refine ⟨w, rest, hposted, ?_⟩
  unfold view
  rw [View.mk.injEq]
  exact ⟨rfl, rfl, Outbox.sent_start _ _, rfl, rfl⟩

/-- What the socket does with a write is not seen. -/
theorem transfer_view {p q : Peer} {i n : Nat}
    (h : Step sodium p (.transfer i n) q) : q.view = p.view := by
  cases h with
  | @transfer _ _ w hw hopen hpos hn =>
      have hsent : (p.writes.set i
          { w with transferred := w.transferred + n }).map _ = _ :=
        Outbox.sent_set hw rfl
      unfold view
      rw [transfer_eq hw, View.mk.injEq]
      exact ⟨rfl, rfl, hsent, rfl, rfl⟩

theorem written_view {p q : Peer} {i : Nat} {ec : Bool} {now : Int64}
    (hp : p.Sound) (h : Step sodium p (.written i ec now) q) :
    q.view = p.view := by
  obtain ⟨w, hw, -, rfl⟩ := written_step hp h
  have hsent : (p.writes.set i { w with completed := true }).map _ = _ :=
    Outbox.sent_set hw rfl
  unfold view
  rw [View.mk.injEq]
  exact ⟨rfl, rfl, hsent, rfl, rfl⟩

theorem close_view {p q : Peer} (hp : p.Sound) (h : Step sodium p .close q) :
    q.view = p.view := by
  obtain ⟨isOpen, messageQueue, -, rfl⟩ := close_step hp h
  rfl

/-- A read adds its task. -/
theorem read_view {p q : Peer} {chunk : Bytes} {now : Int64}
    (h : Step sodium p (.read chunk now) q) :
    q.view = { p.view with
      tasks := p.tasks ++ [p.role.task (readBuffer chunk)] } := by
  cases h
  rfl

/-- A task leaves the outbox alone. -/
theorem task_outbox {p q : Peer} {k : Nat} {now : Int64}
    (h : Step sodium p (.task k now) q) :
    q.session.outbox = p.session.outbox := by
  cases h with
  | task hτ hrun => exact (Task.run_frame hrun).2.1

/-- A task changes what its part changes. -/
theorem task_view {p q : Peer} {k : Nat} {now : Int64}
    (h : Step sodium p (.task k now) q) :
    ∃ τ r, p.tasks[k]? = some τ ∧ τ.run sodium now p.session = .ok r
      ∧ q.view = { p.view with
        posted := p.posted ++ r.posted
        tasks := p.tasks.set k r.task
        keys := r.session.keys
        taskQueue := r.session.taskQueue } := by
  have houtbox := task_outbox h
  cases h with
  | @task _ _ τ r hτ hrun =>
      refine ⟨τ, r, hτ, hrun, ?_⟩
      unfold view
      rw [View.mk.injEq]
      exact ⟨rfl, rfl, congrArg Outbox.sent houtbox, rfl, rfl⟩

/-- Only a posted closure adds to what was sent. -/
theorem sent_step {p q : Peer} {e : Event} (hp : p.Sound)
    (h : Step sodium p e q) :
    (∃ now drawn w rest, e = .handler now drawn ∧ p.posted = w :: rest
        ∧ q.view.sent = p.view.sent ++ [w.packet now drawn p.session])
      ∨ q.view.sent = p.view.sent := by
  cases e with
  | write w =>
      cases h
      exact Or.inr rfl
  | handler now drawn =>
      obtain ⟨w, rest, hposted, hview⟩ := handler_view hp h
      exact Or.inl ⟨now, drawn, w, rest, rfl, hposted, by rw [hview]⟩
  | transfer i n => exact Or.inr (congrArg View.sent (transfer_view h))
  | written i ec now => exact Or.inr (congrArg View.sent (written_view hp h))
  | close => exact Or.inr (congrArg View.sent (close_view hp h))
  | read chunk now =>
      cases h
      exact Or.inr rfl
  | task k now => exact Or.inr (congrArg Outbox.sent (task_outbox h))

/-- Where a task has gone on, those that have not begun are others. -/
theorem unread_set {ts : List Task} {t τ : Task} {k j : Nat} {buffer : Bytes}
    (ht : t.unread = none) (hτ : (ts.set k t)[j]? = some τ)
    (hunread : τ.unread = some buffer) : k ≠ j ∧ ts[j]? = some τ := by
  rcases eq_or_ne k j with rfl | hne
  · have hlt := (List.getElem?_eq_some_iff.mp hτ).1
    rw [List.length_set] at hlt
    rw [List.getElem?_set_self hlt] at hτ
    cases hτ
    rw [ht] at hunread
    cases hunread
  · rw [List.getElem?_set_ne hne] at hτ
    exact ⟨hne, hτ⟩

/-- Only a completed read adds a task that has not begun, and only a
completed read changes how many tasks there are. -/
theorem unread_step {p q : Peer} {e : Event} (hp : p.Sound)
    (h : Step sodium p e q) {k : Nat} {τ : Task} {buffer : Bytes}
    (hτ : q.tasks[k]? = some τ) (hunread : τ.unread = some buffer) :
    (p.tasks[k]? = some τ
        ∧ (q.reads = p.reads ∨ ∃ chunk now, e = .read chunk now))
      ∨ ∃ chunk now, e = .read chunk now ∧ k = p.reads
        ∧ q.reads = p.reads + 1 ∧ buffer = readBuffer chunk := by
  cases e with
  | write w =>
      cases h
      exact Or.inl ⟨hτ, Or.inl rfl⟩
  | handler now drawn =>
      obtain ⟨w, rest, messageQueue, -, -, rfl⟩ := handler_step hp h
      exact Or.inl ⟨hτ, Or.inl rfl⟩
  | transfer i n =>
      cases h
      exact Or.inl ⟨hτ, Or.inl rfl⟩
  | written i ec now =>
      cases h
      exact Or.inl ⟨hτ, Or.inl rfl⟩
  | close =>
      cases h
      exact Or.inl ⟨hτ, Or.inl rfl⟩
  | read chunk now =>
      cases h
      have hread : (p.tasks ++ [p.role.task (readBuffer chunk)])[k]? = some τ :=
        hτ
      rcases Nat.lt_trichotomy k p.tasks.length with hlt | heq | hgt
      · rw [List.getElem?_append_left hlt] at hread
        exact Or.inl ⟨hread, Or.inr ⟨chunk, now, rfl⟩⟩
      · rw [heq, List.getElem?_concat_length] at hread
        cases hread
        rw [Role.task_unread] at hunread
        cases hunread
        exact Or.inr ⟨chunk, now, rfl, heq, List.length_append, rfl⟩
      · rw [List.getElem?_eq_none (by rw [List.length_append]; exact hgt)]
          at hread
        cases hread
  | task k' now =>
      cases h with
      | task hτ' hrun =>
          obtain ⟨-, -, -, -, hbegun⟩ := Task.run_frame hrun
          obtain ⟨-, hold⟩ := unread_set hbegun hτ hunread
          exact Or.inl ⟨hold, Or.inl List.length_set⟩

/-- A task that has not begun is the one its read posted. -/
theorem Sound.unread {p : Peer} (hp : p.Sound) {k : Nat} {τ : Task}
    {buffer : Bytes} (hτ : p.tasks[k]? = some τ)
    (hunread : τ.unread = some buffer) : τ = p.role.task buffer := by
  have hrole := hp.kinds τ (List.mem_of_getElem? hτ)
  cases τ with
  | serverRead b =>
      cases hunread
      rw [show p.role = .server from hrole]
      rfl
  | clientRead b =>
      cases hunread
      rw [show p.role = .client from hrole]
      rfl
  | serverAnswer packet => cases hunread
  | serverKey payload => cases hunread
  | clientCallback cb packet => cases hunread
  | done => cases hunread

-- ========================================================= what can happen

/-- A `Write` within the limit is posted. -/
theorem write_step {p : Peer} {w : PostedWrite} (hrole : w.role = p.role)
    (hsize : w.payload.length ≤ tcpPayloadSizeMax) :
    Step sodium p (.write w) { p with posted := p.posted ++ [w] } := by
  have hstep : Step sodium p (.write w) _ := .write hrole
  rwa [PostedWrite.post_eq hsize] at hstep

/-- A posted closure can always run, and starts a write then. -/
theorem handler_enabled (sodium : Sodium) {p : Peer} (hp : p.Sound) {w : PostedWrite}
    {rest : List PostedWrite} (hposted : p.posted = w :: rest) (now : Int64)
    (drawn : UInt64) :
    ∃ q, Step sodium p (.handler now drawn) q ∧ q.posted = rest
      ∧ q.session.outbox.outstanding = p.session.outbox.outstanding + 1
      ∧ q.session.keys = p.session.keys ∧ q.tasks = p.tasks
      ∧ q.writes = p.writes ++ [{ buffer := w.packet now drawn p.session }]
      ∧ q.session.outbox.stream = p.session.outbox.stream := by
  have hsize := hp.sizes w (by rw [hposted]; exact List.mem_cons_self ..)
  obtain ⟨messageQueue, hrun, -⟩ :=
    PostedWrite.run_eq hp.drained hsize now drawn
  exact ⟨_, .handler hposted hrun, rfl, Outbox.outstanding_start _ _, rfl, rfl,
    rfl, rfl⟩

/-- A posted closure runs and the stream takes its packet at once. -/
theorem send_enabled (sodium : Sodium) {p : Peer} (hp : p.Sound) {w : PostedWrite}
    {rest : List PostedWrite} (hposted : p.posted = w :: rest) (now : Int64)
    (drawn : UInt64) :
    ∃ q₁ q₂, Step sodium p (.handler now drawn) q₁
      ∧ Step sodium q₁ (.transfer p.writes.length
        (w.packet now drawn p.session).length) q₂
      ∧ q₁.view = { p.view with
        posted := rest
        sent := p.view.sent ++ [w.packet now drawn p.session]
        taskQueue := w.taskQueue drawn p.session }
      ∧ q₂.view = q₁.view
      ∧ q₂.session.outbox.stream
        = p.session.outbox.stream ++ w.packet now drawn p.session := by
  obtain ⟨q₁, h₁, -, -, -, -, hwrites, hstream⟩ :=
    handler_enabled sodium hp hposted now drawn
  obtain ⟨w', rest', hposted', hview⟩ := handler_view hp h₁
  rw [hposted] at hposted'
  cases hposted'
  have hsize := hp.sizes w (by rw [hposted]; exact List.mem_cons_self ..)
  obtain ⟨hne, -⟩ : Outbox.Fits (w.packet now drawn p.session) :=
    created_fits hsize _ _ _ _ _
  have hlast : q₁.writes[p.writes.length]?
      = some { buffer := w.packet now drawn p.session } := by
    rw [hwrites]
    exact List.getElem?_concat_length
  have h₂ : Step sodium q₁ (.transfer p.writes.length
      (w.packet now drawn p.session).length) _ :=
    .transfer hlast rfl (List.length_pos_of_ne_nil hne) (Nat.zero_add _).le
  refine ⟨q₁, _, h₁, h₂, hview, transfer_view h₂, ?_⟩
  show (q₁.session.outbox.transfer _ _).stream = _
  rw [transfer_eq hlast, hstream]
  show _ ++ ((w.packet now drawn p.session).drop 0).take _ = _
  rw [List.drop_zero, List.take_length]

/-- The stream takes a write, and its completion handler runs. -/
theorem finish_enabled (sodium : Sodium) {p : Peer} (hp : p.Sound) {i : Nat}
    {buffer : Bytes} (hw : p.writes[i]? = some { buffer }) (hne : buffer ≠ [])
    (now : Int64) :
    ∃ q₁ q₂, Step sodium p (.transfer i buffer.length) q₁
      ∧ Step sodium q₁ (.written i false now) q₂
      ∧ q₂.writes = p.writes.set i
        { buffer, transferred := buffer.length, completed := true }
      ∧ q₂.session.outbox.stream = p.session.outbox.stream ++ buffer := by
  have h₁ : Step sodium p (.transfer i buffer.length)
      { p with session :=
        { p.session with
          outbox := p.session.outbox.transfer i buffer.length } } :=
    .transfer hw rfl (List.length_pos_of_ne_nil hne) (Nat.zero_add _).le
  have hsound := hp.step h₁
  rw [transfer_eq hw] at h₁ hsound
  have hlast : (p.writes.set i { buffer, transferred := 0 + buffer.length })[i]?
      = some { buffer, transferred := 0 + buffer.length } :=
    List.getElem?_set_self (List.getElem?_eq_some_iff.mp hw).1
  have hdone := hsound.drained.written hlast false
  refine ⟨_, _, h₁, .written hlast rfl (fun _ => Nat.zero_add _)
    (congrArg (· >>= fun outbox => pure
      ({ p.session with outbox, lastTimestamp := now } : Session)) hdone),
    ?_, ?_⟩
  · show (p.writes.set i _).set i _ = _
    rw [List.set_set, Nat.zero_add]
  · show _ ++ (buffer.drop 0).take buffer.length = _
    rw [List.drop_zero, List.take_length]

/-- A peer keeps its class. -/
theorem Step.role_eq {p q : Peer} {e : Event} (h : Step sodium p e q) :
    q.role = p.role := by
  cases h <;> rfl

end Peer

end Remc.Net
