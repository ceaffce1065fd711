/-
Requests and answers over a connection.

On a connection that delivers one packet per read (`System.Intact`),
whatever a side accepts the other side has sent, each packet once
(`Received`); and a server that is left to its callback sends what it
owes, each answer once (`Peer.Accounts`). Together: what a client
accepts are answers to packets that it has sent itself, no more of them
than it has sent (`System.answers_requested`), under every interleaving
and whatever keys the two sides hold.

Packets with the `NoCrypto` bit cannot be rejected for their key or their
nonce. So every test message is answered once everything that is under
way has been dealt with (`System.testMessages_answered`), provided that
the tasks begin within the time limit.
-/
import Remc.Net.Answers
import Remc.Net.Callbacks
import Remc.Net.Counters

namespace Remc.Net

open Crypto Runs Ledger

variable {sodium : Sodium}

-- =========================================================== what is read

/-- The request that a task has still to read. -/
def Task.waiting (τ : Task) : Multiset Request :=
  match τ.unread with
  | none => 0
  | some buffer => {requestOf buffer}

theorem Task.waiting_begun {τ : Task} (h : τ.unread = none) :
    τ.waiting = 0 := by
  unfold waiting
  rw [h]

theorem Task.waiting_unread {τ : Task} {buffer : Bytes}
    (h : τ.unread = some buffer) : τ.waiting = {requestOf buffer} := by
  unfold waiting
  rw [h]

/-- An accepted packet has the request of the buffer. -/
theorem accepted_request {w key : Bytes} {packet : Packet} {now : Int64}
    {nonce : UInt64} (hkey : key.length = 32)
    (h : readPacket now w nonce key = .ok (.ok packet)) :
    packet.request = requestOf w := by
  obtain ⟨-, hdecode, -⟩ := readPacket_accepted hkey h
  rw [Packet.request, decodePayload_header hdecode]
  split <;> rfl

theorem returnedBy_le {w key : Bytes} {result : Except PacketError Packet}
    {now : Int64} {nonce : UInt64} (hkey : key.length = 32)
    (h : readPacket now w nonce key = .ok result) :
    returnedBy result ≤ {requestOf w} := by
  cases result with
  | error e => exact Multiset.zero_le _
  | ok packet =>
      rw [returnedBy, accepted_request hkey h]

/-- A packet that some `CreatePacket` call has put on the wire. -/
def Created (packet : Bytes) : Prop :=
  ∃ (s : Sending) (key : Key), s.payload.length ≤ tcpPayloadSizeMax
    ∧ packet = s.wire key.val

/-- What stands behind a packet in the read buffer is not looked at. -/
theorem Created.requestOf_readBuffer {packet : Bytes} (h : Created packet) :
    requestOf (readBuffer packet) = requestOf packet := by
  obtain ⟨s, key, -, rfl⟩ := h
  have hheader := headerOf_created s.time s.payload s.version s.flags s.nonce
    s.messageId key.val
  have hbare := hheader []
  rw [List.append_nil] at hbare
  rw [requestOf, requestOf, readBuffer, Sending.wire, hheader, hbare]

/-- A packet with the `NoCrypto` bit is accepted while it is fresh, with
any key and any nonce. -/
theorem Created.readPacket_readBuffer {packet key : Bytes}
    (h : Created packet) (hplain : NoCrypto (requestOf packet).1)
    (hkey : key.length = 32) {now : Int64}
    (hfresh : Fresh now (headerOf (readBuffer packet)).timestamp)
    (nonce : UInt64) :
    ∃ p, readPacket now (readBuffer packet) nonce key = .ok (.ok p) := by
  obtain ⟨s, key', hsize, rfl⟩ := h
  have hheader := headerOf_created s.time s.payload s.version s.flags s.nonce
    s.messageId key'.val
  have hbare := hheader []
  rw [List.append_nil] at hbare
  rw [requestOf, Sending.wire, hbare] at hplain
  rw [readBuffer, Sending.headerOf_wire hsize] at hfresh
  exact ⟨_, readPacket_created_noCrypto hkey hsize hplain nonce hfresh s.version
    s.nonce s.messageId key'.val _⟩

namespace Peer

/-- A part of a task returns no more than the task was waiting for. -/
theorem task_returned {p q : Peer} {k : Nat} {now : Int64} (hp : p.Sound)
    (h : Step sodium p (.task k now) q) :
    ∃ τ r, p.view.tasks[k]? = some τ
      ∧ q.view.tasks = p.view.tasks.set k r ∧ r.unread = none
      ∧ total ReadCall.returned (p.readCalls (.task k now)) ≤ τ.waiting
      ∧ ∀ packet, Created packet → τ.unread = some (readBuffer packet) →
        p.InTime k now →
        (total ReadCall.returned (p.readCalls (.task k now))).filter
            (fun request => NoCrypto request.1)
          = τ.waiting.filter fun request => NoCrypto request.1 := by
  obtain ⟨τ, r, hτ, hrun, hview⟩ := task_view h
  have hbegun := (Task.run_frame hrun).2.2.2.2
  refine ⟨τ, r.task, hτ, by rw [hview]; rfl, hbegun, ?_, ?_⟩
  · cases hunread : τ.unread with
    | none =>
        rw [returned_begun hτ hunread]
        exact Multiset.zero_le _
    | some buffer =>
        have htask := hp.unread hτ hunread
        rw [htask] at hrun hτ
        obtain ⟨result, hread, -⟩ := Role.task_result hrun
        rw [returned_task hτ hread, Task.waiting_unread hunread]
        exact returnedBy_le p.session.keys.sharedKey.property hread
  · intro packet hcreated hunread hinTime
    have hfresh := hinTime τ _ hτ hunread
    have htask := hp.unread hτ hunread
    rw [htask] at hrun hτ
    obtain ⟨result, hread, -⟩ := Role.task_result hrun
    have hkey := p.session.keys.sharedKey.property
    rw [returned_task hτ hread, Task.waiting_unread hunread]
    by_cases hplain : NoCrypto (requestOf packet).1
    · obtain ⟨p', hp'⟩ := hcreated.readPacket_readBuffer hplain hkey hfresh
        (p.role.readNonce p.session)
      rw [hread] at hp'
      cases hp'
      rw [returnedBy, accepted_request hkey hread]
    · -- neither side has such a request
      have hnone : Multiset.filter (fun request : Request => NoCrypto request.1)
          {requestOf (readBuffer packet)} = 0 := by
        rw [hcreated.requestOf_readBuffer]
        exact (Multiset.filter_singleton _).trans (if_neg hplain)
      have hle := Multiset.filter_le_filter
        (fun request : Request => NoCrypto request.1) (returnedBy_le hkey hread)
      rw [hnone] at hle ⊢
      exact Multiset.le_zero.mp hle

/-- One side of a connection with one packet per read: the packets that
the other side has sent, this side's tasks, and what they have
returned. -/
structure Received (sent : List Bytes) (tasks : List Task)
    (calls : List ReadCall) : Prop where
  created : ∀ packet ∈ sent, Created packet
  reads : tasks.length ≤ sent.length
  arrived : ∀ (k : Nat) (τ : Task) (buffer : Bytes), tasks[k]? = some τ →
    τ.unread = some buffer →
      ∃ packet, sent[k]? = some packet ∧ buffer = readBuffer packet
  returned : total ReadCall.returned calls + total Task.waiting tasks
    ≤ total (fun packet => {requestOf packet}) (sent.take tasks.length)

variable {sent : List Bytes} {tasks : List Task} {calls : List ReadCall}

theorem received_start : Received [] [] [] where
  created _ hpacket := absurd hpacket List.not_mem_nil
  reads := le_rfl
  arrived _ _ _ hτ := by cases hτ
  returned := le_rfl

/-- The other side sends one more packet. -/
theorem Received.sent_append (h : Received sent tasks calls) {packet : Bytes}
    (hpacket : Created packet) :
    Received (sent ++ [packet]) tasks calls := by
  refine ⟨?_, ?_, ?_, ?_⟩
  · intro packet' hmem
    rcases List.mem_append.mp hmem with hold | hnew
    · exact h.created packet' hold
    · rw [List.mem_singleton.mp hnew]
      exact hpacket
  · rw [List.length_append]
    exact Nat.le_add_right_of_le h.reads
  · intro k τ buffer hτ hunread
    obtain ⟨packet', hsent, hbuffer⟩ := h.arrived k τ buffer hτ hunread
    refine ⟨packet', ?_, hbuffer⟩
    rw [List.getElem?_append_left (List.getElem?_eq_some_iff.mp hsent).1]
    exact hsent
  · rw [List.take_append_of_le_length h.reads]
    exact h.returned

/-- The next read takes the next packet, and waits for its request. -/
theorem Received.total_read (h : Received sent tasks calls) {packet : Bytes}
    (hpacket : sent[tasks.length]? = some packet) (role : Role) :
    total Task.waiting (tasks ++ [role.task (readBuffer packet)])
        = total Task.waiting tasks + {requestOf packet}
      ∧ total (fun packet => {requestOf packet})
          (sent.take (tasks ++ [role.task (readBuffer packet)]).length)
        = total (fun packet => {requestOf packet}) (sent.take tasks.length)
          + {requestOf packet} := by
  have hcreated := h.created packet (List.mem_of_getElem? hpacket)
  constructor
  · rw [total_append, total_cons, total_nil, add_zero,
      Task.waiting_unread (Role.task_unread _ role),
      hcreated.requestOf_readBuffer]
  · rw [List.length_append, List.length_singleton, List.take_add_one, hpacket,
      Option.toList_some, total_append, total_cons, total_nil, add_zero]

theorem Received.read (h : Received sent tasks calls) {packet : Bytes}
    (hpacket : sent[tasks.length]? = some packet) (role : Role) :
    Received sent (tasks ++ [role.task (readBuffer packet)]) calls := by
  obtain ⟨hwaiting, htaken⟩ := h.total_read hpacket role
  have hlt := (List.getElem?_eq_some_iff.mp hpacket).1
  have hlength : (tasks ++ [role.task (readBuffer packet)]).length
      = tasks.length + 1 := List.length_append
  refine ⟨h.created, ?_, ?_, ?_⟩
  · rw [hlength]
    exact hlt
  · intro k τ buffer hτ hunread
    rcases Nat.lt_trichotomy k tasks.length with hk | rfl | hk
    · rw [List.getElem?_append_left hk] at hτ
      exact h.arrived k τ buffer hτ hunread
    · rw [List.getElem?_concat_length] at hτ
      cases hτ
      rw [Role.task_unread] at hunread
      cases hunread
      exact ⟨packet, hpacket, rfl⟩
    · rw [List.getElem?_eq_none (by rw [hlength]; exact hk)] at hτ
      cases hτ
  · rw [hwaiting, htaken, ← add_assoc]
    exact Multiset.add_le_add_right h.returned

/-- A task that goes on has begun, and waits for nothing any more. -/
theorem total_waiting_set {k : Nat} {τ r : Task} (hτ : tasks[k]? = some τ)
    (hbegun : r.unread = none) :
    τ.waiting + total Task.waiting (tasks.set k r)
      = total Task.waiting tasks := by
  have hset := total_set (f := Task.waiting) hτ r
  rw [Task.waiting_begun hbegun, add_zero] at hset
  rw [add_comm]
  exact hset

theorem Received.task (h : Received sent tasks calls) {k : Nat} {τ r : Task}
    {more : List ReadCall} (hτ : tasks[k]? = some τ) (hbegun : r.unread = none)
    (hmore : total ReadCall.returned more ≤ τ.waiting) :
    Received sent (tasks.set k r) (calls ++ more) := by
  refine ⟨h.created, ?_, ?_, ?_⟩
  · rw [List.length_set]
    exact h.reads
  · intro j τ' buffer hτ' hunread
    exact h.arrived j τ' buffer (unread_set hbegun hτ' hunread).2 hunread
  · rw [List.length_set, total_append]
    calc total ReadCall.returned calls + total ReadCall.returned more
          + total Task.waiting (tasks.set k r)
        ≤ total ReadCall.returned calls + τ.waiting
          + total Task.waiting (tasks.set k r) := by gcongr
      _ = total ReadCall.returned calls + total Task.waiting tasks := by
          rw [add_assoc, total_waiting_set hτ hbegun]
      _ ≤ _ := h.returned

/-- The requests with the `NoCrypto` bit: none of them is rejected. -/
def PlainReturned (sent : List Bytes) (tasks : List Task)
    (calls : List ReadCall) : Prop :=
  (total ReadCall.returned calls + total Task.waiting tasks).filter
      (fun request => NoCrypto request.1)
    = (total (fun packet => {requestOf packet})
      (sent.take tasks.length)).filter fun request => NoCrypto request.1

/-- The read that an event completes, if any, returns this packet next. -/
def NextPacket (sent : List Bytes) (p : Peer) (e : Event) : Prop :=
  ∀ chunk now, e = .read chunk now → sent[p.view.tasks.length]? = some chunk

/-- Every step of the receiving side. -/
theorem Received.step {p q : Peer} {e : Event}
    (hr : Received sent p.view.tasks calls) (hp : p.Sound)
    (h : Step sodium p e q) (hnext : NextPacket sent p e) :
    Received sent q.view.tasks (calls ++ p.readCalls e) := by
  have hframe : q.view.tasks = p.view.tasks →
      Received sent q.view.tasks (calls ++ []) := by
    intro htasks
    rw [htasks, List.append_nil]
    exact hr
  cases e with
  | write w =>
      cases h
      exact hframe rfl
  | handler now drawn =>
      obtain ⟨w, rest, -, hview⟩ := handler_view hp h
      exact hframe (by rw [hview])
  | transfer i n => exact hframe (by rw [transfer_view h])
  | written i ec now => exact hframe (by rw [written_view hp h])
  | close => exact hframe (by rw [close_view hp h])
  | read chunk now =>
      rw [show p.readCalls (.read chunk now) = [] from rfl, List.append_nil,
        read_view h]
      exact hr.read (hnext chunk now rfl) p.role
  | task k now =>
      obtain ⟨τ, r, hτ, htasks, hbegun, hle, -⟩ := task_returned hp h
      rw [htasks]
      exact hr.task hτ hbegun hle

theorem PlainReturned.sent_append (h : PlainReturned sent tasks calls)
    (hreads : tasks.length ≤ sent.length) (packet : Bytes) :
    PlainReturned (sent ++ [packet]) tasks calls := by
  unfold PlainReturned
  rw [List.take_append_of_le_length hreads]
  exact h

/-- If tasks begin within the time limit. -/
theorem PlainReturned.step {p q : Peer} {e : Event}
    (hplain : PlainReturned sent p.view.tasks calls)
    (hr : Received sent p.view.tasks calls) (hp : p.Sound)
    (h : Step sodium p e q) (hnext : NextPacket sent p e)
    (hinTime : ∀ k now, e = .task k now → p.InTime k now) :
    PlainReturned sent q.view.tasks (calls ++ p.readCalls e) := by
  have hframe : q.view.tasks = p.view.tasks →
      PlainReturned sent q.view.tasks (calls ++ []) := by
    intro htasks
    rw [htasks, List.append_nil]
    exact hplain
  cases e with
  | write w =>
      cases h
      exact hframe rfl
  | handler now drawn =>
      obtain ⟨w, rest, -, hview⟩ := handler_view hp h
      exact hframe (by rw [hview])
  | transfer i n => exact hframe (by rw [transfer_view h])
  | written i ec now => exact hframe (by rw [written_view hp h])
  | close => exact hframe (by rw [close_view hp h])
  | read chunk now =>
      obtain ⟨hwaiting, htaken⟩ := hr.total_read (hnext chunk now rfl) p.role
      have htasks : q.view.tasks
          = p.view.tasks ++ [p.role.task (readBuffer chunk)] := by
        rw [read_view h]
        rfl
      rw [show p.readCalls (.read chunk now) = [] from rfl, List.append_nil,
        htasks]
      unfold PlainReturned at hplain ⊢
      rw [hwaiting, htaken, ← add_assoc, Multiset.filter_add, hplain,
        ← Multiset.filter_add]
  | task k now =>
      obtain ⟨τ, r, hτ, htasks, hbegun, hle, hexact⟩ := task_returned hp h
      have hreturned : (total ReadCall.returned
          (p.readCalls (.task k now))).filter
            (fun request => NoCrypto request.1)
          = τ.waiting.filter fun request => NoCrypto request.1 := by
        cases hunread : τ.unread with
        | none =>
            rw [returned_begun hτ hunread, Task.waiting_begun hunread]
        | some buffer =>
            obtain ⟨packet, hsent, rfl⟩ := hr.arrived k τ buffer hτ hunread
            exact hexact packet (hr.created packet (List.mem_of_getElem? hsent))
              hunread (hinTime k now rfl)
      unfold PlainReturned at hplain ⊢
      rw [htasks, List.length_set, total_append, Multiset.filter_add,
        Multiset.filter_add, hreturned, ← Multiset.filter_add,
        ← Multiset.filter_add, add_assoc, total_waiting_set hτ hbegun]
      exact hplain

end Peer

namespace System

open Peer

/-- The calls of `ReadPacket` that an event makes, with their side. -/
def calls (S : System) (a : Role × Event) : List (Role × ReadCall) :=
  ((S.peer a.1).readCalls a.2).map (a.1, ·)

/-- One side's calls. -/
def callsOf (r : Role) (log : List (Role × ReadCall)) : List ReadCall :=
  (log.filter fun c => c.1 = r).map Prod.snd

theorem callsOf_self (S : System) (log : List (Role × ReadCall)) (r : Role)
    (e : Event) :
    callsOf r (log ++ S.calls (r, e))
      = callsOf r log ++ (S.peer r).readCalls e := by
  have hall : ((S.calls (r, e)).filter fun c => c.1 = r) = S.calls (r, e) := by
    refine List.filter_eq_self.mpr fun c hc => ?_
    obtain ⟨call, -, rfl⟩ := List.mem_map.mp hc
    exact decide_eq_true rfl
  unfold callsOf
  rw [List.filter_append, List.map_append, hall, calls, List.map_map]
  exact congrArg (_ ++ ·) (List.map_id _)

theorem callsOf_other (S : System) (log : List (Role × ReadCall)) (r : Role)
    (e : Event) :
    callsOf r.other (log ++ S.calls (r, e)) = callsOf r.other log := by
  have hnone : ((S.calls (r, e)).filter fun c => c.1 = r.other) = [] := by
    refine List.filter_eq_nil_iff.mpr fun c hc => ?_
    obtain ⟨call, -, rfl⟩ := List.mem_map.mp hc
    exact fun h => r.other_ne (of_decide_eq_true h).symm
  unfold callsOf
  rw [List.filter_append, List.map_append, hnone]
  exact List.append_nil _

/-- The application at the server does not call `Write`. -/
def ServerLeft : Role × Event → Prop
  | (.server, e) => LeftToCallback e
  | (.client, _) => True

/-- What each side has received, and what the server owes. -/
structure Exchanged (sodium : Sodium) (publicKey : Key) (S : System)
    (log : List (Role × ReadCall)) : Prop where
  sound : S.Sound
  received : ∀ r, Received (S.peer r.other).view.sent (S.peer r).view.tasks
    (callsOf r log)
  accounts : Accounts sodium publicKey (S.peer .server) (callsOf .server log)

variable {publicKey : Key} {S T : System} {log : List (Role × ReadCall)}

theorem start_exchanged (sodium : Sodium) (keys : Role → KeysWrapper)
    (now : Int64) :
    Exchanged sodium ((keys .server).getPublicKey sodium) (start keys now) []
    where
  sound := start_sound keys now
  received _ := received_start
  accounts := start_accounts sodium (keys .server) now

/-- What a step does to what a side has sent. -/
theorem sent_grows {r : Role} {e : Event} (hS : S.Sound)
    (h : Peer.Step sodium (S.peer r) e (T.peer r)) :
    (∃ packet, Created packet
        ∧ (T.peer r).view.sent = (S.peer r).view.sent ++ [packet])
      ∨ (T.peer r).view.sent = (S.peer r).view.sent := by
  have hp := (hS r).1
  rcases Peer.sent_step hp h with
    ⟨now, drawn, w, rest, -, hposted, hsent⟩ | hsent
  · refine Or.inl ⟨_, ⟨sending now drawn (S.peer r).session w,
      (S.peer r).session.keys.sharedKey, ?_, rfl⟩, hsent⟩
    exact hp.sizes w (by rw [hposted]; exact List.mem_cons_self ..)
  · exact Or.inr hsent

/-- A step of a connection with one packet per read. -/
theorem Exchanged.step {a : Role × Event}
    (hS : Exchanged sodium publicKey S log) (h : Step sodium S a T)
    (hintact : S.Intact a) (hleft : ServerLeft a) :
    Exchanged sodium publicKey T (log ++ S.calls a) := by
  obtain ⟨r, e⟩ := a
  obtain ⟨hstep, hother⟩ := h.peers
  have hnext : NextPacket (S.peer r.other).view.sent (S.peer r) e := by
    rintro chunk now rfl
    exact hintact
  refine ⟨hS.sound.step h, ?_, ?_⟩
  · intro r'
    rcases Role.eq_or_other r r' with rfl | rfl
    · rw [hother, callsOf_self]
      exact (hS.received r').step (hS.sound r').1 hstep hnext
    · have hr := hS.received r.other
      rw [Role.other_other] at hr ⊢
      rw [hother, callsOf_other]
      rcases sent_grows hS.sound hstep with ⟨packet, hpacket, hsent⟩ | hsent
      · rw [hsent]
        exact hr.sent_append hpacket
      · rw [hsent]
        exact hr
  · cases r with
    | server =>
        rw [callsOf_self]
        exact hS.accounts.step hstep hleft
    | client =>
        have hserver : T.peer .server = S.peer .server := hother
        rw [hserver, show callsOf .server _ = _ from
          callsOf_other S log .client e]
        exact hS.accounts

/-- What a server has sent was asked for by packets that it has accepted. -/
theorem Exchanged.sent_le (hS : Exchanged sodium publicKey S log) :
    total (fun packet => {requestOf packet}) (S.peer .server).view.sent
      ≤ (total ReadCall.returned (callsOf .server log)).filter Answered := by
  rw [hS.accounts.account, add_assoc]
  exact Multiset.le_add_right _ _

/-- What a side has accepted, the other side has sent. -/
theorem Exchanged.returned_le (hS : Exchanged sodium publicKey S log)
    (r : Role) :
    total ReadCall.returned (callsOf r log)
      ≤ total (fun packet => {requestOf packet})
        ((S.peer r.other).view.sent.take (S.peer r).reads) :=
  (Multiset.le_add_right _ _).trans (hS.received r).returned

/-- What a client has accepted are answers of the server. -/
theorem Exchanged.answers_le (hS : Exchanged sodium publicKey S log) :
    total ReadCall.returned (callsOf .client log)
      ≤ (total ReadCall.returned (callsOf .server log)).filter Answered :=
  calc total ReadCall.returned (callsOf .client log)
      ≤ _ := hS.returned_le .client
    _ ≤ total (fun packet => {requestOf packet}) (S.peer .server).view.sent :=
        total_le_total (List.take_prefix _ _)
    _ ≤ _ := hS.sent_le

/-- It has asked for them. -/
theorem Exchanged.requested_le (hS : Exchanged sodium publicKey S log) :
    total ReadCall.returned (callsOf .client log)
      ≤ ((S.peer .client).view.sent.map requestOf : Multiset Request) :=
  calc total ReadCall.returned (callsOf .client log)
      ≤ _ := hS.answers_le
    _ ≤ total ReadCall.returned (callsOf .server log) :=
        Multiset.filter_le _ _
    _ ≤ _ := hS.returned_le .server
    _ ≤ total (fun packet => {requestOf packet}) (S.peer .client).view.sent :=
        total_le_total (List.take_prefix _ _)
    _ = _ := total_singleton requestOf _

theorem exchanged_of_run {keys : Role → KeysWrapper} {now : Int64}
    {es : List (Role × Event)}
    (h : Run (When (Logged (Step sodium) calls) fun S a =>
      S.1.Intact a ∧ ServerLeft a) (start keys now, []) es (T, log)) :
    Exchanged sodium ((keys .server).getPublicKey sodium) T log := by
  refine Run.invariant (I := fun s : System × List (Role × ReadCall) =>
    Exchanged sodium ((keys .server).getPublicKey sodium) s.1 s.2) ?_ h
    (start_exchanged sodium keys now)
  rintro s a t hs ⟨⟨hstep, hlog⟩, hintact, hleft⟩
  rw [hlog]
  exact hs.step hstep hintact hleft

/-- A task that begins does so within the time limit of what was read. -/
def TasksInTime (S : System) : Role × Event → Prop
  | (r, .task k now) => (S.peer r).InTime k now
  | _ => True

/-- Nothing is under way: everything sent has been read, every task is
done, and the server has no answer to send. -/
structure Settled (S : System) : Prop where
  read : ∀ r, (S.peer r).view.tasks.length = (S.peer r.other).view.sent.length
  tasks : ∀ r, ∀ τ ∈ (S.peer r).view.tasks, τ = .done
  posted : (S.peer .server).view.posted = []

-- ========================================================= one exchange

/-- A step under the discipline of the theorems below. -/
def Exchange (sodium : Sodium) : System → Role × Event → System → Prop :=
  When (Step sodium) fun S a => S.Intact a ∧ ServerLeft a ∧ S.TasksInTime a

/-- A step that is neither a read nor a task, and not a `Write` at the
server. -/
theorem exchange_quiet {r : Role} {e : Event} (h : Step sodium S (r, e) T)
    (hread : ∀ chunk now, e ≠ .read chunk now)
    (htask : ∀ k now, e ≠ .task k now)
    (hwrite : r = .server → LeftToCallback e) :
    Exchange sodium S (r, e) T := by
  refine ⟨h, ?_, ?_, ?_⟩
  · cases e with
    | read chunk now => exact absurd rfl (hread chunk now)
    | _ => trivial
  · cases r with
    | server => exact hwrite rfl
    | client => trivial
  · cases e with
    | task k now => exact absurd rfl (htask k now)
    | _ => trivial

/-- The client's request of the exchange below. -/
def testWrite (cb : Option WriteCallback) : PostedWrite :=
  .client Flags.testMessage [] cb

/-- The client sends it. -/
theorem exchange_ask (sodium : Sodium) (keys : Role → KeysWrapper)
    (cb : Option WriteCallback) :
    ∃ T₁ T₂ T₃ n,
      Exchange sodium (start keys 0) (.client, .write (testWrite cb)) T₁
      ∧ Exchange sodium T₁ (.client, .handler 0 4) T₂
      ∧ Exchange sodium T₂ (.client, .transfer 0 n) T₃
      ∧ (T₁.peer .client).posted = [testWrite cb]
      ∧ T₃.Sound ∧ T₃.peer .server = (start keys 0).peer .server
      ∧ T₃.received = (start keys 0).received
      ∧ (T₃.peer .client).view = {
        ((start keys 0).peer .client).view with
        sent := [created 0 [] 1 Flags.testMessage 0 4
          (keys .client).sharedKey.val]
        taskQueue := SessionClient.emplace (fun _ => none) 4 cb }
      ∧ (T₃.peer .client).session.outbox.stream
        = created 0 [] 1 Flags.testMessage 0 4
          (keys .client).sharedKey.val := by
  obtain ⟨T₁, hT₁, hpeer₁, hother₁, hreceived₁⟩ :=
    local_step (S := start keys 0) (r := .client)
      (fun _ _ he => by cases he) (write_step (w := testWrite cb) rfl
        (Nat.zero_le _))
  have hsound₁ := (start_sound keys 0).step hT₁
  have hposted₁ : (T₁.peer .client).posted = [testWrite cb] := by
    rw [hpeer₁]
    rfl
  obtain ⟨T₂, T₃, hT₂, hT₃, hview₂, hview₃, hstream₃, hother₂, hother₃,
    hreceived₃⟩ := send_steps sodium hsound₁ hposted₁ 0 4
  rw [hpeer₁] at hT₃
  refine ⟨T₁, T₂, T₃, _, exchange_quiet hT₁ (by simp) (by simp) (by simp),
    exchange_quiet hT₂ (by simp) (by simp) (by simp),
    exchange_quiet hT₃ (by simp) (by simp) (by simp), hposted₁,
    (hsound₁.step hT₂).step hT₃, hother₃.trans hother₁,
    hreceived₃.trans hreceived₁, ?_, ?_⟩
  · rw [hview₃, hview₂, hpeer₁]
    rfl
  · rw [hstream₃, hpeer₁]
    rfl

/-- A task that is in time still is when it has begun. -/
theorem InTime.task {p q : Peer} {k : Nat} {now : Int64} (hp : p.Sound)
    (h : Peer.Step sodium p (.task k now) q) {j : Nat} {now' : Int64}
    (hinTime : p.InTime j now') : q.InTime j now' := by
  intro τ buffer hτ hunread
  rcases unread_step hp h hτ hunread with
    ⟨hold, -⟩ | ⟨chunk, now₀, he, -⟩
  · exact hinTime τ buffer hold hunread
  · cases he

/-- The task of the first read is in time for a packet that was just
created. -/
theorem inTime_first {p : Peer} {chunk payload : Bytes} {version : UInt16}
    {flags : UInt32} {nonce messageId : UInt64} {key : Bytes} {now : Int64}
    (hchunk : chunk = created now payload version flags nonce messageId key)
    (htasks : p.tasks = []) : (p.completeRead now chunk).InTime 0 now := by
  intro τ buffer hτ hunread
  change (p.tasks ++ [p.role.task (readBuffer chunk)])[0]? = some τ at hτ
  rw [htasks] at hτ
  cases hτ
  rw [Role.task_unread] at hunread
  cases hunread
  rw [readBuffer, hchunk, headerOf_created]
  exact fresh_self now

/-- An event of which the client's callbacks learn nothing. -/
def Silent (a : Role × Event) : Prop :=
  a.1 = .server ∨ ∃ chunk now, a.2 = .read chunk now

/-- The server reads it and posts its answer. -/
theorem exchange_serve (sodium : Sodium) {S : System} (hS : S.Sound)
    {keys : Role → KeysWrapper} {chunk : Bytes} {nonce : UInt64} {key : Bytes}
    (hserver : S.peer .server = (start keys 0).peer .server)
    (hreceived : S.received = (start keys 0).received)
    (hsent : (S.peer .client).view.sent = [chunk])
    (hstream : (S.peer .client).session.outbox.stream = chunk)
    (hchunk : chunk = created 0 [] 1 Flags.testMessage nonce 4 key) :
    ∃ es T, Run (Exchange sodium) S es T ∧ (∀ a ∈ es, Silent a) ∧ T.Sound
      ∧ T.peer .client = S.peer .client
      ∧ T.received .client = 0
      ∧ (T.peer .server).tasks = [.done]
      ∧ (T.peer .server).session
        = ((start keys 0).peer .server).session.completeRead 0
      ∧ (T.peer .server).posted = [.server Flags.testMessage 4
        (SessionServer.answerText 1)] := by
  have hrole : (S.peer .server).role = .server := by
    rw [hserver]
    rfl
  have hsize : ([] : Bytes).length ≤ tcpPayloadSizeMax := Nat.zero_le _
  obtain ⟨chunk', p₂, q, hchunk', h₁, h₂, h₃, hsession, htasks, hposted⟩ :=
    answer_steps sodium hrole hsize 0 1 nonce 4 key
  rw [← hchunk] at hchunk'
  subst hchunk'
  have hfits : chunk' ≠ [] ∧ chunk'.length ≤ tcpTotalPacketSize := by
    rw [hchunk]
    exact ⟨(created_fits hsize _ _ _ _ _).1, created_length_le hsize _ _ _ _ _⟩
  have hstream' : (S.peer Role.server.other).session.outbox.stream
      = [] ++ (chunk' ++ []) := by
    rw [List.nil_append, List.append_nil]
    exact hstream
  obtain ⟨T₁, hT₁, hpeer₁, hother₁, -, hreceived₁⟩ :=
    receive_step sodium hstream' (by rw [hreceived]; rfl) hfits.1 hfits.2 0
  have hbegins : (S.peer .server).tasks.length = 0 := by
    rw [hserver]
    rfl
  rw [← hpeer₁, hbegins] at h₂
  rw [hbegins] at h₃
  obtain ⟨T₂, hT₂, hpeer₂, hother₂, hreceived₂⟩ :=
    local_step (fun _ _ he => by cases he) h₂
  rw [← hpeer₂] at h₃
  obtain ⟨T₃, hT₃, hpeer₃, hother₃, hreceived₃⟩ :=
    local_step (fun _ _ he => by cases he) h₃
  have hsound₁ := hS.step hT₁
  have hsound₂ := hsound₁.step hT₂
  have hnext : S.Intact (.server, .read chunk' 0) := by
    show (S.peer .client).view.sent[(S.peer .server).reads]? = some chunk'
    rw [hsent, Peer.reads, hbegins]
    rfl
  have hinTime₁ : T₁.TasksInTime (.server, .task 0 0) := by
    show (T₁.peer .server).InTime 0 0
    rw [hpeer₁]
    exact inTime_first hchunk (List.eq_nil_of_length_eq_zero hbegins)
  have hinTime₂ : T₂.TasksInTime (.server, .task 0 0) :=
    InTime.task (hsound₁ .server).1 hT₂.peers.1 hinTime₁
  have hleft : ∀ e, (∀ w, e ≠ Event.write w) → ServerLeft (.server, e) :=
    fun _ h => h
  refine ⟨[(.server, .read chunk' 0), (.server, .task 0 0),
      (.server, .task 0 0)], T₃,
    .cons ⟨hT₁, hnext, hleft _ (by simp), trivial⟩
      (.cons ⟨hT₂, trivial, hleft _ (by simp), hinTime₁⟩
        (.cons ⟨hT₃, trivial, hleft _ (by simp), hinTime₂⟩ (.nil _))),
    by simp [Silent], hsound₂.step hT₃, ?_, ?_, ?_, ?_, ?_⟩
  · exact (hother₃.trans hother₂).trans hother₁
  · rw [hreceived₃, hreceived₂]
    exact hreceived₁.trans (by rw [hreceived]; rfl)
  · rw [hpeer₃, htasks, hserver]
    rfl
  · rw [hpeer₃, hsession, hserver]
  · rw [hpeer₃, hposted, hserver]
    rfl

/-- The client has read the answer, and has only its task left to run. -/
structure Delivered (S : System) (cb : Option WriteCallback) (buffer : Bytes)
    (packet : Packet) : Prop where
  sound : S.Sound
  tasks : (S.peer .client).tasks = [.clientRead buffer]
  request : packet.request = (Flags.testMessage, 4)
  reads : readPacket 0 buffer (SessionClient.readNonce (S.peer .client).session)
    (S.peer .client).session.keys.sharedKey.val = .ok (.ok packet)
  inTime : S.TasksInTime (.client, .task 0 0)
  queue : (S.peer .client).session.taskQueue
    = SessionClient.emplace (fun _ => none) 4 cb
  sent : (S.peer .client).view.sent.map requestOf = [(Flags.testMessage, 4)]
  served : (S.peer .server).view.tasks = [.done]
  posted : (S.peer .server).view.posted = []
  answer : (S.peer .server).view.sent.length = 1

/-- The answer reaches the client. -/
theorem exchange_deliver (sodium : Sodium) (hS : S.Sound)
    {keys : Role → KeysWrapper} {cb : Option WriteCallback}
    (hview : (S.peer .client).view = {
      ((start keys 0).peer .client).view with
      sent := [created 0 [] 1 Flags.testMessage 0 4
        (keys .client).sharedKey.val]
      taskQueue := SessionClient.emplace (fun _ => none) 4 cb })
    (hreceived : S.received .client = 0)
    (htasks : (S.peer .server).tasks = [.done])
    (hsession : (S.peer .server).session
      = ((start keys 0).peer .server).session.completeRead 0)
    (hposted : (S.peer .server).posted = [.server Flags.testMessage 4
      (SessionServer.answerText 1)]) :
    ∃ es T buffer packet, Run (Exchange sodium) S es T
      ∧ (∀ a ∈ es, Silent a) ∧ T.Delivered cb buffer packet := by
  obtain ⟨T₁, T₂, hT₁, hT₂, hview₁, hview₂, hstream₂, hother₁, hother₂,
    hreceived₂⟩ := send_steps sodium hS hposted 0 0
  obtain ⟨chunk, hchunk⟩ : ∃ chunk, chunk = PostedWrite.packet 0 0
    (S.peer .server).session (.server Flags.testMessage 4
      (SessionServer.answerText 1)) := ⟨_, rfl⟩
  rw [← hchunk] at hT₂ hview₁ hstream₂
  have hsize := answerText_length_le 1
  have hfits : chunk ≠ [] ∧ chunk.length ≤ tcpTotalPacketSize := by
    rw [hchunk]
    exact ⟨(created_fits hsize _ _ _ _ _).1, created_length_le hsize _ _ _ _ _⟩
  have hstream : (T₂.peer Role.client.other).session.outbox.stream
      = [] ++ (chunk ++ []) := by
    rw [List.append_nil]
    show (T₂.peer .server).session.outbox.stream = _
    rw [hstream₂, hsession]
    rfl
  obtain ⟨T₃, hT₃, hpeer₃, hother₃, -⟩ := receive_step sodium hstream
    (by rw [hreceived₂, hreceived]; rfl) hfits.1 hfits.2 0
  have hsound₂ := (hS.step hT₁).step hT₂
  have hclient : T₂.peer .client = S.peer .client := hother₂
  obtain ⟨-, htasksClient, -, hqueue⟩ := view_fields hview
  have hnone : (T₂.peer .client).tasks = [] := by
    rw [hclient, htasksClient]
    rfl
  have hviewServer : (T₃.peer .server).view = {
      (S.peer .server).view with
      posted := []
      sent := (S.peer .server).view.sent ++ [chunk]
      taskQueue := (S.peer .server).session.taskQueue } := by
    rw [show T₃.peer .server = T₂.peer .server from hother₃, hview₂, hview₁]
    rfl
  have hsent : (S.peer .server).view.sent = [] :=
    congrArg (Outbox.sent ∘ Session.outbox) hsession
  have hnext : T₂.Intact (.client, .read chunk 0) := by
    show (T₂.peer .server).view.sent[(T₂.peer .client).reads]? = some chunk
    rw [hview₂, hview₁, hsent, Peer.reads, hnone]
    rfl
  refine ⟨[(.server, .handler 0 0),
      (.server, .transfer (S.peer .server).writes.length chunk.length),
      (.client, .read chunk 0)], T₃, readBuffer chunk, {
        header := createHeader 0 (SessionServer.answerText 1) 1
          Flags.testMessage (S.peer .server).session.messageCounter 4
        payload := SessionServer.answerText 1 },
    .cons (exchange_quiet hT₁ (by simp) (by simp) fun _ _ he => by cases he)
      (.cons (exchange_quiet hT₂ (by simp) (by simp) fun _ _ he => by cases he)
        (.cons ⟨hT₃, hnext, trivial, trivial⟩ (.nil _))),
    by simp [Silent], hsound₂.step hT₃, ?_, rfl, ?_, ?_, ?_, ?_, ?_, ?_, ?_⟩
  · rw [hpeer₃]
    show (T₂.peer .client).tasks ++ [(T₂.peer .client).role.task _] = _
    rw [hnone, (hsound₂ .client).2]
    rfl
  · rw [readBuffer, hchunk]
    exact readPacket_created_noCrypto
      (T₃.peer .client).session.keys.sharedKey.property hsize (by decide) _
      (fresh_self 0) 1 _ 4 _ _
  · show (T₃.peer .client).InTime 0 0
    rw [hpeer₃]
    exact inTime_first hchunk hnone
  · rw [hpeer₃]
    show (T₂.peer .client).session.taskQueue = _
    rw [hclient, hqueue]
  · have hheader := headerOf_created 0 [] 1 Flags.testMessage 0 4
      (keys .client).sharedKey.val []
    rw [List.append_nil] at hheader
    rw [hpeer₃]
    show (T₂.peer .client).view.sent.map requestOf = _
    rw [hclient, hview, List.map_singleton, requestOf, hheader]
    rfl
  · rw [hviewServer]
    exact htasks
  · rw [hviewServer]
  · rw [hviewServer, hsent]
    rfl

/-- Once its task is done, nothing is under way. -/
theorem Delivered.settled {cb : Option WriteCallback} {buffer : Bytes}
    {packet : Packet} (hS : S.Delivered cb buffer packet)
    (htasks : (T.peer .client).tasks = [.done])
    (hsent : (T.peer .client).view.sent = (S.peer .client).view.sent)
    (hserver : T.peer .server = S.peer .server) : T.Settled := by
  have hone : (S.peer .client).view.sent.length = 1 := by
    rw [← List.length_map (f := requestOf), hS.sent]
    rfl
  refine ⟨fun r => ?_, fun r τ hτ => ?_, ?_⟩
  · cases r with
    | client =>
        show (T.peer .client).tasks.length = (T.peer .server).view.sent.length
        rw [htasks, hserver, hS.answer]
        rfl
    | server =>
        show (T.peer .server).view.tasks.length
          = (T.peer .client).view.sent.length
        rw [hserver, hS.served, hsent, hone]
        rfl
  · cases r with
    | client =>
        change τ ∈ (T.peer .client).tasks at hτ
        rw [htasks] at hτ
        exact List.mem_singleton.mp hτ
    | server =>
        rw [hserver, hS.served] at hτ
        exact List.mem_singleton.mp hτ
  · rw [hserver, hS.posted]

/-- One test message without a callback, its answer, and nothing under way
any more. -/
theorem exchange_run (sodium : Sodium) (keys : Role → KeysWrapper) :
    ∃ es T, Run (Exchange sodium) (start keys 0) es T ∧ T.Settled
      ∧ (T.peer .client).view.sent.map requestOf
        = [(Flags.testMessage, 4)] := by
  obtain ⟨T₁, T₂, S₁, n, h₁, h₂, h₃, -, hsound₁, hserver₁, hreceived₁, hview₁,
    hstream₁⟩ := exchange_ask sodium keys none
  obtain ⟨es₂, S₂, hrun₂, -, hsound₂, hclient₂, hreceived₂, htasks₂, hsession₂,
    hposted₂⟩ := exchange_serve sodium hsound₁ hserver₁ hreceived₁
      (by rw [hview₁]) hstream₁ rfl
  obtain ⟨es₃, S₃, buffer, packet, hrun₃, -, hS₃⟩ := exchange_deliver sodium
    hsound₂ (by rw [hclient₂]; exact hview₁) hreceived₂ htasks₂ hsession₂
    hposted₂
  -- no callback was given, so the task has nothing to call
  have hunclaimed : (S₃.peer .client).session.taskQueue
      packet.header.messageId = none := by
    rw [hS₃.queue]
    rfl
  have hrun : (Task.clientRead buffer).run sodium 0 (S₃.peer .client).session
      = .ok { session := (S₃.peer .client).session } := by
    rw [← SessionClient.afterRead_unclaimed hunclaimed]
    exact SessionClient.taskRead_eq hS₃.reads
  have htasks : (S₃.peer .client).tasks = [] ++ [.clientRead buffer] :=
    hS₃.tasks
  obtain ⟨T, hT, hpeer, hother, -⟩ := local_step
    (fun _ _ he => by cases he) (newest_task htasks hrun)
  refine ⟨_, T, .cons h₁ (.cons h₂ (.cons h₃ (hrun₂.append (hrun₃.append
    (.cons ⟨hT, trivial, trivial, hS₃.inTime⟩ (.nil T)))))),
    hS₃.settled (by rw [hpeer]; rfl) (by rw [hpeer]; rfl) hother, ?_⟩
  rw [hpeer]
  exact hS₃.sent

/-- In every run over a connection that delivers one packet per read, with
a server that is left to its callback: what the client has accepted are
answers, each to another packet that it has sent with these flags and this
message id. -/
theorem answers_requested (sodium : Sodium) (keys : Role → KeysWrapper)
    (now : Int64) {es : List (Role × Event)} {T : System}
    {log : List (Role × ReadCall)}
    (h : Run (When (Logged (Step sodium) calls) fun S a =>
      S.1.Intact a ∧ ServerLeft a) (start keys now, []) es (T, log)) :
    total ReadCall.returned (callsOf .client log)
        ≤ ((T.peer .client).view.sent.map requestOf : Multiset Request)
      ∧ ∀ request ∈ total ReadCall.returned (callsOf .client log),
        Answered request := by
  have hT := exchanged_of_run h
  refine ⟨hT.requested_le, fun request hrequest => ?_⟩
  exact Multiset.of_mem_filter (Multiset.mem_of_le hT.answers_le hrequest)

/-- A client that has sent one test message, and accepted its answer. -/
theorem answers_requested_one : ∃ (T : System) (log : List (Role × ReadCall)),
    (T.peer .client).view.sent.map requestOf = [(Flags.testMessage, 4)]
      ∧ total ReadCall.returned (callsOf .client log)
        ≤ ((T.peer .client).view.sent.map requestOf : Multiset Request)
      ∧ ∀ request ∈ total ReadCall.returned (callsOf .client log),
        Answered request := by
  obtain ⟨es, T, hrun, -, hsent⟩ :=
    exchange_run ⟨id, fun _ _ => none, id⟩ fun _ => ⟨Key.zero, Key.zero⟩
  obtain ⟨log, hlogged⟩ := hrun.exists_log calls []
  have hweaker : ∀ s a t,
      Logged (Exchange ⟨id, fun _ _ => none, id⟩) calls s a t →
      When (Logged (Step ⟨id, fun _ _ => none, id⟩) calls)
        (fun S a => S.1.Intact a ∧ ServerLeft a) s a t := by
    rintro s a t ⟨⟨hstep, hintact, hleft, -⟩, hlog⟩
    exact ⟨⟨hstep, hlog⟩, hintact, hleft⟩
  exact ⟨T, log, hsent, answers_requested _ _ 0 (hlogged.mono hweaker)⟩

-- =========================================================== test messages

/-- Then every packet with the `NoCrypto` bit has been accepted. -/
theorem Settled.plain (hS : S.Settled) {r : Role} {calls : List ReadCall}
    (h : PlainReturned (S.peer r.other).view.sent (S.peer r).view.tasks
      calls) :
    (total ReadCall.returned calls).filter (fun request => NoCrypto request.1)
      = (total (fun packet => {requestOf packet})
        (S.peer r.other).view.sent).filter fun request =>
          NoCrypto request.1 := by
  have hwaiting : total Task.waiting (S.peer r).view.tasks = 0 := by
    refine total_eq_zero fun τ hτ => ?_
    rw [hS.tasks r τ hτ]
    rfl
  unfold PlainReturned at h
  rw [hwaiting, add_zero, hS.read r, List.take_length] at h
  exact h

/-- And every answer has been sent. -/
theorem Settled.account (hS : S.Settled)
    (h : Exchanged sodium publicKey S log) :
    (total ReadCall.returned (callsOf .server log)).filter Answered
      = total (fun packet => {requestOf packet})
        (S.peer .server).view.sent := by
  have howes : total Task.owes (S.peer .server).view.tasks = 0 := by
    refine total_eq_zero fun τ hτ => ?_
    rw [hS.tasks .server τ hτ]
    rfl
  rw [h.accounts.account, howes, hS.posted, total_nil, add_zero, add_zero]

theorem Exchanged.plain_step {a : Role × Event}
    (hS : Exchanged sodium publicKey S log)
    (hplain : ∀ r, PlainReturned (S.peer r.other).view.sent
      (S.peer r).view.tasks (callsOf r log)) (h : Step sodium S a T)
    (hintact : S.Intact a) (hinTime : S.TasksInTime a) (r : Role) :
    PlainReturned (T.peer r.other).view.sent (T.peer r).view.tasks
      (callsOf r (log ++ S.calls a)) := by
  obtain ⟨r', e⟩ := a
  obtain ⟨hstep, hother⟩ := h.peers
  rcases Role.eq_or_other r' r with rfl | rfl
  · rw [hother, callsOf_self]
    refine (hplain r).step (hS.received r) (hS.sound r).1 hstep ?_ ?_
    · rintro chunk now rfl
      exact hintact
    · rintro k now rfl
      exact hinTime
  · have hr := hplain r'.other
    have hreads := (hS.received r'.other).reads
    rw [Role.other_other] at hr hreads ⊢
    rw [hother, callsOf_other]
    rcases sent_grows hS.sound hstep with ⟨packet, -, hsent⟩ | hsent
    · rw [hsent]
      exact hr.sent_append hreads packet
    · rw [hsent]
      exact hr

/-- Requests with the flags `TestMessage`. -/
abbrev IsTest (request : Request) : Prop := request.1 = Flags.testMessage

/-- They have the `NoCrypto` bit, and are answered. -/
theorem filter_isTest (p : Request → Prop) [DecidablePred p]
    (hp : ∀ request, IsTest request → p request) (s : Multiset Request) :
    (s.filter p).filter IsTest = s.filter IsTest := by
  rw [Multiset.filter_filter]
  exact Multiset.filter_congr fun request _ => and_iff_left_of_imp (hp request)

theorem noCrypto_of_isTest {request : Request} (h : IsTest request) :
    NoCrypto request.1 := by
  rw [h]
  decide

/-- Once nothing is under way, the test messages that the client has
accepted are those it has sent. -/
theorem Settled.tests (hS : S.Settled)
    (hexchanged : Exchanged sodium publicKey S log)
    (hplain : ∀ r, PlainReturned (S.peer r.other).view.sent
      (S.peer r).view.tasks (callsOf r log)) :
    (total ReadCall.returned (callsOf .client log)).filter IsTest
      = ((S.peer .client).view.sent.map requestOf : Multiset Request).filter
        IsTest := by
  have hreceived : ∀ r, (total ReadCall.returned (callsOf r log)).filter IsTest
      = (total (fun packet => {requestOf packet})
        (S.peer r.other).view.sent).filter IsTest := by
    intro r
    rw [← filter_isTest (fun request => NoCrypto request.1)
      (fun _ => noCrypto_of_isTest), hS.plain (hplain r)]
    exact filter_isTest _ (fun _ => noCrypto_of_isTest) _
  calc (total ReadCall.returned (callsOf .client log)).filter IsTest
      = (total (fun packet => {requestOf packet})
          (S.peer .server).view.sent).filter IsTest := hreceived .client
    _ = (total ReadCall.returned (callsOf .server log)).filter IsTest := by
        rw [← hS.account hexchanged]
        exact filter_isTest Answered (fun _ h => Or.inr h) _
    _ = (total (fun packet => {requestOf packet})
          (S.peer .client).view.sent).filter IsTest := hreceived .server
    _ = _ := by rw [total_singleton]

/-- In such a run whose tasks begin within the time limit, once nothing is
under way the client has accepted an answer to each test message that it
has sent, and to no other: the test messages sent and the test messages
accepted are the same, counted with their ids. -/
theorem testMessages_answered (sodium : Sodium) (keys : Role → KeysWrapper)
    (now : Int64) {es : List (Role × Event)} {T : System}
    {log : List (Role × ReadCall)}
    (h : Run (Logged (Exchange sodium) calls) (start keys now, []) es (T, log))
    (hsettled : T.Settled) :
    (total ReadCall.returned (callsOf .client log)).filter IsTest
      = ((T.peer .client).view.sent.map requestOf : Multiset Request).filter
        IsTest := by
  obtain ⟨hT, hplain⟩ : Exchanged sodium ((keys .server).getPublicKey sodium) T
      log ∧ ∀ r, PlainReturned (T.peer r.other).view.sent (T.peer r).view.tasks
        (callsOf r log) := by
    refine Run.invariant (I := fun s : System × List (Role × ReadCall) =>
      Exchanged sodium ((keys .server).getPublicKey sodium) s.1 s.2
        ∧ ∀ r, PlainReturned (s.1.peer r.other).view.sent
          (s.1.peer r).view.tasks (callsOf r s.2)) ?_ h
      ⟨start_exchanged sodium keys now, fun _ => rfl⟩
    rintro s a t ⟨hs, hplain⟩ ⟨⟨hstep, hintact, hleft, hinTime⟩, hlog⟩
    rw [hlog]
    exact ⟨hs.step hstep hintact hleft,
      hs.plain_step hplain hstep hintact hinTime⟩
  exact hsettled.tests hT hplain

/-- The client of the exchange has accepted exactly its answer. -/
theorem testMessages_answered_one :
    ∃ (T : System) (log : List (Role × ReadCall)),
      (T.peer .client).view.sent.map requestOf = [(Flags.testMessage, 4)]
        ∧ (total ReadCall.returned (callsOf .client log)).filter IsTest
          = ((T.peer .client).view.sent.map requestOf
            : Multiset Request).filter IsTest := by
  obtain ⟨es, T, hrun, hsettled, hsent⟩ :=
    exchange_run ⟨id, fun _ _ => none, id⟩ fun _ => ⟨Key.zero, Key.zero⟩
  obtain ⟨log, hlogged⟩ := hrun.exists_log calls []
  exact ⟨T, log, hsent, testMessages_answered _ _ 0 hlogged hsettled⟩

end System

end Remc.Net
