/-
What a server session sends.

Nobody but `DefaultReadCallback` calls a server session's `Write`: a
session that is left to it (`LeftToCallback`) sends an answer to every packet it
accepts with the flags `Handshake` or `TestMessage`, and nothing else.

# The account

An accepted packet that is to be answered is at any time in exactly one
of three places: its task has not called `Write` yet, or the closure of
that `Write` has not run, or its answer is in the outbox. `Task.owes`,
`PostedWrite.answers` and `requestOf` say what an entry of each place
stands for, and the three together are what was accepted
(`Peer.answers_account`), whatever arrives and in whatever order the
executor and the pool go on.
-/
import Remc.Lib.Ledger
import Remc.Net.KeyUse
import Remc.Net.Replay

namespace Remc.Net

open Crypto Runs Ledger

variable {sodium : Sodium}

-- ============================================================== requests

/-- What an answer has in common with the packet it answers: the flags
and the message id. -/
abbrev Request := UInt32 × UInt64

/-- The request in the header of a buffer. -/
def requestOf (w : Bytes) : Request :=
  ((headerOf w).flags, (headerOf w).messageId)

def Packet.request (packet : Packet) : Request :=
  (packet.header.flags, packet.header.messageId)

/-- The flags that `DefaultReadCallback` answers. -/
abbrev Answered (r : Request) : Prop :=
  r.1 = Flags.handshake ∨ r.1 = Flags.testMessage

/-- The request of the packet that `ReadPacket` returns. -/
def returnedBy : Except PacketError Packet → Multiset Request
  | .error _ => 0
  | .ok packet => {packet.request}

def ReadCall.returned (c : ReadCall) : Multiset Request :=
  match c.outcome with
  | .error _ => 0
  | .ok result => returnedBy result

/-- What a closure will put on the wire in answer. -/
def PostedWrite.answers : PostedWrite → Multiset Request
  | .server flags messageId _ => {(flags, messageId)}
  | .client _ _ _ => 0

/-- The request, if it is one to answer. -/
def due (r : Request) : Multiset Request := if Answered r then {r} else 0

/-- What a task will call `Write` for. -/
def Task.owes : Task → Multiset Request
  | .serverAnswer packet => due packet.request
  | _ => 0

theorem due_of_answered {r : Request} (h : Answered r) : due r = {r} := if_pos h

theorem due_of_not {r : Request} (h : ¬Answered r) : due r = 0 := if_neg h

theorem filter_answered (r : Request) :
    Multiset.filter Answered {r} = due r := Multiset.filter_singleton _

/-- The header of a packet on the wire, whatever follows. -/
theorem headerOf_created (now : Int64) (payload : Bytes) (version : UInt16)
    (flags : UInt32) (nonce messageId : UInt64) (key extra : Bytes) :
    headerOf (created now payload version flags nonce messageId key ++ extra)
      = createHeader now payload version flags nonce messageId := by
  rw [created, wire, List.append_assoc, headerOf_framed]

/-- A packet with the `NoCrypto` bit is accepted with any key and any
nonce, as it is. -/
theorem readPacket_created_noCrypto {key payload : Bytes} {flags : UInt32}
    (hkey : key.length = 32) (hsize : payload.length ≤ tcpPayloadSizeMax)
    (hplain : NoCrypto flags) (nonce : UInt64) {t now : Int64}
    (hfresh : Fresh now t.toUInt64) (version : UInt16)
    (nonce' messageId : UInt64) (key' extra : Bytes) :
    readPacket now
        (created t payload version flags nonce' messageId key' ++ extra)
        nonce key
      = .ok (.ok {
          header := createHeader t payload version flags nonce' messageId
          payload }) := by
  have hbody : encodedPayload payload
      (createHeader t payload version flags nonce' messageId) key' nonce'
      = payload := if_pos hplain
  have hlength : (encodedPayload payload
      (createHeader t payload version flags nonce' messageId) key'
      nonce').length = _ := encodedPayload_length hsize nonce'
  have hlimit : payload.length < 0x40000000 :=
    lt_of_le_of_lt hsize (by decide)
  rw [hbody] at hlength
  rw [created, hbody]
  exact readPacket_noCrypto hkey hplain hlength hlimit hfresh nonce extra

theorem requestOf_packet (now : Int64) (drawn : UInt64) (s : Session)
    (w : PostedWrite) :
    requestOf (w.packet now drawn s) = (w.flags, w.messageId drawn) := by
  have hheader := headerOf_created now w.payload 1 w.flags s.messageCounter
    (w.messageId drawn) s.keys.sharedKey.val []
  rw [List.append_nil] at hheader
  rw [requestOf, PostedWrite.packet, hheader]
  rfl

-- =============================================================== contents

/-- The answer to a test message is a short text. -/
theorem answerText_length_le (messageCounter : UInt64) :
    (SessionServer.answerText messageCounter).length ≤ tcpPayloadSizeMax := by
  have hdigits : messageCounter.toNat.repr.length ≤ 20 :=
    (Nat.length_repr_le_iff (by decide)).mpr
      (lt_trans messageCounter.toNat_lt (by decide))
  have hprefix : ("asnwer from server ").toList.length = 19 := by decide
  unfold SessionServer.answerText
  rw [List.length_map, String.toList_append, List.length_append, hprefix,
    String.length_toList]
  show 19 + messageCounter.toNat.repr.length ≤ 512
  omega

/-- The branch for a test message. -/
theorem SessionServer.callbackAnswer_testMessage (sodium : Sodium)
    (s : Session) {packet : Packet}
    (h : packet.header.flags = Flags.testMessage) :
    callbackAnswer sodium s packet = {
      session := s
      posted := [.server Flags.testMessage packet.header.messageId
        (answerText s.messageCounter)] } := by
  have hother : ¬packet.header.flags = Flags.handshake := by
    rw [h]
    decide
  rw [callbackAnswer, if_neg hother, if_pos h,
    write_posted (answerText_length_le _)]

/-- Any other packet is not answered. -/
theorem SessionServer.callbackAnswer_other (sodium : Sodium) (s : Session)
    {packet : Packet} (h : ¬Answered packet.request) :
    callbackAnswer sodium s packet = { session := s } := by
  have hhandshake : ¬packet.header.flags = Flags.handshake :=
    fun hflags => h (Or.inl hflags)
  have htest : ¬packet.header.flags = Flags.testMessage :=
    fun hflags => h (Or.inr hflags)
  rw [callbackAnswer, if_neg hhandshake, if_neg htest]

/-- A closure of `DefaultReadCallback`: its flags say what its payload
is. -/
def PostedWrite.FromCallback (publicKey : Key) (w : PostedWrite) : Prop :=
  w.role = .server
    ∧ (w.flags = Flags.handshake ∧ w.payload = publicKey.val
      ∨ w.flags = Flags.testMessage
        ∧ ∃ n, w.payload = SessionServer.answerText n)

/-- A packet whose flags are answered is answered by one `Write`, any
other by none. -/
theorem SessionServer.callbackAnswer_account (sodium : Sodium) (s : Session)
    (packet : Packet) :
    total PostedWrite.answers (callbackAnswer sodium s packet).posted
        + (callbackAnswer sodium s packet).task.owes = due packet.request
      ∧ (∀ w ∈ (callbackAnswer sodium s packet).posted,
        w.FromCallback (s.keys.getPublicKey sodium))
      ∧ (callbackAnswer sodium s packet).session = s := by
  by_cases hhandshake : packet.header.flags = Flags.handshake
  · rw [callbackAnswer_handshake sodium s hhandshake,
      due_of_answered (Or.inl hhandshake), Packet.request, hhandshake]
    refine ⟨rfl, fun w hw => ?_, rfl⟩
    rw [List.mem_singleton.mp hw]
    exact ⟨rfl, Or.inl ⟨rfl, rfl⟩⟩
  · by_cases htest : packet.header.flags = Flags.testMessage
    · rw [callbackAnswer_testMessage sodium s htest,
        due_of_answered (Or.inr htest), Packet.request, htest]
      refine ⟨rfl, fun w hw => ?_, rfl⟩
      rw [List.mem_singleton.mp hw]
      exact ⟨rfl, Or.inr ⟨rfl, _, rfl⟩⟩
    · have hnot : ¬Answered packet.request := by
        rintro (h | h)
        · exact hhandshake h
        · exact htest h
      rw [callbackAnswer_other sodium s hnot, due_of_not hnot]
      exact ⟨rfl, fun w hw => absurd hw List.not_mem_nil, rfl⟩

-- ================================================================= tasks

/-- `ComputeSharedKey` leaves the private key alone. -/
theorem computeSharedKey_privateKey {keys keys' : KeysWrapper} {other : Bytes}
    {ok : Bool} (h : keys.computeSharedKey sodium other = .ok (ok, keys')) :
    keys'.privateKey = keys.privateKey := by
  unfold KeysWrapper.computeSharedKey at h
  split at h
  next =>
    split at h
    next =>
      cases h
      rfl
    next =>
      cases h
      rfl
  next => cases h

namespace Peer

/-- A task that begins returns what its `ReadPacket` does. -/
theorem returned_task {p : Peer} {k : Nat} {buffer : Bytes} {now : Int64}
    {result : Except PacketError Packet}
    (hτ : p.tasks[k]? = some (p.role.task buffer))
    (h : readPacket now buffer (p.role.readNonce p.session)
      p.session.keys.sharedKey.val = .ok result) :
    total ReadCall.returned (p.readCalls (.task k now))
      = returnedBy result := by
  rw [readCalls_task hτ, total_cons, total_nil, add_zero]
  simp only [ReadCall.returned, ReadCall.outcome, h]

/-- One that has begun returns nothing more. -/
theorem returned_begun {p : Peer} {k : Nat} {τ : Task}
    (hτ : p.tasks[k]? = some τ) (hbegun : τ.unread = none) (now : Int64) :
    total ReadCall.returned (p.readCalls (.task k now)) = 0 := by
  rw [readCalls_begun hτ hbegun, total_nil]

/-- A part of a server's task turns what the task owes, and what its
`ReadPacket` returns, into a posted answer or into what it owes then. -/
theorem task_account {p : Peer} (hp : p.Sound) (hserver : p.role = .server)
    {k : Nat} {now : Int64} {τ : Task} {r : TaskResult}
    (hτ : p.tasks[k]? = some τ) (hrun : τ.run sodium now p.session = .ok r) :
    (total ReadCall.returned (p.readCalls (.task k now))).filter Answered
        + τ.owes = total PostedWrite.answers r.posted + r.task.owes
      ∧ (∀ w ∈ r.posted, w.FromCallback (p.session.keys.getPublicKey sodium))
      ∧ r.session.keys.privateKey = p.session.keys.privateKey := by
  have hkind : τ.OfRole .server := by
    rw [← hserver]
    exact hp.kinds τ (List.mem_of_getElem? hτ)
  have hnone : ∀ w ∈ ([] : List PostedWrite),
      w.FromCallback (p.session.keys.getPublicKey sodium) :=
    fun w hw => by cases hw
  cases τ with
  | serverRead buffer =>
      obtain ⟨result, hread, hr⟩ := bind_eq_ok hrun
      have hposition : p.tasks[k]? = some (p.role.task buffer) := by
        rw [hserver]
        exact hτ
      have hreturns : readPacket now buffer (p.role.readNonce p.session)
          p.session.keys.sharedKey.val = .ok result := by
        rw [hserver]
        exact hread
      rw [returned_task hposition hreturns]
      cases result with
      | error e =>
          cases hr
          exact ⟨rfl, hnone, rfl⟩
      | ok packet =>
          cases hr
          rw [returnedBy, filter_answered]
          exact ⟨add_comm _ _, hnone, rfl⟩
  | serverAnswer packet =>
      cases hrun
      obtain ⟨haccount, hfrom, hsession⟩ :=
        SessionServer.callbackAnswer_account sodium p.session packet
      rw [returned_begun hτ rfl, haccount, hsession]
      exact ⟨zero_add _, hfrom, rfl⟩
  | serverKey payload =>
      obtain ⟨⟨ok, keys⟩, hkeys, hr⟩ := bind_eq_ok hrun
      cases hr
      rw [returned_begun hτ rfl]
      exact ⟨rfl, hnone, computeSharedKey_privateKey hkeys⟩
  | clientRead buffer => cases hkind
  | clientCallback cb packet => cases hkind
  | done =>
      cases hrun
      rw [returned_begun hτ rfl]
      exact ⟨rfl, hnone, rfl⟩

-- ====================================================== anyone is answered

/-- The newest task goes on. -/
theorem newest_task {p : Peer} {ts : List Task} {τ : Task} {r : TaskResult}
    {now : Int64} (htasks : p.tasks = ts ++ [τ])
    (hrun : τ.run sodium now p.session = .ok r) :
    Step sodium p (.task ts.length now) {
      p with
      session := r.session
      posted := p.posted ++ r.posted
      tasks := ts ++ [r.task] } := by
  have hτ : p.tasks[ts.length]? = some τ := by
    rw [htasks]
    exact List.getElem?_concat_length
  have hset : p.tasks.set ts.length r.task = ts ++ [r.task] := by
    rw [htasks, List.set_append_right _ _ le_rfl, Nat.sub_self,
      List.set_cons_zero]
  rw [← hset]
  exact .task hτ hrun

/-- A server reads a packet that its `ReadPacket` then accepts. -/
theorem accept_steps (sodium : Sodium) {p : Peer} (hserver : p.role = .server)
    {chunk : Bytes} (hfits : Outbox.Fits chunk) {now : Int64} {packet : Packet}
    (hreturns : readPacket now (readBuffer chunk)
      (SessionServer.readNonce (p.session.completeRead now))
      p.session.keys.sharedKey.val = .ok (.ok packet)) :
    ∃ q, Step sodium p (.read chunk now) (p.completeRead now chunk)
      ∧ Step sodium (p.completeRead now chunk) (.task p.tasks.length now) q
      ∧ q = { p with
        session := p.session.completeRead now
        tasks := p.tasks ++ [.serverAnswer packet] } := by
  have htasks : (p.completeRead now chunk).tasks
      = p.tasks ++ [.serverRead (readBuffer chunk)] := by
    show p.tasks ++ [p.role.task _] = _
    rw [hserver]
    rfl
  have htask : Step sodium (p.completeRead now chunk)
      (.task p.tasks.length now) { p with
        session := p.session.completeRead now
        posted := p.posted ++ []
        tasks := p.tasks ++ [.serverAnswer packet] } :=
    newest_task htasks (SessionServer.callbackRead_eq hreturns)
  rw [List.append_nil] at htask
  exact ⟨_, .read hfits.1 hfits.2, htask, rfl⟩

/-- A test message that anybody has made is read, accepted and answered,
whatever key the session holds. -/
theorem answer_steps (sodium : Sodium) {p : Peer} (hserver : p.role = .server)
    {payload : Bytes} (hsize : payload.length ≤ tcpPayloadSizeMax) (now : Int64)
    (version : UInt16) (nonce messageId : UInt64) (key : Bytes) :
    ∃ chunk p₂ q, chunk = created now payload version Flags.testMessage nonce
        messageId key
      ∧ Step sodium p (.read chunk now) (p.completeRead now chunk)
      ∧ Step sodium (p.completeRead now chunk) (.task p.tasks.length now) p₂
      ∧ Step sodium p₂ (.task p.tasks.length now) q
      ∧ q.session = p.session.completeRead now
      ∧ q.tasks = p.tasks ++ [.done]
      ∧ q.posted = p.posted ++ [.server Flags.testMessage messageId
        (SessionServer.answerText (p.session.messageCounter + 1))] := by
  have hfits : Outbox.Fits (created now payload version Flags.testMessage nonce
    messageId key) := created_fits hsize _ _ _ _ _
  obtain ⟨p₂, h₁, h₂, rfl⟩ := accept_steps sodium hserver hfits
    (readPacket_created_noCrypto p.session.keys.sharedKey.property hsize
      (by decide) _ (fresh_self now) version nonce messageId key _)
  have hanswer : (Task.serverAnswer {
      header := createHeader now payload version Flags.testMessage nonce
        messageId
      payload }).run sodium now (p.session.completeRead now) = .ok {
        session := p.session.completeRead now
        posted := [.server Flags.testMessage messageId
          (SessionServer.answerText (p.session.messageCounter + 1))] } :=
    congrArg Except.ok (SessionServer.callbackAnswer_testMessage sodium _ rfl)
  exact ⟨_, _, _, rfl, h₁, h₂, newest_task rfl hanswer, rfl, rfl, rfl⟩

theorem server_of_run {keys : KeysWrapper} {now : Int64} {es : List Event}
    {p : Peer} (h : Run (Step sodium) (start .server keys now) es p) :
    p.Sound ∧ p.role = .server := by
  refine Run.invariant (I := fun s : Peer => s.Sound ∧ s.role = .server) ?_ h
    ⟨start_sound .server keys now, rfl⟩
  rintro s e u ⟨hs, hrole⟩ hstep
  exact ⟨hs.step hstep, hstep.role_eq.trans hrole⟩

/-- In every state that a server session can reach, a test message made
with any key and any nonce is accepted and answered. -/
theorem testMessage_answered (sodium : Sodium) {keys : KeysWrapper}
    {now : Int64} {es : List Event} {p : Peer}
    (h : Run (Step sodium) (start .server keys now) es p) {payload : Bytes}
    (hsize : payload.length ≤ tcpPayloadSizeMax) (t : Int64)
    (version : UInt16) (nonce messageId : UInt64) (key : Bytes) :
    ∃ q, Run (Step sodium) p
        [.read (created t payload version Flags.testMessage nonce messageId
          key) t, .task p.reads t, .task p.reads t] q
      ∧ q.session.keys = p.session.keys
      ∧ q.posted = p.posted ++ [.server Flags.testMessage messageId
        (SessionServer.answerText (UInt64.ofNat q.reads))] := by
  have hp := server_of_run h
  obtain ⟨chunk, p₂, q, rfl, h₁, h₂, h₃, hsession, -, hposted⟩ :=
    answer_steps sodium hp.2 hsize t version nonce messageId key
  have hcounter : p.session.messageCounter + 1 = UInt64.ofNat q.reads := by
    rw [← (((hp.1.step h₁).step h₂).step h₃).counter, hsession]
    rfl
  refine ⟨q, .cons h₁ (.cons h₂ (.cons h₃ (.nil q))), ?_, ?_⟩
  · rw [hsession]
    rfl
  · rw [hposted, hcounter]

/-- A fresh server session answers a test message made with an empty key. -/
theorem testMessage_answered_fresh : ∃ q,
    Run (Step ⟨id, fun _ _ => none, id⟩) (start .server ⟨Key.zero, Key.zero⟩ 0)
        [.read (created 9 [] 1 Flags.testMessage 7 4 []) 9, .task 0 9,
          .task 0 9] q
      ∧ q.session.keys = ⟨Key.zero, Key.zero⟩
      ∧ q.posted = [.server Flags.testMessage 4
        (SessionServer.answerText (UInt64.ofNat q.reads))] :=
  testMessage_answered _ (.nil _) (Nat.zero_le _) 9 1 7 4 []

-- =========================================================== the account

/-- Nobody calls `Write` but the session's own callback. -/
def LeftToCallback (e : Event) : Prop := ∀ w, e ≠ .write w

/-- A packet that a closure of the callback has created. -/
def FromServer (publicKey : Key) (packet : Bytes) : Prop :=
  ∃ (now : Int64) (drawn : UInt64) (s : Session) (w : PostedWrite),
    w.FromCallback publicKey ∧ packet = w.packet now drawn s

/-- What is to be answered is owed, posted or sent, and nothing else is
posted or sent. -/
structure Accounts (sodium : Sodium) (publicKey : Key) (p : Peer)
    (log : List ReadCall) : Prop where
  sound : p.Sound
  server : p.role = .server
  key : p.view.keys.getPublicKey sodium = publicKey
  posted : ∀ w ∈ p.view.posted, w.FromCallback publicKey
  sent : ∀ packet ∈ p.view.sent, FromServer publicKey packet
  account : (total ReadCall.returned log).filter Answered
    = total (fun packet => {requestOf packet}) p.view.sent
      + total PostedWrite.answers p.view.posted + total Task.owes p.view.tasks

variable {publicKey : Key} {p q : Peer} {log : List ReadCall}

theorem start_accounts (sodium : Sodium) (keys : KeysWrapper) (now : Int64) :
    Accounts sodium (keys.getPublicKey sodium) (start .server keys now) []
    where
  sound := start_sound .server keys now
  server := rfl
  key := rfl
  posted _ hw := absurd hw List.not_mem_nil
  sent _ hpacket := absurd hpacket List.not_mem_nil
  account := rfl

/-- Where the view stays, so does the account. -/
theorem Accounts.frame (hp : Accounts sodium publicKey p log) (hq : q.Sound)
    (hrole : q.role = p.role) (hview : q.view = p.view) :
    Accounts sodium publicKey q (log ++ []) := by
  obtain ⟨-, hserver, hkey, hposted, hsent, haccount⟩ := hp
  refine ⟨hq, hrole.trans hserver, ?_, ?_, ?_, ?_⟩
  · rw [hview]
    exact hkey
  · rw [hview]
    exact hposted
  · rw [hview]
    exact hsent
  · rw [hview, List.append_nil]
    exact haccount

/-- A closure's answer moves from what is posted to what is sent. -/
theorem Accounts.handler {now : Int64} {drawn : UInt64}
    (hp : Accounts sodium publicKey p log)
    (h : Step sodium p (.handler now drawn) q) :
    Accounts sodium publicKey q (log ++ []) := by
  obtain ⟨w, rest, hposted, hview⟩ := handler_view hp.sound h
  have hw : w ∈ p.view.posted := by
    show w ∈ p.posted
    rw [hposted]
    exact List.mem_cons_self ..
  have hfrom := hp.posted w hw
  have hrequest : ({requestOf (w.packet now drawn p.session)}
      : Multiset Request) = w.answers := by
    rw [requestOf_packet]
    cases w with
    | server flags messageId payload => rfl
    | client flags payload cb => cases hfrom.1
  refine ⟨hp.sound.step h, h.role_eq.trans hp.server, ?_, ?_, ?_, ?_⟩
  · rw [hview]
    exact hp.key
  · rw [hview]
    intro w' hw'
    refine hp.posted w' ?_
    show w' ∈ p.posted
    rw [hposted]
    exact List.mem_cons_of_mem _ hw'
  · rw [hview]
    intro packet hpacket
    rcases List.mem_append.mp hpacket with hold | hnew
    · exact hp.sent packet hold
    · exact ⟨now, drawn, p.session, w, hfrom, List.mem_singleton.mp hnew⟩
  · have haccount := hp.account
    have hlist : p.view.posted = w :: rest := hposted
    rw [hlist, total_cons] at haccount
    rw [hview, List.append_nil, haccount, total_append, total_cons, total_nil,
      hrequest, add_zero, ← add_assoc]

/-- A part of a task moves on what the task owes. -/
theorem Accounts.task {k : Nat} {now : Int64}
    (hp : Accounts sodium publicKey p log)
    (h : Step sodium p (.task k now) q) :
    Accounts sodium publicKey q (log ++ p.readCalls (.task k now)) := by
  obtain ⟨τ, r, hτ, hrun, hview⟩ := task_view h
  obtain ⟨hmoves, hfrom, hprivate⟩ :=
    task_account hp.sound hp.server hτ hrun
  have hkey : r.session.keys.getPublicKey sodium = publicKey := by
    rw [← hp.key, KeysWrapper.getPublicKey, hprivate]
    rfl
  refine ⟨hp.sound.step h, h.role_eq.trans hp.server, ?_, ?_, ?_, ?_⟩
  · rw [hview]
    exact hkey
  · rw [hview]
    intro w hw
    rcases List.mem_append.mp hw with hold | hnew
    · exact hp.posted w hold
    · rw [← hp.key]
      exact hfrom w hnew
  · rw [hview]
    exact hp.sent
  · -- what the task owed is what it returned, posted or owes now
    have hset := total_set (f := Task.owes) hτ r.task
    have haccount := hp.account
    rw [hview, total_append, Multiset.filter_add, haccount]
    refine add_right_cancel (b := τ.owes) ?_
    rw [add_assoc, hmoves, add_assoc _ (total Task.owes _) τ.owes]
    dsimp only
    rw [hset, total_append]
    show _ + total PostedWrite.answers p.posted + total Task.owes p.tasks + _
      = _
    ac_rfl

/-- Every step of a server left to its callback keeps the account. -/
theorem Accounts.step {e : Event} (hp : Accounts sodium publicKey p log)
    (h : Step sodium p e q) (hleft : LeftToCallback e) :
    Accounts sodium publicKey q (log ++ p.readCalls e) := by
  have hq := hp.sound.step h
  cases e with
  | write w => exact absurd rfl (hleft w)
  | handler now drawn => exact hp.handler h
  | transfer i n => exact hp.frame hq h.role_eq (transfer_view h)
  | written i ec now => exact hp.frame hq h.role_eq (written_view hp.sound h)
  | close => exact hp.frame hq h.role_eq (close_view hp.sound h)
  | read chunk now =>
      have hview := read_view h
      obtain ⟨-, hserver, hkey, hposted, hsent, haccount⟩ := hp
      refine ⟨hq, h.role_eq.trans hserver, ?_, ?_, ?_, ?_⟩
      · rw [hview]
        exact hkey
      · rw [hview]
        exact hposted
      · rw [hview]
        exact hsent
      · have howes : total Task.owes
            (p.tasks ++ [p.role.task (readBuffer chunk)])
            = total Task.owes p.tasks := by
          rw [hserver, total_append, total_cons, total_nil, add_zero]
          exact add_zero _
        rw [show p.readCalls (.read chunk now) = [] from rfl, List.append_nil,
          haccount, hview]
        exact congrArg (_ + ·) howes.symm
  | task k now => exact hp.task h

theorem accounts_of_run {keys : KeysWrapper} {now : Int64} {es : List Event}
    (h : Run (When (Logged (Step sodium) readCalls) fun _ => LeftToCallback)
      (start .server keys now, []) es (q, log)) :
    Accounts sodium (keys.getPublicKey sodium) q log := by
  refine Run.invariant (I := fun s : Peer × List ReadCall =>
    Accounts sodium (keys.getPublicKey sodium) s.1 s.2) ?_ h
    (start_accounts sodium keys now)
  rintro s e t hs ⟨⟨hstep, hlog⟩, hleft⟩
  rw [hlog]
  exact hs.step hstep hleft

/-- A step that is not a `Write`, with the calls it makes. -/
theorem logged_left {p q : Peer} {e : Event} (h : Step sodium p e q)
    (hleft : LeftToCallback e) (log : List ReadCall) :
    When (Logged (Step sodium) readCalls) (fun _ => LeftToCallback) (p, log) e
      (q, log ++ p.readCalls e) := ⟨⟨h, rfl⟩, hleft⟩

/-- A server session answers a test message with the id 4. -/
theorem answer_run (sodium : Sodium) (keys : KeysWrapper) :
    ∃ es q log, Run
        (When (Logged (Step sodium) readCalls) fun _ => LeftToCallback)
        (start .server keys 0, []) es (q, log)
      ∧ q.view.sent.map requestOf = [(Flags.testMessage, 4)] := by
  have hsize : ([] : Bytes).length ≤ tcpPayloadSizeMax := Nat.zero_le _
  obtain ⟨chunk, p₂, p₃, -, h₁, h₂, h₃, hsession, -, hposted⟩ :=
    answer_steps sodium (p := start .server keys 0) rfl hsize 0 1 0 4 []
  have hsound := (((start_sound .server keys 0).step h₁).step h₂).step h₃
  obtain ⟨q, h₄, -⟩ := handler_enabled sodium hsound hposted 0 0
  obtain ⟨w, rest, hw, hview⟩ := handler_view hsound h₄
  rw [hposted] at hw
  cases hw
  have hsent : p₃.view.sent = [] :=
    congrArg (Outbox.sent ∘ Session.outbox) hsession
  refine ⟨_, q, _, .cons (logged_left h₁ (fun _ he => by cases he) [])
    (.cons (logged_left h₂ (fun _ he => by cases he) _)
      (.cons (logged_left h₃ (fun _ he => by cases he) _)
        (.cons (logged_left h₄ (fun _ he => by cases he) _) (.nil _)))), ?_⟩
  rw [hview, hsent, List.nil_append, List.map_singleton, requestOf_packet]
  rfl

/-- In every run of a server session that is left to its callback, what
it has accepted with the flags `Handshake` or `TestMessage` is, request
by request, what it has sent, what its posted closures will send, and
what its tasks have still to call `Write` for. -/
theorem answers_account (sodium : Sodium) (keys : KeysWrapper) (now : Int64)
    {es : List Event} {q : Peer} {log : List ReadCall}
    (h : Run (When (Logged (Step sodium) readCalls) fun _ => LeftToCallback)
      (start .server keys now, []) es (q, log)) :
    (total ReadCall.returned log).filter Answered
      = (q.view.sent.map requestOf : Multiset Request)
        + total PostedWrite.answers q.posted + total Task.owes q.tasks := by
  rw [(accounts_of_run h).account, total_singleton]
  rfl

/-- A server session that has sent one answer. -/
theorem answers_account_one : ∃ (q : Peer) (log : List ReadCall),
    q.view.sent.map requestOf = [(Flags.testMessage, 4)]
      ∧ (total ReadCall.returned log).filter Answered
        = (q.view.sent.map requestOf : Multiset Request)
          + total PostedWrite.answers q.posted + total Task.owes q.tasks := by
  obtain ⟨es, q, log, hrun, hsent⟩ :=
    answer_run ⟨id, fun _ _ => none, id⟩ ⟨Key.zero, Key.zero⟩
  exact ⟨q, log, hsent, answers_account _ _ 0 hrun⟩

/-- Every packet of a server session that is left to its callback seals
the public key of the private key it was made with, or is a test answer
that a reader with any key and any nonce accepts. -/
theorem answers_contents (sodium : Sodium) (keys : KeysWrapper) (now : Int64)
    {es : List Event} {q : Peer} {log : List ReadCall}
    (h : Run (When (Logged (Step sodium) readCalls) fun _ => LeftToCallback)
      (start .server keys now, []) es (q, log))
    {packet : Bytes} (hpacket : packet ∈ q.view.sent) :
    ((headerOf packet).flags = Flags.handshake ∧ ∃ K : Key,
        (packetOf packet).payload = sealed K.val
          (nonce96 (headerOf packet).nonce)
          (serializedHeader (headerOf packet))
          (keys.getPublicKey sodium).val)
      ∨ (headerOf packet).flags = Flags.testMessage ∧ ∃ n, ∀ (key : Key)
        (nonce : UInt64) (now' : Int64),
        Fresh now' (headerOf packet).timestamp →
        readPacket now' packet nonce key.val = .ok (.ok {
          header := headerOf packet
          payload := SessionServer.answerText n }) := by
  obtain ⟨t, drawn, s, w, ⟨-, hcontents⟩, rfl⟩ :=
    (accounts_of_run h).sent packet hpacket
  have hheader := headerOf_created t w.payload 1 w.flags s.messageCounter
    (w.messageId drawn) s.keys.sharedKey.val []
  rw [List.append_nil, ← PostedWrite.packet] at hheader
  rw [hheader]
  rcases hcontents with ⟨hflags, hpayload⟩ | ⟨hflags, n, hpayload⟩
  · refine Or.inl ⟨hflags, s.keys.sharedKey, ?_⟩
    have hsize : w.payload.length ≤ tcpPayloadSizeMax := by
      rw [hpayload]
      exact (keys.getPublicKey sodium).property.trans_le (by decide)
    have hcrypto : ¬NoCrypto w.flags := by
      rw [hflags]
      decide
    have hpacketOf : packetOf (w.packet t drawn s ++ []) = _ :=
      (complete_created hsize t 1 w.flags s.messageCounter (w.messageId drawn)
        []).2
    rw [List.append_nil] at hpacketOf
    rw [hpacketOf, ← hpayload]
    exact if_neg hcrypto
  · refine Or.inr ⟨hflags, n, fun key nonce now' hfresh => ?_⟩
    have hsize : w.payload.length ≤ tcpPayloadSizeMax := by
      rw [hpayload]
      exact answerText_length_le n
    have hplain : NoCrypto w.flags := by
      rw [hflags]
      decide
    have hread := readPacket_created_noCrypto key.property hsize hplain nonce
      hfresh 1 s.messageCounter (w.messageId drawn) s.keys.sharedKey.val []
    rw [List.append_nil, hpayload] at hread
    rw [PostedWrite.packet, hpayload]
    exact hread

/-- Its answer is a text that everybody can read. -/
theorem answers_contents_one : ∃ packet n,
    (headerOf packet).flags = Flags.testMessage ∧ ∀ (key : Key)
      (nonce : UInt64) (now : Int64), Fresh now (headerOf packet).timestamp →
      readPacket now packet nonce key.val = .ok (.ok {
        header := headerOf packet
        payload := SessionServer.answerText n }) := by
  obtain ⟨es, q, log, hrun, hsent⟩ :=
    answer_run ⟨id, fun _ _ => none, id⟩ ⟨Key.zero, Key.zero⟩
  obtain ⟨packet, hpacket⟩ : ∃ packet, q.view.sent = [packet] :=
    List.length_eq_one_iff.mp (by
      rw [← List.length_map, hsent]
      rfl)
  have hflags : (headerOf packet).flags = Flags.testMessage := by
    rw [hpacket] at hsent
    exact congrArg Prod.fst (List.cons.inj hsent).1
  rcases answers_contents _ _ 0 hrun
      (by rw [hpacket]; exact List.mem_singleton_self packet) with
    ⟨hhandshake, -⟩ | ⟨-, n, hread⟩
  · rw [hflags] at hhandshake
    exact absurd hhandshake (by decide)
  · exact ⟨packet, n, hflags, hread⟩

end Peer

end Remc.Net
