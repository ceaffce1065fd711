/-
The callbacks of test messages are called.

`task_queue_` matches answers with callbacks by the message id alone, and
nothing there ever times out. On a connection that delivers one packet per
read, to a server that is left to its callback, every packet that the
client accepts has been asked for (`Asking`). So the callback given with a
test message whose id is drawn once has been called when nothing is under
way any more: once, with the answer to that message, and with no other
call for the id (`testMessages_called`).
-/
import Remc.Net.Exchange

namespace Remc.Net

open Crypto Runs Ledger Replies

variable {sodium : Sodium}

/-- The history of a client's callbacks. -/
abbrev Replied := Entry UInt64 WriteCallback Packet

/-- The message id in the header of a buffer. -/
def idOf (w : Bytes) : UInt64 := (requestOf w).2

/-- The request of the packet that an entry records as accepted. -/
def accepts : Replied → Multiset Request
  | .accepted _ packet => {packet.request}
  | _ => 0

/-- A test message is answered with the server's text. -/
def AnswerText (packet : Packet) : Prop :=
  packet.header.flags = Flags.testMessage →
    ∃ n, packet.payload = SessionServer.answerText n

namespace Peer

/-- What a step of a client is for its callbacks: a request, an accepted
packet, or neither. -/
theorem replyEntries_step {p q : Peer} {e : Event} (hp : p.Sound)
    (hrole : p.role = .client) (hposts : p.PostsClient)
    (h : Step sodium p e q) :
    (∃ now drawn flags payload cb rest, e = .handler now drawn
        ∧ p.posted = .client flags payload cb :: rest
        ∧ p.replyEntries e = [.request drawn cb])
      ∨ (∃ k now buffer packet, e = .task k now
        ∧ p.tasks[k]? = some (.clientRead buffer)
        ∧ readPacket now buffer (SessionClient.readNonce p.session)
          p.session.keys.sharedKey.val = .ok (.ok packet)
        ∧ p.replyEntries e = [.accepted k packet])
      ∨ ((∀ now drawn, e ≠ .handler now drawn)
        ∧ (∀ c ∈ p.replyEntries e, ∃ k packet cb, c = .called k packet cb)
        ∧ total ReadCall.returned (p.readCalls e) = 0) := by
  have hnone : ∀ c ∈ ([] : List Replied),
      ∃ k packet cb, c = Entry.called k packet cb := fun c hc => by cases hc
  cases e with
  | handler now drawn =>
      obtain ⟨w, rest, messageQueue, hposted, -, -⟩ := handler_step hp h
      have hmem : w ∈ p.posted := by
        rw [hposted]
        exact List.mem_cons_self ..
      cases w with
      | server flags messageId payload => cases hposts _ hmem
      | client flags payload cb =>
          exact Or.inl ⟨now, drawn, flags, payload, cb, rest, rfl, hposted,
            replyEntries_request hposted (hp.sizes _ hmem)⟩
  | task k now =>
      obtain ⟨τ, r, hτ, hrun, -⟩ := task_view h
      have hkind := hp.kinds τ (List.mem_of_getElem? hτ)
      rw [hrole] at hkind
      cases τ with
      | serverRead buffer => cases hkind
      | serverAnswer packet => cases hkind
      | serverKey payload => cases hkind
      | clientRead buffer =>
          obtain ⟨result, hread, -⟩ := bind_eq_ok hrun
          cases result with
          | ok packet =>
              exact Or.inr (Or.inl ⟨k, now, buffer, packet, rfl, hτ, hread,
                replyEntries_accepted hτ hread⟩)
          | error err =>
              have hposition : p.tasks[k]? = some (p.role.task buffer) := by
                rw [hrole]
                exact hτ
              have hreturns : readPacket now buffer (p.role.readNonce p.session)
                  p.session.keys.sharedKey.val = .ok (.error err) := by
                rw [hrole]
                exact hread
              refine Or.inr (Or.inr ⟨by simp, ?_, ?_⟩)
              · simp only [replyEntries, hτ, hread]
                exact hnone
              · exact returned_task hposition hreturns
      | clientCallback cb packet =>
          refine Or.inr (Or.inr ⟨by simp, ?_, returned_begun hτ rfl now⟩)
          rw [replyEntries_called hτ]
          intro c hc
          exact ⟨k, packet, cb, List.mem_singleton.mp hc⟩
      | done =>
          refine Or.inr (Or.inr ⟨by simp, ?_, returned_begun hτ rfl now⟩)
          simp only [replyEntries, hτ]
          exact hnone
  | _ => exact Or.inr (Or.inr ⟨by simp, hnone, rfl⟩)

/-- The packets sent have the ids of the requests. -/
theorem replyEntries_sent {p q : Peer} {e : Event} (hp : p.Sound)
    (hrole : p.role = .client) (hposts : p.PostsClient)
    (h : Step sodium p e q) :
    q.view.sent.map idOf = p.view.sent.map idOf
      ++ (p.replyEntries e).filterMap Entry.requested := by
  rcases replyEntries_step hp hrole hposts h with
    ⟨now, drawn, flags, payload, cb, rest, rfl, hposted, hentries⟩
    | ⟨k, now, buffer, packet, rfl, -, -, hentries⟩ | ⟨hnot, hcalled, -⟩
  · obtain ⟨w, rest', hposted', hview⟩ := handler_view hp h
    rw [hposted] at hposted'
    cases hposted'
    rw [hview, hentries, List.map_append, List.map_singleton, idOf,
      requestOf_packet]
    rfl
  · have hsent : q.view.sent = p.view.sent :=
      congrArg Outbox.sent (task_outbox h)
    rw [hsent, hentries]
    exact (List.append_nil _).symm
  · have hnone : (p.replyEntries e).filterMap Entry.requested = [] := by
      refine List.filterMap_eq_nil_iff.mpr fun c hc => ?_
      obtain ⟨k, packet, cb, rfl⟩ := hcalled c hc
      rfl
    rcases sent_step hp h with ⟨now, drawn, w, rest, he, -⟩ | hsent
    · exact absurd he (hnot now drawn)
    · rw [hsent, hnone, List.append_nil]

/-- The packets that a client accepts are those its calls of `ReadPacket`
return. -/
theorem replyEntries_returned {p q : Peer} {e : Event} (hp : p.Sound)
    (hrole : p.role = .client) (hposts : p.PostsClient)
    (h : Step sodium p e q) :
    total ReadCall.returned (p.readCalls e) = total accepts (p.replyEntries e)
    := by
  rcases replyEntries_step hp hrole hposts h with
    ⟨now, drawn, flags, payload, cb, rest, rfl, -, hentries⟩
    | ⟨k, now, buffer, packet, rfl, hτ, hread, hentries⟩ | ⟨-, hcalled, hnone⟩
  · rw [hentries, total_cons, total_nil]
    rfl
  · have hposition : p.tasks[k]? = some (p.role.task buffer) := by
      rw [hrole]
      exact hτ
    have hreturns : readPacket now buffer (p.role.readNonce p.session)
        p.session.keys.sharedKey.val = .ok (.ok packet) := by
      rw [hrole]
      exact hread
    rw [returned_task hposition hreturns, hentries, total_cons, total_nil,
      add_zero]
    rfl
  · rw [hnone, total_eq_zero fun c hc => ?_]
    obtain ⟨k, packet, cb, rfl⟩ := hcalled c hc
    rfl

/-- What a server left to its callback has sent with the flags
`TestMessage` is read as one of its texts. -/
theorem FromServer.answerText {publicKey : Key} {chunk key : Bytes}
    (h : FromServer publicKey chunk) (hkey : key.length = 32) {now : Int64}
    {nonce : UInt64} {packet : Packet}
    (hread : readPacket now (readBuffer chunk) nonce key = .ok (.ok packet)) :
    AnswerText packet := by
  intro hflags
  obtain ⟨t, drawn, s, w, ⟨-, hcontents⟩, rfl⟩ := h
  have hheader := headerOf_created t w.payload 1 w.flags s.messageCounter
    (w.messageId drawn) s.keys.sharedKey.val
  have hwflags : w.flags = Flags.testMessage := by
    have hrequest := accepted_request hkey hread
    rw [requestOf, readBuffer, PostedWrite.packet, hheader] at hrequest
    exact (congrArg Prod.fst hrequest).symm.trans hflags
  rcases hcontents with ⟨hhandshake, -⟩ | ⟨-, n, hpayload⟩
  · rw [hwflags] at hhandshake
    cases hhandshake
  · have hsize : w.payload.length ≤ tcpPayloadSizeMax := by
      rw [hpayload]
      exact answerText_length_le n
    have hplain : NoCrypto w.flags := by
      rw [hwflags]
      decide
    have hfresh := accepted_fresh hkey hread
    rw [readBuffer, PostedWrite.packet, hheader] at hfresh
    rw [readBuffer, PostedWrite.packet, readPacket_created_noCrypto hkey hsize
      hplain nonce hfresh] at hread
    cases hread
    exact ⟨n, hpayload⟩

end Peer

namespace System

open Peer

/-- What an event does for the callbacks of the client. -/
def replies (S : System) : Role × Event → List Replied
  | (.client, e) => (S.peer .client).replyEntries e
  | (.server, _) => []

/-- The client's requests and what it has accepted: it accepts what it has
asked for. -/
structure Asking (S : System) (calls : List (Role × ReadCall))
    (log : List Replied) : Prop where
  posts : (S.peer .client).PostsClient
  reaches : Reaches Packet.messageId log (S.peer .client).registry
  sent : (S.peer .client).view.sent.map idOf
    = log.filterMap Entry.requested
  returned : total ReadCall.returned (callsOf .client calls)
    = total accepts log
  asked : AskedFor Packet.messageId log
  texts : ∀ k packet, .accepted k packet ∈ log → AnswerText packet

variable {publicKey : Key} {S T : System} {log : List Replied}
  {called : List (Role × ReadCall)}

theorem start_asking (keys : Role → KeysWrapper) (now : Int64) :
    Asking (start keys now) [] [] where
  posts _ hw := absurd hw List.not_mem_nil
  reaches := .start
  sent := rfl
  returned := rfl
  asked := askedFor_nil
  texts _ _ h := absurd h List.not_mem_nil

/-- What has been accepted has been asked for. -/
theorem Exchanged.requested (hS : Exchanged sodium publicKey S called)
    (hreturned : total ReadCall.returned (callsOf .client called)
      = total accepts log) {k : Nat} {packet : Packet}
    (h : .accepted k packet ∈ log) :
    packet.request ∈ (S.peer .client).view.sent.map requestOf := by
  have hmem : packet.request ∈ total accepts log :=
    Multiset.mem_of_le (le_total h) (Multiset.mem_singleton_self _)
  rw [← hreturned] at hmem
  exact Multiset.mem_of_le hS.requested_le hmem

/-- A packet that the client accepts next has been asked for, and has the
server's text if it is a test answer. -/
theorem Asking.accepted {e : Event} (hS : S.Asking called log)
    (hexchanged : Exchanged sodium publicKey S called)
    (h : Peer.Step sodium (S.peer .client) e (T.peer .client))
    (hT : Exchanged sodium publicKey T (called ++ S.calls (.client, e)))
    {k : Nat} {packet : Packet}
    (hentry : .accepted k packet ∈ (S.peer .client).replyEntries e) :
    (∃ cb, .request packet.messageId cb ∈ log) ∧ AnswerText packet := by
  obtain ⟨hp, hrole⟩ := hexchanged.sound .client
  have hsent := replyEntries_sent hp hrole hS.posts h
  have hreturned : total ReadCall.returned
      (callsOf .client (called ++ S.calls (.client, e)))
      = total accepts (log ++ (S.peer .client).replyEntries e) := by
    rw [callsOf_self, total_append, total_append, hS.returned,
      replyEntries_returned hp hrole hS.posts h]
  have hrequest := hT.requested hreturned
    (List.mem_append_right log hentry)
  rcases replyEntries_step hp hrole hS.posts h with
    ⟨now, drawn, flags, payload, cb, rest, -, -, hentries⟩
    | ⟨k', now, buffer, packet', rfl, hτ, hread, hentries⟩ | ⟨-, hcalled, -⟩
  · rw [hentries] at hentry
    cases List.mem_singleton.mp hentry
  · rw [hentries] at hentry hsent
    cases List.mem_singleton.mp hentry
    constructor
    · obtain ⟨chunk, hchunk, hrequested⟩ := List.mem_map.mp hrequest
      have hid : packet.messageId ∈ (T.peer .client).view.sent.map idOf :=
        List.mem_map.mpr ⟨chunk, hchunk, congrArg Prod.snd hrequested⟩
      rw [hsent, hS.sent] at hid
      rw [← mem_requested]
      exact (List.append_nil (log.filterMap _)) ▸ hid
    · obtain ⟨chunk, hchunk, rfl⟩ :=
        (hexchanged.received .client).arrived k _ buffer hτ rfl
      exact (hexchanged.accounts.sent chunk
        (List.mem_of_getElem? hchunk)).answerText
          (S.peer .client).session.keys.sharedKey.property hread
  · obtain ⟨k', packet', cb, hc⟩ := hcalled _ hentry
    cases hc

/-- Every step of a connection with one packet per read. -/
theorem Asking.step {a : Role × Event} (hS : S.Asking called log)
    (hexchanged : Exchanged sodium publicKey S called)
    (h : Step sodium S a T) (hintact : S.Intact a) (hleft : ServerLeft a) :
    T.Asking (called ++ S.calls a) (log ++ S.replies a) := by
  obtain ⟨r, e⟩ := a
  have hT := hexchanged.step h hintact hleft
  obtain ⟨hstep, hother⟩ := h.peers
  cases r with
  | server =>
      have hclient : T.peer .client = S.peer .client := hother
      obtain ⟨hposts, hreaches, hsent, hreturned, hasked, htexts⟩ := hS
      rw [show S.replies (.server, e) = [] from rfl, List.append_nil]
      refine ⟨?_, ?_, ?_, ?_, hasked, htexts⟩
      · rw [hclient]
        exact hposts
      · rw [hclient]
        exact hreaches
      · rw [hclient]
        exact hsent
      · rw [← hreturned]
        exact congrArg _ (callsOf_other S called .server e)
  | client =>
      obtain ⟨hp, hrole⟩ := hexchanged.sound .client
      have hnew : ∀ k packet,
          .accepted k packet ∈ (S.peer .client).replyEntries e →
          (∃ cb, .request packet.messageId cb ∈ log) ∧ AnswerText packet :=
        fun _ _ hentry => hS.accepted hexchanged hstep hT hentry
      obtain ⟨hposts, hreaches, hsent, hreturned, hasked, htexts⟩ := hS
      refine ⟨hposts.step hp hrole hstep,
        .step hreaches (replyStep hp hrole hposts hstep), ?_, ?_,
        hasked.append fun k packet hentry => (hnew k packet hentry).1, ?_⟩
      · rw [replyEntries_sent hp hrole hposts hstep, hsent,
          ← List.filterMap_append]
        rfl
      · rw [callsOf_self, total_append, total_append, hreturned,
          replyEntries_returned hp hrole hposts hstep]
        rfl
      · intro k packet hmem
        rcases List.mem_append.mp hmem with hold | hentry
        · exact htexts k packet hold
        · exact (hnew k packet hentry).2

/-- Where nothing is under way no task holds a callback. -/
theorem Settled.untaken (hS : S.Settled) (k : Nat) :
    (S.peer .client).registry.taken k = none := by
  show takenBy (S.peer .client).tasks k = none
  unfold takenBy
  cases hτ : (S.peer .client).tasks[k]? with
  | none => rfl
  | some τ =>
      rw [hS.tasks .client τ (List.mem_of_getElem? hτ)]
      rfl

/-- What every run keeps, and what follows when nothing is under way. -/
theorem asking_of_run {keys : Role → KeysWrapper} {now : Int64}
    {es : List (Role × Event)}
    (h : Run (Logged (Exchange sodium) replies) (start keys now, []) es
      (T, log)) :
    ∃ called, Exchanged sodium ((keys .server).getPublicKey sodium) T called
      ∧ (∀ r, PlainReturned (T.peer r.other).view.sent (T.peer r).view.tasks
        (callsOf r called))
      ∧ T.Asking called log := by
  obtain ⟨called, hrun⟩ := h.exists_log (fun s a => s.1.calls a) []
  refine ⟨called, ?_⟩
  refine Run.invariant
    (I := fun s : (System × List Replied) × List (Role × ReadCall) =>
      Exchanged sodium ((keys .server).getPublicKey sodium) s.1.1 s.2
        ∧ (∀ r, PlainReturned (s.1.1.peer r.other).view.sent
          (s.1.1.peer r).view.tasks (callsOf r s.2))
        ∧ s.1.1.Asking s.2 s.1.2) ?_ hrun
    ⟨start_exchanged sodium keys now, fun _ => rfl, start_asking keys now⟩
  rintro s a t ⟨hs, hplain, hasking⟩
    ⟨⟨⟨hstep, hintact, hleft, hinTime⟩, hlog⟩, hcalls⟩
  rw [hlog, hcalls]
  exact ⟨hs.step hstep hintact hleft,
    hs.plain_step hplain hstep hintact hinTime,
    hasking.step hs hstep hintact hleft⟩

/-- On a connection that delivers one packet per read, to a server that is
left to its callback, with tasks that begin within the time limit: when
nothing is under way any more, the callback given with a test message whose
id was drawn once has left `task_queue_` and was called, with the server's
answer to this message; and there was no other call for the id. -/
theorem testMessages_called (sodium : Sodium) (keys : Role → KeysWrapper)
    (now : Int64) {es : List (Role × Event)} {T : System}
    {log : List Replied}
    (h : Run (Logged (Exchange sodium) replies) (start keys now, []) es
      (T, log)) (hsettled : T.Settled) {i : Nat} {messageId : UInt64}
    {cb : WriteCallback} (honly : Only log i messageId cb)
    (htest : (Flags.testMessage, messageId)
      ∈ (T.peer .client).view.sent.map requestOf) :
    (T.peer .client).session.taskQueue messageId = none
      ∧ ∃ (j k : Nat) (packet : Packet), log[j]? = some (.called k packet cb)
        ∧ packet.request = (Flags.testMessage, messageId)
        ∧ (∃ n, packet.payload = SessionServer.answerText n)
        ∧ ∀ (j' k' : Nat) packet' cb',
          log[j']? = some (.called k' packet' cb') →
            packet'.messageId = messageId → j' = j := by
  obtain ⟨called, hexchanged, hplain, hS⟩ := asking_of_run h
  -- the answer was accepted
  obtain ⟨k₀, packet₀, haccepted, hrequest₀⟩ : ∃ k packet,
      .accepted k packet ∈ log
        ∧ packet.request = (Flags.testMessage, messageId) := by
    have hmem : (Flags.testMessage, messageId) ∈
        ((T.peer .client).view.sent.map requestOf
          : Multiset Request).filter IsTest :=
      Multiset.mem_filter.mpr ⟨Multiset.mem_coe.mpr htest, rfl⟩
    rw [← hsettled.tests hexchanged hplain, hS.returned] at hmem
    obtain ⟨c, hc, hmem⟩ := mem_total.mp (Multiset.mem_of_mem_filter hmem)
    cases c with
    | accepted k packet =>
        exact ⟨k, packet, hc, (Multiset.mem_singleton.mp hmem).symm⟩
    | request k cb => exact absurd hmem (Multiset.notMem_zero _)
    | called k packet cb => exact absurd hmem (Multiset.notMem_zero _)
  obtain ⟨hqueue, j, k, packet, hcall, hid, hacc, hunique⟩ :=
    hS.reaches.called hS.asked honly hsettled.untaken haccepted
      (congrArg Prod.snd hrequest₀)
  -- and it answers the one request with this id
  have hrequest : packet.request = (Flags.testMessage, messageId) := by
    obtain ⟨w, hw, hwrequest⟩ :=
      List.mem_map.mp (hexchanged.requested hS.returned hacc)
    obtain ⟨w', hw', hwtest⟩ := List.mem_map.mp htest
    have hsame := honly.unique hS.sent hw hw'
      ((congrArg Prod.snd hwrequest).trans hid) (congrArg Prod.snd hwtest)
    rw [← hwrequest, hsame, hwtest]
  exact ⟨hqueue, j, k, packet, hcall, hrequest,
    hS.texts k packet hacc (congrArg Prod.fst hrequest), hunique⟩

theorem Silent.replies {a : Role × Event} (h : Silent a) (S : System) :
    S.replies a = [] := by
  obtain ⟨r, e⟩ := a
  cases r with
  | server => rfl
  | client =>
      rcases h with hrole | ⟨chunk, now, rfl⟩
      · cases hrole
      · rfl

/-- The task of the answer takes the callback out and calls it. -/
theorem Delivered.callback {cb : WriteCallback} {buffer : Bytes}
    {packet : Packet} (hS : S.Delivered (some cb) buffer packet)
    (hcb : ∀ keys, ∃ keys', cb packet keys = .ok keys') (log : List Replied) :
    ∃ T, Run (Logged (Exchange sodium) replies) (S, log)
        [(.client, .task 0 0), (.client, .task 0 0)]
        (T, log ++ [.accepted 0 packet] ++ [.called 0 packet cb])
      ∧ T.Settled
      ∧ (T.peer .client).view.sent = (S.peer .client).view.sent := by
  have hclaimed : (S.peer .client).session.taskQueue packet.header.messageId
      = some cb := by
    rw [hS.queue, show packet.header.messageId = 4 from
      congrArg Prod.snd hS.request]
    rfl
  have htasks : (S.peer .client).tasks = [] ++ [.clientRead buffer] := hS.tasks
  have hrun₁ : (Task.clientRead buffer).run sodium 0
      (S.peer .client).session = _ := SessionClient.taskRead_eq hS.reads
  rw [SessionClient.afterRead_claimed hclaimed] at hrun₁
  obtain ⟨T₁, hT₁, hpeer₁, hother₁, -⟩ := local_step
    (fun _ _ he => by cases he) (newest_task htasks hrun₁)
  have htasks₁ : (T₁.peer .client).tasks
      = [] ++ [.clientCallback cb packet] := by
    rw [hpeer₁]
  obtain ⟨keys, hkeys⟩ := hcb (T₁.peer .client).session.keys
  have hrun₂ : (Task.clientCallback cb packet).run sodium 0
      (T₁.peer .client).session
      = .ok { session := { (T₁.peer .client).session with keys } } := by
    show SessionClient.taskCallback _ cb packet = _
    unfold SessionClient.taskCallback
    rw [hkeys]
    rfl
  obtain ⟨T₂, hT₂, hpeer₂, hother₂, -⟩ := local_step
    (fun _ _ he => by cases he) (newest_task htasks₁ hrun₂)
  have hinTime : T₁.TasksInTime (.client, .task 0 0) :=
    InTime.task (hS.sound .client).1 hT₁.peers.1 hS.inTime
  have hentry₁ : S.replies (.client, .task 0 0) = [.accepted 0 packet] :=
    replyEntries_accepted (by rw [hS.tasks]; rfl) hS.reads
  have hentry₂ : T₁.replies (.client, .task 0 0) = [.called 0 packet cb] :=
    replyEntries_called (by rw [htasks₁]; rfl)
  have hsent : (T₂.peer .client).view.sent = (S.peer .client).view.sent := by
    rw [hpeer₂]
    show (T₁.peer .client).view.sent = _
    rw [hpeer₁]
    rfl
  exact ⟨T₂, .logged_cons ⟨hT₁, trivial, trivial, hS.inTime⟩ hentry₁
    (.logged_cons ⟨hT₂, trivial, trivial, hinTime⟩ hentry₂ (.nil _)),
    hS.settled (by rw [hpeer₂]; rfl) hsent (hother₂.trans hother₁), hsent⟩

/-- One test message with a callback, its answer, and the call. -/
theorem exchange_called (sodium : Sodium) (keys : Role → KeysWrapper)
    (cb : WriteCallback)
    (hcb : ∀ packet keys, ∃ keys', cb packet keys = .ok keys') :
    ∃ es T packet, Run (Logged (Exchange sodium) replies) (start keys 0, []) es
        (T, [.request 4 (some cb), .accepted 0 packet, .called 0 packet cb])
      ∧ T.Settled
      ∧ (T.peer .client).view.sent.map requestOf
        = [(Flags.testMessage, 4)] := by
  obtain ⟨T₁, T₂, S₁, n, h₁, h₂, h₃, hposted₁, hsound₁, hserver₁, hreceived₁,
    hview₁, hstream₁⟩ := exchange_ask sodium keys (some cb)
  obtain ⟨es₂, S₂, hrun₂, hsilent₂, hsound₂, hclient₂, hreceived₂, htasks₂,
    hsession₂, hposted₂⟩ := exchange_serve sodium hsound₁ hserver₁ hreceived₁
      (by rw [hview₁]) hstream₁ rfl
  obtain ⟨es₃, S₃, buffer, packet, hrun₃, hsilent₃, hS₃⟩ :=
    exchange_deliver sodium hsound₂ (by rw [hclient₂]; exact hview₁) hreceived₂
      htasks₂ hsession₂ hposted₂
  obtain ⟨T, hrun₄, hsettled, hsent⟩ := hS₃.callback (hcb packet)
    [.request 4 (some cb)]
  have hrequest : T₁.replies (.client, .handler 0 4) = [.request 4 (some cb)] :=
    replyEntries_request hposted₁ (Nat.zero_le _)
  refine ⟨_, T, packet, .logged_cons h₁ rfl (.logged_cons h₂ hrequest
    (.logged_cons h₃ rfl ((hrun₂.logged_quiet
      (fun S a ha => (hsilent₂ a ha).replies S) _).append
        ((hrun₃.logged_quiet
          (fun S a ha => (hsilent₃ a ha).replies S) _).append hrun₄)))),
    hsettled, ?_⟩
  rw [hsent]
  exact hS₃.sent

/-- The callback of that test message was called once. -/
theorem testMessages_called_one :
    ∃ (T : System) (cb : WriteCallback) (log : List Replied),
      (T.peer .client).session.taskQueue 4 = none
        ∧ ∃ (j k : Nat) (packet : Packet),
          log[j]? = some (.called k packet cb)
            ∧ packet.request = (Flags.testMessage, 4)
            ∧ (∃ n, packet.payload = SessionServer.answerText n)
            ∧ ∀ (j' k' : Nat) packet' cb',
              log[j']? = some (.called k' packet' cb') →
                packet'.messageId = 4 → j' = j := by
  obtain ⟨es, T, packet, hrun, hsettled, hsent⟩ :=
    exchange_called ⟨id, fun _ _ => none, id⟩ (fun _ => ⟨Key.zero, Key.zero⟩)
      (fun _ keys => .ok keys) fun _ keys => ⟨keys, rfl⟩
  refine ⟨T, _, _, testMessages_called (i := 0) _ _ 0 hrun hsettled
    ⟨rfl, fun i cb' hi => ?_⟩ (by rw [hsent]; exact List.mem_singleton_self _)⟩
  rcases i with _ | _ | _ | i
  · rfl
  · cases hi
  · cases hi
  · cases hi

end System

end Remc.Net
