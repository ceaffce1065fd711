/-
Two schedules of the handshake, for any two keys.

In the first the closure with the server's answer runs before
`DefaultReadCallback` computes the key, and the handshake goes to its end
(`handshake_finishes`). In the second the key is computed first, and the
answer reaches the client under a key it does not hold (`late_answer`).
-/
import Remc.Net.Handshake.Stages

namespace Remc.Net.System

open Crypto Runs

variable {sodium : Sodium} {a b : Key} {m n : Nat} {S T : System} {now : Int64}

-- ================================================================= whole packets

/-- The streams have taken every packet whole. -/
def Whole (S : System) : Prop :=
  ∀ r, (S.peer r).session.outbox.stream
    = (S.peer r).session.outbox.sent.flatten

/-- A step of one side matters to that side's stream only. -/
theorem Whole.step {r : Role} (hS : S.Whole)
    (hother : T.peer r.other = S.peer r.other)
    (hr : (T.peer r).session.outbox.stream
      = (T.peer r).session.outbox.sent.flatten) : T.Whole := by
  intro r'
  rcases Role.eq_or_other r r' with rfl | rfl
  · exact hr
  · rw [hother]
    exact hS r.other

/-- A packet that the stream takes at once is taken whole. -/
theorem Whole.send {r : Role} {packet : Bytes} {v : Peer.View} (hS : S.Whole)
    (hother : T.peer r.other = S.peer r.other)
    (hstream : (T.peer r).session.outbox.stream
      = (S.peer r).session.outbox.stream ++ packet)
    (hview : (T.peer r).view = v)
    (hsent : v.sent = (S.peer r).view.sent ++ [packet]) : T.Whole := by
  refine hS.step hother ?_
  have hsent' : (T.peer r).session.outbox.sent
      = (S.peer r).session.outbox.sent ++ [packet] :=
    (congrArg Peer.View.sent hview).trans hsent
  rw [hstream, hsent', hS r, List.flatten_append, List.flatten_singleton]

/-- What leaves its side's outbox alone leaves the streams whole. -/
theorem Whole.frame {r : Role} (hS : S.Whole)
    (hother : T.peer r.other = S.peer r.other)
    (houtbox : (T.peer r).session.outbox = (S.peer r).session.outbox) :
    T.Whole := by
  refine hS.step hother ?_
  rw [houtbox]
  exact hS r

/-- A side that has read nothing reads the only packet of the other. -/
theorem Whole.receive (hS : S.Whole) (sodium : Sodium) {r : Role}
    {packet : Bytes} (hsent : (S.peer r.other).view.sent = [packet])
    (hfits : Outbox.Fits packet) (hreads : (S.peer r).reads = 0)
    (hreceived : S.received r = 0) (now : Int64) :
    ∃ T, Step sodium S (r, .read packet now) T
      ∧ S.Intact (r, .read packet now) ∧ T.Whole
      ∧ T.peer r = (S.peer r).completeRead now packet
      ∧ T.peer r.other = S.peer r.other
      ∧ T.received r.other = S.received r.other := by
  have hstream : (S.peer r.other).session.outbox.stream
      = [] ++ (packet ++ []) := by
    rw [hS r.other]
    exact congrArg List.flatten hsent
  obtain ⟨T, h, hpeer, hother, -, hreceived'⟩ :=
    receive_step sodium hstream hreceived hfits.1 hfits.2 now
  refine ⟨T, h, ?_, hS.frame hother (by rw [hpeer]; rfl), hpeer, hother,
    hreceived'⟩
  show (S.peer r.other).view.sent[(S.peer r).reads]? = _
  rw [hsent, hreads]
  rfl

/-- A run of the handshake in which the answer goes first and the clock
stands still has brought the client to stage `m` and the server to
stage `n`, and nothing is on its way in parts. -/
structure Reached (sodium : Sodium) (a b : Key) (now : Int64) (m n : Nat)
    (S : System) : Prop where
  run : ∃ es, Run (When (Step sodium) fun S x => S.Undisturbed x ∧ S.AnswerFirst x)
    (handshakeStart sodium a b now) es S
  sound : S.Sound
  client : ClientAt sodium a b now now 0 m (S.peer .client)
  server : ServerAt sodium a b now now 0 n (S.peer .server)
  whole : S.Whole
  received : (m < 2 → S.received .client = 0)
    ∧ (n < 1 → S.received .server = 0)

theorem handshakeStart_reached (sodium : Sodium) (a b : Key) (now : Int64) :
    Reached sodium a b now 0 0 (handshakeStart sodium a b now) where
  run := ⟨[], .nil _⟩
  sound := handshakeStart_sound sodium a b now
  client := handshakeStart_client sodium a b now
  server := .idle rfl
  whole r := by cases r <;> rfl
  received := ⟨fun _ => rfl, fun _ => rfl⟩

/-- The client sends its request. -/
theorem Reached.send_request (hS : Reached sodium a b now 0 0 S) :
    ∃ T, Reached sodium a b now 1 0 T := by
  obtain ⟨es, hrun⟩ := hS.run
  obtain ⟨w, hposted⟩ : ∃ w, (S.peer .client).posted = [w] := by
    cases hS.client with
    | calling hview => exact ⟨_, (Peer.view_fields hview).1⟩
  obtain ⟨T₁, T₂, h₁, h₂, hview₁, hview₂, hstream, -, hother, hreceived⟩ :=
    send_steps sodium hS.sound hposted now 0
  have hserver : T₂.peer .server = S.peer .server := hother
  have hclient := (hS.client.handler (hS.sound .client).1 h₁.peers.1).2
  refine ⟨T₂, ⟨_, (hrun.snoc ⟨h₁, trivial, trivial⟩).snoc
    ⟨h₂, trivial, trivial⟩⟩, (hS.sound.step h₁).step h₂,
    hclient.of_view hview₂, hserver ▸ hS.server,
    hS.whole.send hother hstream (hview₂.trans hview₁) rfl, ?_⟩
  rw [hreceived]
  exact ⟨fun _ => hS.received.1 (by decide),
    fun _ => hS.received.2 (by decide)⟩

/-- The server sends its answer. -/
theorem Reached.send_answer (hS : Reached sodium a b now 1 3 S) :
    ∃ T, Reached sodium a b now 1 4 T := by
  obtain ⟨es, hrun⟩ := hS.run
  obtain ⟨w, hposted⟩ : ∃ w, (S.peer .server).posted = [w] := by
    cases hS.server with
    | answered hview => exact ⟨_, (Peer.view_fields hview).1⟩
  obtain ⟨T₁, T₂, h₁, h₂, hview₁, hview₂, hstream, -, hother, hreceived⟩ :=
    send_steps sodium hS.sound hposted now 0
  have hclient : T₂.peer .client = S.peer .client := hother
  have hserver := (hS.server.handler (hS.sound .server).1 h₁.peers.1).2
  refine ⟨T₂, ⟨_, (hrun.snoc ⟨h₁, trivial, trivial⟩).snoc
    ⟨h₂, trivial, trivial⟩⟩, (hS.sound.step h₁).step h₂,
    hclient ▸ hS.client, hserver.of_view hview₂,
    hS.whole.send hother hstream (hview₂.trans hview₁) rfl, ?_⟩
  rw [hreceived]
  exact ⟨fun _ => hS.received.1 (by decide),
    fun hn => absurd hn (by decide)⟩

/-- The server reads the request. -/
theorem Reached.read_request (hS : Reached sodium a b now 1 0 S) :
    ∃ T, Reached sodium a b now 1 1 T := by
  obtain ⟨es, hrun⟩ := hS.run
  obtain ⟨T, h, hintact, hwhole, -, hother, hreceived⟩ :=
    hS.whole.receive sodium (r := .server) hS.client.sent
      (created_fits (key_size _) _ _ _ _ _) hS.server.reads
      (hS.received.2 (by decide)) now
  have hclient : T.peer .client = S.peer .client := hother
  exact ⟨T, ⟨_, hrun.snoc ⟨h, hintact, trivial⟩⟩, hS.sound.step h,
    hclient ▸ hS.client, hS.server.read (hS.sound .server).2 h.peers.1 rfl,
    hwhole, fun hm => hreceived.trans (hS.received.1 hm),
    fun hn => absurd hn (by decide)⟩

/-- The client reads the answer. -/
theorem Reached.read_answer (hS : Reached sodium a b now 1 n S) (hn : 4 ≤ n) :
    ∃ T, Reached sodium a b now 2 n T := by
  obtain ⟨es, hrun⟩ := hS.run
  have hsent := hS.server.sent
  rw [if_pos hn] at hsent
  obtain ⟨T, h, hintact, hwhole, -, hother, -⟩ :=
    hS.whole.receive sodium (r := .client) hsent
      (created_fits (key_size _) _ _ _ _ _) hS.client.reads
      (hS.received.1 (by decide)) now
  have hserver : T.peer .server = S.peer .server := hother
  exact ⟨T, ⟨_, hrun.snoc ⟨h, hintact, trivial⟩⟩, hS.sound.step h,
    hS.client.read (hS.sound .client).2 h.peers.1 rfl, hserver ▸ hS.server,
    hwhole, fun hm => absurd hm (by decide), fun hn' => by omega⟩

/-- The client's task goes on. -/
theorem Reached.client_task (hsodium : sodium.Agrees)
    (hS : Reached sodium a b now m n S) (hm : 2 ≤ m) :
    ∃ T, Reached sodium a b now (min (m + 1) 4) n T := by
  obtain ⟨es, hrun⟩ := hS.run
  have hfresh : S.Undisturbed (.client, .task 0 now) := hS.client.inTime 0
  obtain ⟨q, hq⟩ :=
    hS.client.task_enabled hsodium (hS.sound .client).1 hm hfresh
  obtain ⟨T, h, hpeer, hother, hreceived⟩ :=
    local_step (fun _ _ he => by cases he) hq
  have hserver : T.peer .server = S.peer .server := hother
  refine ⟨T, ⟨_, hrun.snoc ⟨h, hfresh, trivial⟩⟩, hS.sound.step h,
    (hS.client.task hsodium (hS.sound .client).1 h.peers.1 hfresh).2,
    hserver ▸ hS.server,
    hS.whole.frame hother (Peer.task_outbox h.peers.1), ?_⟩
  rw [hreceived]
  exact ⟨fun hm' => by omega, hS.received.2⟩

/-- `DefaultReadCallback` goes on. -/
theorem Reached.server_task (hsodium : sodium.Agrees)
    (hS : Reached sodium a b now m n S) (hn : 1 ≤ n) (hsent : n ≠ 3) :
    ∃ T, Reached sodium a b now m (min (n + 1) 5) T := by
  obtain ⟨es, hrun⟩ := hS.run
  have hfresh : S.Undisturbed (.server, .task 0 now) := hS.server.inTime 0
  have hfirst : S.AnswerFirst (.server, .task 0 now) :=
    hS.server.answerFirst hsent 0
  obtain ⟨q, hq⟩ :=
    hS.server.task_enabled hsodium (hS.sound .server).1 hn hsent hfresh
  obtain ⟨T, h, hpeer, hother, hreceived⟩ :=
    local_step (fun _ _ he => by cases he) hq
  have hclient : T.peer .client = S.peer .client := hother
  refine ⟨T, ⟨_, hrun.snoc ⟨h, hfresh, hfirst⟩⟩, hS.sound.step h,
    hclient ▸ hS.client,
    (hS.server.task hsodium (hS.sound .server).1 h.peers.1 hfresh hfirst).2,
    hS.whole.frame hother (Peer.task_outbox h.peers.1), ?_⟩
  rw [hreceived]
  exact ⟨hS.received.1, fun hn' => by omega⟩

/-- The request reaches the server, which posts its answer. -/
theorem request_reached (hsodium : sodium.Agrees) (a b : Key) (now : Int64) :
    ∃ T, Reached sodium a b now 1 3 T := by
  obtain ⟨T₁, h₁⟩ := (handshakeStart_reached sodium a b now).send_request
  obtain ⟨T₂, h₂⟩ := h₁.read_request
  obtain ⟨T₃, h₃⟩ := h₂.server_task hsodium (by decide) (by decide)
  exact h₃.server_task hsodium (by decide) (by decide)

/-- The handshake can always be brought to its end. -/
theorem handshake_finishes (hsodium : sodium.Agrees) (a b : Key)
    (now : Int64) :
    ∃ es T, Run (When (Step sodium) fun S x => S.Undisturbed x ∧ S.AnswerFirst x)
        (handshakeStart sodium a b now) es T ∧ T.Finished := by
  obtain ⟨T₁, h₁⟩ := request_reached hsodium a b now
  obtain ⟨T₂, h₂⟩ := h₁.send_answer
  obtain ⟨T₃, h₃⟩ := h₂.server_task hsodium (by decide) (by decide)
  obtain ⟨T₄, h₄⟩ := h₃.read_answer (by decide)
  obtain ⟨T₅, h₅⟩ := h₄.client_task hsodium (by decide)
  obtain ⟨T, h⟩ := h₅.client_task hsodium (by decide)
  obtain ⟨es, hrun⟩ := h.run
  refine ⟨es, T, hrun, ?_⟩
  have hclient : ClientAt sodium a b now now 0 4 (T.peer .client) := h.client
  have hserver : ServerAt sodium a b now now 0 5 (T.peer .server) := h.server
  have hdone : ∀ τ ∈ [Task.done], τ = .done :=
    fun τ hτ => List.mem_singleton.mp hτ
  intro r
  cases r with
  | client =>
      refine ⟨?_, ?_, hclient.reads.trans (congrArg List.length hserver.sent).symm⟩
      · cases hclient with
        | agreed _ hview => exact (Peer.view_fields hview).1
      · cases hclient with
        | agreed _ hview => exact (Peer.view_fields hview).2.1 ▸ hdone
  | server =>
      refine ⟨?_, ?_, hserver.reads.trans (congrArg List.length hclient.sent).symm⟩
      · cases hserver with
        | agreed hview => exact (Peer.view_fields hview).1
      · cases hserver with
        | agreed hview => exact (Peer.view_fields hview).2.1 ▸ hdone

-- ============================================================ the key first

/-- The server computes the key before the closure with its answer
runs. -/
theorem Reached.key_first (hsodium : sodium.Agrees)
    (hS : Reached sodium a b now 1 3 S) :
    ∃ T, Step sodium S (.server, .task 0 now) T
      ∧ (T.peer .server).view = { (S.peer .server).view with
        tasks := [.done]
        keys :=
          { privateKey := b, sharedKey := KeysWrapper.agreedKey sodium a b } }
      ∧ T.Whole ∧ T.peer .client = S.peer .client ∧ T.received = S.received := by
  obtain ⟨hposted, htasks, hkeys, -⟩ : _ ∧ _ ∧ _ ∧ _ := by
    cases hS.server with
    | answered hview => exact Peer.view_fields hview
  have hτ : (S.peer .server).tasks[0]?
      = some (.serverKey (sodium.scalarmultBase a).val) := by
    rw [htasks]
    rfl
  obtain ⟨T, h, hpeer, hother, hreceived⟩ :=
    local_step (fun _ _ he => by cases he)
      (.task hτ (callbackKey_request hsodium hkeys a))
  refine ⟨T, h, ?_, hS.whole.frame hother (Peer.task_outbox h.peers.1), hother,
    hreceived⟩
  rw [hpeer]
  unfold Peer.view
  rw [htasks, List.append_nil]
  rfl

/-- Then the answer comes to the client under the new key. -/
theorem late_answer (hsodium : sodium.Agrees) (a b : Key) (now : Int64) :
    ∃ es T, Run (When (Step sodium) Undisturbed)
        (handshakeStart sodium a b now) es T
      ∧ T.Sound ∧ (T.peer .client).session.keys.sharedKey = Key.zero
      ∧ (T.peer .client).tasks = [.clientRead (readBuffer
        ((answer sodium b now 0).wire
          (KeysWrapper.agreedKey sodium a b).val))] := by
  obtain ⟨S, hS⟩ := request_reached hsodium a b now
  obtain ⟨es, hguarded⟩ := hS.run
  have hrun : Run (When (Step sodium) Undisturbed)
      (handshakeStart sodium a b now) es S :=
    hguarded.mono fun _ _ _ h => ⟨h.1, h.2.1⟩
  obtain ⟨T, h, hview, hwhole, hclient, hreceived⟩ := hS.key_first hsodium
  obtain ⟨hposted, htasks, hkeys, -⟩ := Peer.view_fields hview
  have hwaits : (S.peer .server).posted
      = [.server Flags.handshake 0 (sodium.scalarmultBase b).val] := by
    cases hS.server with
    | answered hview => exact (Peer.view_fields hview).1
  obtain ⟨T₁, T₂, h₁, h₂, hview₁, hview₂, hstream, -, hother, hreceived₂⟩ :=
    send_steps sodium (hS.sound.step h) (hposted.trans hwaits) now 0
  have hcounter : (T.peer .server).session.messageCounter = 1 := by
    rw [(hS.sound.step h .server).1.counter, Peer.reads, htasks]
    rfl
  -- the closure reads the key that is there when it runs
  have hpacket : PostedWrite.packet now 0 (T.peer .server).session
      (.server Flags.handshake 0 (sodium.scalarmultBase b).val)
      = (answer sodium b now 0).wire (KeysWrapper.agreedKey sodium a b).val := by
    rw [PostedWrite.packet, hcounter, hkeys]
    rfl
  rw [hpacket] at h₂ hview₁ hstream
  have hsent : (T.peer .server).view.sent = [] := by
    rw [hview]
    exact hS.server.sent
  have hsent₂ : (T₂.peer .server).view.sent
      = [(answer sodium b now 0).wire (KeysWrapper.agreedKey sodium a b).val] := by
    rw [hview₂, hview₁]
    show (T.peer .server).view.sent ++ _ = _
    rw [hsent, List.nil_append]
  have hclient₂ : T₂.peer .client = S.peer .client := hother.trans hclient
  have hreads₂ : (T₂.peer .client).reads = 0 := by
    rw [hclient₂]
    exact hS.client.reads
  have hreceived₀ : T₂.received .client = 0 := by
    rw [hreceived₂, hreceived]
    exact hS.received.1 (by decide)
  have hwhole₂ : T₂.Whole :=
    hwhole.send hother hstream (hview₂.trans hview₁) rfl
  obtain ⟨U, h₃, hintact, -, hpeer, -, -⟩ :=
    hwhole₂.receive sodium (r := .client) hsent₂
      (created_fits (key_size _) _ _ _ _ _) hreads₂ hreceived₀ now
  have hfresh : S.Undisturbed (.server, .task 0 now) := hS.server.inTime 0
  refine ⟨_, U, (((hrun.snoc ⟨h, hfresh⟩).snoc ⟨h₁, trivial⟩).snoc
    ⟨h₂, trivial⟩).snoc ⟨h₃, hintact⟩,
    (((hS.sound.step h).step h₁).step h₂).step h₃, ?_, ?_⟩
  · rw [hpeer, hclient₂]
    show (S.peer .client).session.keys.sharedKey = _
    cases hS.client with
    | waiting hview => rw [(Peer.view_fields hview).2.2.1]
  · rw [hpeer, hclient₂]
    show (S.peer .client).tasks ++ [(S.peer .client).role.task _] = _
    cases hS.client with
    | waiting hview =>
        rw [(Peer.view_fields hview).2.1, (hS.sound .client).2]
        rfl

end Remc.Net.System
