/-
The handshake, from the side of each party.

The client sends its public key and waits; `DefaultReadCallback` answers
with the server's and computes the shared key. `ClientAt` and `ServerAt`
are the stages of the two sides; each kind of step has one lemma a side
that says which stage it leads to.
-/
import Remc.Net.Framing
import Remc.Net.System

namespace Remc.Net

open Crypto Runs

variable {sodium : Sodium} {a b : Key}

-- ============================================================ the messages

/-- The client's `Handshake`, as a `CreatePacket` call: its public key
under nonce 0. -/
def request (sodium : Sodium) (a : Key) (time : Int64) (messageId : UInt64) :
    Sending where
  time := time
  payload := (sodium.scalarmultBase a).val
  version := 1
  flags := Flags.handshake
  nonce := 0
  messageId := messageId

/-- The server's answer: its public key under nonce 1. -/
def answer (sodium : Sodium) (b : Key) (time : Int64) (messageId : UInt64) :
    Sending where
  time := time
  payload := (sodium.scalarmultBase b).val
  version := 1
  flags := Flags.handshake
  nonce := 1
  messageId := messageId

namespace System

/-- Two fresh sessions, and the client's call of `Write`. -/
def handshakeStart (sodium : Sodium) (a b : Key) (now : Int64) : System where
  peer
    | .client =>
        { Peer.start .client { privateKey := a } now with
          posted := (SessionClient.write Flags.handshake
            (KeysWrapper.getPublicKey sodium { privateKey := a }).val
            (some (handshakeCallback sodium))).2 }
    | .server => .start .server { privateKey := b } now

/-- Nothing else is written, every read returns one packet, and a packet
is read within the time limit. -/
def Undisturbed (S : System) : Role × Event → Prop
  | (_, .write _) => False
  | (r, .task k now) => (S.peer r).InTime k now
  | (r, .read chunk now) => S.Intact (r, .read chunk now)
  | _ => True

/-- The closure with the server's answer runs before the callback that
posted it computes the shared key. -/
def AnswerFirst (S : System) : Role × Event → Prop
  | (.server, .task k _) => ∀ payload,
      (S.peer .server).tasks[k]? = some (.serverKey payload) →
        (S.peer .server).posted = []
  | _ => True

/-- Nothing is left to run on either side, and each has read all that the
other sent. -/
def Finished (S : System) : Prop :=
  ∀ r, (S.peer r).posted = [] ∧ (∀ τ ∈ (S.peer r).tasks, τ = .done)
    ∧ (S.peer r).reads = (S.peer r.other).view.sent.length

-- ================================================================ the stages

/-- Where the client stands: about to send, waiting, having read the
answer, having found the callback, and done. -/
inductive ClientAt (sodium : Sodium) (a b : Key) (t t' : Int64) (id : UInt64) :
    Nat → Peer → Prop
  | calling {p : Peer} (hview : p.view =
      { posted := [.client Flags.handshake (sodium.scalarmultBase a).val
          (some (handshakeCallback sodium))]
        tasks := []
        sent := []
        keys := { privateKey := a }
        taskQueue := fun _ => none }) :
      ClientAt sodium a b t t' id 0 p
  | waiting {p : Peer} (hview : p.view =
      { posted := []
        tasks := []
        sent := [(request sodium a t id).wire Key.zero.val]
        keys := { privateKey := a }
        taskQueue := Function.update (fun _ => none) id
          (some (handshakeCallback sodium)) }) :
      ClientAt sodium a b t t' id 1 p
  | reading {p : Peer} (hview : p.view =
      { posted := []
        tasks := [.clientRead
          (readBuffer ((answer sodium b t' id).wire Key.zero.val))]
        sent := [(request sodium a t id).wire Key.zero.val]
        keys := { privateKey := a }
        taskQueue := Function.update (fun _ => none) id
          (some (handshakeCallback sodium)) }) :
      ClientAt sodium a b t t' id 2 p
  | calledBack {p : Peer} (taskQueue : UInt64 → Option WriteCallback)
      (hview : p.view =
      { posted := []
        tasks := [.clientCallback (handshakeCallback sodium)
          (answer sodium b t' id).packet]
        sent := [(request sodium a t id).wire Key.zero.val]
        keys := { privateKey := a }
        taskQueue }) :
      ClientAt sodium a b t t' id 3 p
  | agreed {p : Peer} (taskQueue : UInt64 → Option WriteCallback)
      (hview : p.view =
      { posted := []
        tasks := [.done]
        sent := [(request sodium a t id).wire Key.zero.val]
        keys :=
          { privateKey := a, sharedKey := KeysWrapper.agreedKey sodium a b }
        taskQueue }) :
      ClientAt sodium a b t t' id 4 p

/-- Where the server stands: idle, having read the request, having
decrypted it, having posted the answer, having sent it, and done. -/
inductive ServerAt (sodium : Sodium) (a b : Key) (t t' : Int64) (id : UInt64) :
    Nat → Peer → Prop
  | idle {p : Peer} (hview : p.view =
      { posted := []
        tasks := []
        sent := []
        keys := { privateKey := b }
        taskQueue := fun _ => none }) :
      ServerAt sodium a b t t' id 0 p
  | reading {p : Peer} (hview : p.view =
      { posted := []
        tasks := [.serverRead
          (readBuffer ((request sodium a t id).wire Key.zero.val))]
        sent := []
        keys := { privateKey := b }
        taskQueue := fun _ => none }) :
      ServerAt sodium a b t t' id 1 p
  | answering {p : Peer} (hview : p.view =
      { posted := []
        tasks := [.serverAnswer (request sodium a t id).packet]
        sent := []
        keys := { privateKey := b }
        taskQueue := fun _ => none }) :
      ServerAt sodium a b t t' id 2 p
  | answered {p : Peer} (hview : p.view =
      { posted := [.server Flags.handshake id (sodium.scalarmultBase b).val]
        tasks := [.serverKey (sodium.scalarmultBase a).val]
        sent := []
        keys := { privateKey := b }
        taskQueue := fun _ => none }) :
      ServerAt sodium a b t t' id 3 p
  | sending {p : Peer} (hview : p.view =
      { posted := []
        tasks := [.serverKey (sodium.scalarmultBase a).val]
        sent := [(answer sodium b t' id).wire Key.zero.val]
        keys := { privateKey := b }
        taskQueue := fun _ => none }) :
      ServerAt sodium a b t t' id 4 p
  | agreed {p : Peer} (hview : p.view =
      { posted := []
        tasks := [.done]
        sent := [(answer sodium b t' id).wire Key.zero.val]
        keys :=
          { privateKey := b, sharedKey := KeysWrapper.agreedKey sodium a b }
        taskQueue := fun _ => none }) :
      ServerAt sodium a b t t' id 5 p

/-- The client is about to send. -/
theorem handshakeStart_client (sodium : Sodium) (a b : Key) (now : Int64) :
    ClientAt sodium a b now now 0 0
      ((handshakeStart sodium a b now).peer .client) := by
  have hpost : SessionClient.write Flags.handshake
      (KeysWrapper.getPublicKey sodium { privateKey := a }).val
      (some (handshakeCallback sodium))
      = (true, [.client Flags.handshake (sodium.scalarmultBase a).val
        (some (handshakeCallback sodium))]) := PostedWrite.post_eq (key_size _)
  refine .calling ?_
  unfold handshakeStart Peer.view
  dsimp only
  rw [hpost]
  rfl

theorem handshakeStart_sound (sodium : Sodium) (a b : Key) (now : Int64) :
    (handshakeStart sodium a b now).Sound := by
  intro r
  cases r with
  | server => exact ⟨Peer.start_sound .server _ now, rfl⟩
  | client =>
      obtain ⟨hdrained, hcounter, -, hkinds⟩ :=
        Peer.start_sound .client { privateKey := a } now
      exact ⟨⟨hdrained, hcounter, fun w hw => PostedWrite.post_sizes hw,
        hkinds⟩, rfl⟩

-- ============================================================= the client

variable {t t' : Int64} {id : UInt64} {m n : Nat} {p q : Peer}

/-- Only what a peer is about decides its stage. -/
theorem ClientAt.of_view (h : ClientAt sodium a b t t' id m p)
    (hview : q.view = p.view) : ClientAt sodium a b t t' id m q := by
  cases h with
  | calling h => exact .calling (hview.trans h)
  | waiting h => exact .waiting (hview.trans h)
  | reading h => exact .reading (hview.trans h)
  | calledBack _ h => exact .calledBack _ (hview.trans h)
  | agreed _ h => exact .agreed _ (hview.trans h)

/-- From its request on, that is what the client has sent. -/
theorem ClientAt.sent (h : ClientAt sodium a b t t' id m p) :
    p.view.sent
      = if 1 ≤ m then [(request sodium a t id).wire Key.zero.val] else [] := by
  cases h with
  | calling h => rw [h]; rfl
  | waiting h => rw [h]; rfl
  | reading h => rw [h]; rfl
  | calledBack _ h => rw [h]; rfl
  | agreed _ h => rw [h]; rfl

/-- The client has read once it has read the answer. -/
theorem ClientAt.reads (h : ClientAt sodium a b t t' id m p) :
    p.reads = if 2 ≤ m then 1 else 0 := by
  cases h with
  | calling h => exact congrArg List.length (Peer.view_fields h).2.1
  | waiting h => exact congrArg List.length (Peer.view_fields h).2.1
  | reading h => exact congrArg List.length (Peer.view_fields h).2.1
  | calledBack _ h => exact congrArg List.length (Peer.view_fields h).2.1
  | agreed _ h => exact congrArg List.length (Peer.view_fields h).2.1

/-- The client's closure runs: the request goes out. -/
theorem ClientAt.handler {now : Int64} {drawn : UInt64} (hp : p.Sound)
    (h : ClientAt sodium a b t t' id m p)
    (hstep : Peer.Step sodium p (.handler now drawn) q) :
    m = 0 ∧ ClientAt sodium a b now t' drawn 1 q := by
  obtain ⟨w, rest, hposted, hq⟩ := Peer.handler_view hp hstep
  have hreads := h.reads
  cases h with
  | calling hview =>
      obtain ⟨hp₁, -, hkeys, hqueue⟩ := Peer.view_fields hview
      rw [hp₁] at hposted
      cases hposted
      refine ⟨rfl, .waiting ?_⟩
      have hcounter : p.session.messageCounter = 0 := by
        rw [hp.counter, hreads]
        rfl
      rw [hq, hview, PostedWrite.packet, hcounter, hkeys]
      unfold PostedWrite.taskQueue
      rw [hqueue]
      rfl
  | waiting hview =>
      rw [(Peer.view_fields hview).1] at hposted
      cases hposted
  | reading hview =>
      rw [(Peer.view_fields hview).1] at hposted
      cases hposted
  | calledBack _ hview =>
      rw [(Peer.view_fields hview).1] at hposted
      cases hposted
  | agreed _ hview =>
      rw [(Peer.view_fields hview).1] at hposted
      cases hposted

/-- The waiting client reads the answer. -/
theorem ClientAt.read {chunk : Bytes} {now : Int64} (hrole : p.role = .client)
    (h : ClientAt sodium a b t t' id 1 p)
    (hstep : Peer.Step sodium p (.read chunk now) q)
    (hchunk : chunk = (answer sodium b t' id).wire Key.zero.val) :
    ClientAt sodium a b t t' id 2 q := by
  cases h with
  | waiting hview =>
      refine .reading ?_
      rw [Peer.read_view hstep, hrole, hchunk, (Peer.view_fields hview).2.1,
        hview]
      rfl

/-- A peer with one task has only that one to go on with. -/
theorem only_task {τ τ' : Task} {k : Nat} (h : [τ][k]? = some τ') :
    k = 0 ∧ τ' = τ := by
  rw [List.getElem?_singleton] at h
  split at h
  next hk =>
    cases h
    exact ⟨hk, rfl⟩
  next => cases h

/-- The client's `ReadPacket` accepts the answer, and its callback is
there. -/
theorem ClientAt.accepts {now : Int64} (hp : p.Sound)
    (h : ClientAt sodium a b t t' id 2 p)
    (hfresh : Fresh now (headerOf
      (readBuffer ((answer sodium b t' id).wire Key.zero.val))).timestamp) :
    readPacket now (readBuffer ((answer sodium b t' id).wire Key.zero.val))
        (SessionClient.readNonce p.session) p.session.keys.sharedKey.val
        = .ok (.ok (answer sodium b t' id).packet)
      ∧ p.session.taskQueue (answer sodium b t' id).packet.header.messageId
        = some (handshakeCallback sodium) := by
  have hreads := h.reads
  cases h with
  | reading hview =>
      obtain ⟨-, -, hkeys, hqueue⟩ := Peer.view_fields hview
      have hnonce : SessionClient.readNonce p.session = 1 := by
        rw [SessionClient.readNonce, hp.counter, hreads]
        rfl
      rw [readBuffer, Sending.headerOf_wire (key_size _)] at hfresh
      rw [hnonce, hkeys, hqueue]
      refine ⟨?_, ?_⟩
      · exact Sending.read_wire_fresh Key.zero.property (key_size _)
          (fun _ => rfl) hfresh _
      · exact Function.update_self id (some (handshakeCallback sodium))
          (fun _ => none)

/-- The callback of `client_main.cpp` computes the shared key from the
answer. -/
theorem handshakeCallback_answer (hsodium : sodium.Agrees) (a b : Key)
    (t' : Int64) (id : UInt64) :
    handshakeCallback sodium (answer sodium b t' id).packet { privateKey := a }
      = .ok { privateKey := a
              sharedKey := KeysWrapper.agreedKey sodium a b } := by
  have hlen := (sodium.scalarmultBase b).property
  have hsize : (answer sodium b t' id).packet.header.messageSize = 32 :=
    congrArg UInt32.ofNat hlen
  have hspan : memcpyFrom (answer sodium b t' id).packet.payload 0
      (32 : UInt32).toNat = .ok (sodium.scalarmultBase b).val := by
    show memcpyFrom (sodium.scalarmultBase b).val 0 32 = _
    rw [memcpyFrom_of_le (by omega), List.drop_zero]
    exact congrArg Except.ok (List.take_of_length_le hlen.le)
  unfold handshakeCallback
  rw [hsize, if_pos rfl, hspan, ok_bind,
    KeysWrapper.computeSharedKey_agrees hsodium]
  rfl

/-- The stage of the client after one more part of its task: it accepts
the answer, finds the callback, and computes the key. -/
theorem ClientAt.advance (hsodium : sodium.Agrees) (hp : p.Sound)
    (h : ClientAt sodium a b t t' id m p) (hm : 2 ≤ m) {now : Int64}
    (hfresh : p.InTime 0 now) :
    ∃ τ r, p.tasks = [τ] ∧ τ.run sodium now p.session = .ok r
      ∧ ∀ q : Peer, q.view = { p.view with
          posted := p.posted ++ r.posted
          tasks := [r.task]
          keys := r.session.keys
          taskQueue := r.session.taskQueue } →
        ClientAt sodium a b t t' id (min (m + 1) 4) q := by
  cases h with
  | calling hview => exact absurd hm (by decide)
  | waiting hview => exact absurd hm (by decide)
  | reading hview =>
      obtain ⟨hposted, htasks, hkeys, -⟩ := Peer.view_fields hview
      have hnow := hfresh _ _ (by rw [htasks]; rfl) rfl
      obtain ⟨hread, hfound⟩ := ClientAt.accepts hp (.reading hview) hnow
      have hafter : SessionClient.afterRead p.session
          (.ok (answer sodium b t' id).packet)
          = { session :=
                { p.session with
                  taskQueue := Function.update p.session.taskQueue
                    (answer sodium b t' id).packet.header.messageId none }
              task := .clientCallback (handshakeCallback sodium)
                (answer sodium b t' id).packet } := by
        unfold SessionClient.afterRead
        dsimp only
        rw [hfound]
      refine ⟨_, _, htasks, SessionClient.taskRead_eq hread, ?_⟩
      intro q hq
      refine .calledBack (Function.update p.session.taskQueue
        (answer sodium b t' id).packet.header.messageId none) ?_
      rw [hq, hafter, hview, hposted]
      dsimp only
      rw [hkeys]
      rfl
  | calledBack taskQueue hview =>
      obtain ⟨hposted, htasks, hkeys, hqueue⟩ := Peer.view_fields hview
      refine ⟨_, { session := { p.session with keys :=
          { privateKey := a, sharedKey := KeysWrapper.agreedKey sodium a b } } },
        htasks, ?_, ?_⟩
      · unfold Task.run SessionClient.taskCallback
        dsimp only
        rw [hkeys, handshakeCallback_answer hsodium]
        rfl
      · intro q hq
        refine .agreed taskQueue ?_
        rw [hq, hview, hposted]
        dsimp only
        rw [hqueue]
        rfl
  | agreed taskQueue hview =>
      obtain ⟨hposted, htasks, hkeys, hqueue⟩ := Peer.view_fields hview
      refine ⟨_, _, htasks, rfl, ?_⟩
      intro q hq
      refine .agreed taskQueue ?_
      rw [hq, hview, hposted, hkeys, hqueue]
      rfl

/-- The client's task goes on. -/
theorem ClientAt.task {k : Nat} {now : Int64} (hsodium : sodium.Agrees)
    (hp : p.Sound) (h : ClientAt sodium a b t t' id m p)
    (hstep : Peer.Step sodium p (.task k now) q)
    (hfresh : p.InTime k now) :
    2 ≤ m ∧ ClientAt sodium a b t t' id (min (m + 1) 4) q := by
  obtain ⟨τ, r, hτ, hrun, hq⟩ := Peer.task_view hstep
  have hlt : k < p.reads := (List.getElem?_eq_some_iff.mp hτ).1
  rw [h.reads] at hlt
  split at hlt
  next hm =>
    obtain rfl : k = 0 := by omega
    obtain ⟨τ', r', htasks, hrun', hnext⟩ := h.advance hsodium hp hm hfresh
    rw [htasks] at hτ hq
    cases hτ
    rw [hrun] at hrun'
    cases hrun'
    exact ⟨hm, hnext q hq⟩
  next => exact absurd hlt (Nat.not_lt_zero k)

/-- A client that has read the answer can go on. -/
theorem ClientAt.task_enabled (hsodium : sodium.Agrees) (hp : p.Sound)
    (h : ClientAt sodium a b t t' id m p) (hm : 2 ≤ m) {now : Int64}
    (hfresh : p.InTime 0 now) :
    ∃ q, Peer.Step sodium p (.task 0 now) q := by
  obtain ⟨τ, r, htasks, hrun, -⟩ := h.advance hsodium hp hm hfresh
  exact ⟨_, .task (by rw [htasks]; rfl) hrun⟩

/-- Before it has read the answer, when that was sent does not matter to
the client. -/
theorem ClientAt.retime (h : ClientAt sodium a b t t' id m p) (hm : m < 2)
    (t'' : Int64) : ClientAt sodium a b t t'' id m p := by
  cases h with
  | calling h => exact .calling h
  | waiting h => exact .waiting h
  | reading h => exact absurd hm (by decide)
  | calledBack _ h => exact absurd hm (by decide)
  | agreed _ h => exact absurd hm (by decide)

/-- The only task of the client that has not begun is the answer's. -/
theorem ClientAt.unread {k : Nat} {τ : Task} {buffer : Bytes}
    (h : ClientAt sodium a b t t' id m p) (hτ : p.tasks[k]? = some τ)
    (hunread : τ.unread = some buffer) :
    m = 2 ∧ buffer = readBuffer ((answer sodium b t' id).wire Key.zero.val) := by
  cases h with
  | reading hview =>
      rw [(Peer.view_fields hview).2.1] at hτ
      obtain ⟨-, rfl⟩ := only_task hτ
      cases hunread
      exact ⟨rfl, rfl⟩
  | calling hview =>
      rw [(Peer.view_fields hview).2.1] at hτ
      cases hτ
  | waiting hview =>
      rw [(Peer.view_fields hview).2.1] at hτ
      cases hτ
  | calledBack _ hview =>
      rw [(Peer.view_fields hview).2.1] at hτ
      obtain ⟨-, rfl⟩ := only_task hτ
      cases hunread
  | agreed _ hview =>
      rw [(Peer.view_fields hview).2.1] at hτ
      obtain ⟨-, rfl⟩ := only_task hτ
      cases hunread

/-- The client reads the answer at the time it was created. -/
theorem ClientAt.inTime (h : ClientAt sodium a b t t' id m p) (k : Nat) :
    p.InTime k t' := by
  intro τ buffer hτ hunread
  obtain ⟨-, rfl⟩ := h.unread hτ hunread
  rw [readBuffer, Sending.headerOf_wire (key_size _)]
  exact fresh_self t'

/-- A client with nothing left to run is waiting or done. -/
theorem ClientAt.finished (h : ClientAt sodium a b t t' id m p)
    (hposted : p.posted = []) (hdone : ∀ τ ∈ p.tasks, τ = .done) :
    m = 1 ∨ p.session.keys.sharedKey = KeysWrapper.agreedKey sodium a b
      ∧ m = 4 := by
  cases h with
  | calling hview =>
      rw [(Peer.view_fields hview).1] at hposted
      cases hposted
  | waiting hview => exact Or.inl rfl
  | reading hview =>
      rw [(Peer.view_fields hview).2.1] at hdone
      cases hdone _ (List.mem_cons_self ..)
  | calledBack _ hview =>
      rw [(Peer.view_fields hview).2.1] at hdone
      cases hdone _ (List.mem_cons_self ..)
  | agreed _ hview =>
      exact Or.inr
        ⟨congrArg KeysWrapper.sharedKey (Peer.view_fields hview).2.2.1, rfl⟩

-- ============================================================= the server

/-- Only what a peer is about decides its stage. -/
theorem ServerAt.of_view (h : ServerAt sodium a b t t' id n p)
    (hview : q.view = p.view) : ServerAt sodium a b t t' id n q := by
  cases h with
  | idle h => exact .idle (hview.trans h)
  | reading h => exact .reading (hview.trans h)
  | answering h => exact .answering (hview.trans h)
  | answered h => exact .answered (hview.trans h)
  | sending h => exact .sending (hview.trans h)
  | agreed h => exact .agreed (hview.trans h)

/-- From its answer on, that is what the server has sent. -/
theorem ServerAt.sent (h : ServerAt sodium a b t t' id n p) :
    p.view.sent
      = if 4 ≤ n then [(answer sodium b t' id).wire Key.zero.val] else [] := by
  cases h with
  | idle h => rw [h]; rfl
  | reading h => rw [h]; rfl
  | answering h => rw [h]; rfl
  | answered h => rw [h]; rfl
  | sending h => rw [h]; rfl
  | agreed h => rw [h]; rfl

/-- The server has read once it has read the request. -/
theorem ServerAt.reads (h : ServerAt sodium a b t t' id n p) :
    p.reads = if 1 ≤ n then 1 else 0 := by
  cases h with
  | idle h => exact congrArg List.length (Peer.view_fields h).2.1
  | reading h => exact congrArg List.length (Peer.view_fields h).2.1
  | answering h => exact congrArg List.length (Peer.view_fields h).2.1
  | answered h => exact congrArg List.length (Peer.view_fields h).2.1
  | sending h => exact congrArg List.length (Peer.view_fields h).2.1
  | agreed h => exact congrArg List.length (Peer.view_fields h).2.1

/-- The server's closure runs before the key is computed: the answer goes
out under the key both still hold. -/
theorem ServerAt.handler {now : Int64} {drawn : UInt64} (hp : p.Sound)
    (h : ServerAt sodium a b t t' id n p)
    (hstep : Peer.Step sodium p (.handler now drawn) q) :
    n = 3 ∧ ServerAt sodium a b t now id 4 q := by
  obtain ⟨w, rest, hposted, hq⟩ := Peer.handler_view hp hstep
  have hreads := h.reads
  cases h with
  | answered hview =>
      obtain ⟨hp₁, -, hkeys, hqueue⟩ := Peer.view_fields hview
      rw [hp₁] at hposted
      cases hposted
      refine ⟨rfl, .sending ?_⟩
      have hcounter : p.session.messageCounter = 1 := by
        rw [hp.counter, hreads]
        rfl
      rw [hq, hview, PostedWrite.packet, hcounter, hkeys]
      unfold PostedWrite.taskQueue
      rw [hqueue]
      rfl
  | idle hview =>
      rw [(Peer.view_fields hview).1] at hposted
      cases hposted
  | reading hview =>
      rw [(Peer.view_fields hview).1] at hposted
      cases hposted
  | answering hview =>
      rw [(Peer.view_fields hview).1] at hposted
      cases hposted
  | sending hview =>
      rw [(Peer.view_fields hview).1] at hposted
      cases hposted
  | agreed hview =>
      rw [(Peer.view_fields hview).1] at hposted
      cases hposted

/-- The idle server reads the request. -/
theorem ServerAt.read {chunk : Bytes} {now : Int64} (hrole : p.role = .server)
    (h : ServerAt sodium a b t t' id 0 p)
    (hstep : Peer.Step sodium p (.read chunk now) q)
    (hchunk : chunk = (request sodium a t id).wire Key.zero.val) :
    ServerAt sodium a b t t' id 1 q := by
  cases h with
  | idle hview =>
      refine .reading ?_
      rw [Peer.read_view hstep, hrole, hchunk, (Peer.view_fields hview).2.1,
        hview]
      rfl

/-- From the client's public key the server computes the key of the
two. -/
theorem callbackKey_request (hsodium : sodium.Agrees) {s : Session}
    (hkeys : s.keys = { privateKey := b }) (a : Key) :
    SessionServer.callbackKey sodium s (sodium.scalarmultBase a).val
      = .ok { session := { s with keys :=
        { privateKey := b, sharedKey := KeysWrapper.agreedKey sodium a b } } }
    := by
  unfold SessionServer.callbackKey
  rw [KeysWrapper.computeSharedKey_agrees hsodium, hkeys,
    ← KeysWrapper.agreedKey_comm hsodium]
  rfl

/-- The stage of the server after one more part of `DefaultReadCallback`:
it accepts the request, posts the answer and, once that is sent, computes
the key. -/
theorem ServerAt.advance (hsodium : sodium.Agrees) (hp : p.Sound)
    (h : ServerAt sodium a b t t' id n p) (hn : 1 ≤ n) (hsent : n ≠ 3)
    {now : Int64}
    (hfresh : p.InTime 0 now) :
    ∃ τ r, p.tasks = [τ] ∧ τ.run sodium now p.session = .ok r
      ∧ ∀ q : Peer, q.view = { p.view with
          posted := p.posted ++ r.posted
          tasks := [r.task]
          keys := r.session.keys
          taskQueue := r.session.taskQueue } →
        ServerAt sodium a b t t' id (min (n + 1) 5) q := by
  have hreads := h.reads
  cases h with
  | idle hview => exact absurd hn (by decide)
  | reading hview =>
      obtain ⟨hposted, htasks, hkeys, hqueue⟩ := Peer.view_fields hview
      have hnow := hfresh _ _ (by rw [htasks]; rfl) rfl
      rw [readBuffer, Sending.headerOf_wire (key_size _)] at hnow
      have hnonce : SessionServer.readNonce p.session = 0 := by
        rw [SessionServer.readNonce, hp.counter, hreads]
        rfl
      have hread : readPacket now
          (readBuffer ((request sodium a t id).wire Key.zero.val))
          (SessionServer.readNonce p.session) p.session.keys.sharedKey.val
          = .ok (.ok (request sodium a t id).packet) := by
        rw [hnonce, hkeys]
        exact Sending.read_wire_fresh Key.zero.property (key_size _)
          (fun _ => rfl) hnow _
      refine ⟨_, _, htasks, SessionServer.callbackRead_eq hread, ?_⟩
      intro q hq
      refine .answering ?_
      rw [hq, hview, hposted]
      dsimp only [SessionServer.afterRead]
      rw [hkeys, hqueue]
      rfl
  | answering hview =>
      obtain ⟨hposted, htasks, hkeys, hqueue⟩ := Peer.view_fields hview
      refine ⟨_, _, htasks,
        congrArg Except.ok
          (SessionServer.callbackAnswer_handshake sodium p.session rfl), ?_⟩
      intro q hq
      refine .answered ?_
      rw [hq, hview, hposted]
      dsimp only
      rw [hkeys, hqueue]
      rfl
  | answered hview => exact absurd rfl hsent
  | sending hview =>
      obtain ⟨hposted, htasks, hkeys, hqueue⟩ := Peer.view_fields hview
      refine ⟨_, _, htasks, callbackKey_request hsodium hkeys a, ?_⟩
      intro q hq
      refine .agreed ?_
      rw [hq, hview, hposted]
      dsimp only
      rw [hqueue]
      rfl
  | agreed hview =>
      obtain ⟨hposted, htasks, hkeys, hqueue⟩ := Peer.view_fields hview
      refine ⟨_, _, htasks, rfl, ?_⟩
      intro q hq
      refine .agreed ?_
      rw [hq, hview, hposted, hkeys, hqueue]
      rfl

/-- Only the server whose answer waits to be sent has the key to compute
too soon. -/
theorem ServerAt.answerFirst (h : ServerAt sodium a b t t' id n p)
    (hsent : n ≠ 3) (k : Nat) (payload : Bytes) :
    p.tasks[k]? = some (.serverKey payload) → p.posted = [] := by
  intro _
  cases h with
  | idle hview => exact (Peer.view_fields hview).1
  | reading hview => exact (Peer.view_fields hview).1
  | answering hview => exact (Peer.view_fields hview).1
  | answered hview => exact absurd rfl hsent
  | sending hview => exact (Peer.view_fields hview).1
  | agreed hview => exact (Peer.view_fields hview).1

/-- `DefaultReadCallback` goes on. -/
theorem ServerAt.task {k : Nat} {now : Int64} (hsodium : sodium.Agrees)
    (hp : p.Sound) (h : ServerAt sodium a b t t' id n p)
    (hstep : Peer.Step sodium p (.task k now) q)
    (hfresh : p.InTime k now)
    (hfirst : ∀ payload, p.tasks[k]? = some (.serverKey payload) →
      p.posted = []) :
    1 ≤ n ∧ ServerAt sodium a b t t' id (min (n + 1) 5) q := by
  obtain ⟨τ, r, hτ, hrun, hq⟩ := Peer.task_view hstep
  have hlt : k < p.reads := (List.getElem?_eq_some_iff.mp hτ).1
  rw [h.reads] at hlt
  split at hlt
  next hn =>
    obtain rfl : k = 0 := by omega
    have hsent : n ≠ 3 := by
      rintro rfl
      cases h with
      | answered hview =>
          obtain ⟨hposted, htasks, -, -⟩ := Peer.view_fields hview
          have hempty := hfirst _ (by rw [htasks]; rfl)
          rw [hposted] at hempty
          cases hempty
    obtain ⟨τ', r', htasks, hrun', hnext⟩ :=
      h.advance hsodium hp hn hsent hfresh
    rw [htasks] at hτ hq
    cases hτ
    rw [hrun] at hrun'
    cases hrun'
    exact ⟨hn, hnext q hq⟩
  next => exact absurd hlt (Nat.not_lt_zero k)

/-- A server that has nothing to send can go on. -/
theorem ServerAt.task_enabled (hsodium : sodium.Agrees) (hp : p.Sound)
    (h : ServerAt sodium a b t t' id n p) (hn : 1 ≤ n) (hsent : n ≠ 3)
    {now : Int64}
    (hfresh : p.InTime 0 now) :
    ∃ q, Peer.Step sodium p (.task 0 now) q := by
  obtain ⟨τ, r, htasks, hrun, -⟩ := h.advance hsodium hp hn hsent hfresh
  exact ⟨_, .task (by rw [htasks]; rfl) hrun⟩

/-- An idle server does not know the request. -/
theorem ServerAt.restart (h : ServerAt sodium a b t t' id 0 p) (t'' : Int64)
    (id'' : UInt64) : ServerAt sodium a b t'' t' id'' 0 p := by
  cases h with
  | idle h => exact .idle h

/-- The server reads the request at the time it was created. -/
theorem ServerAt.inTime (h : ServerAt sodium a b t t' id n p) (k : Nat) :
    p.InTime k t := by
  intro τ buffer hτ hunread
  cases h with
  | reading hview =>
      rw [(Peer.view_fields hview).2.1] at hτ
      obtain ⟨-, rfl⟩ := only_task hτ
      cases hunread
      rw [readBuffer, Sending.headerOf_wire (key_size _)]
      exact fresh_self t
  | idle hview =>
      rw [(Peer.view_fields hview).2.1] at hτ
      cases hτ
  | answering hview =>
      rw [(Peer.view_fields hview).2.1] at hτ
      obtain ⟨-, rfl⟩ := only_task hτ
      cases hunread
  | answered hview =>
      rw [(Peer.view_fields hview).2.1] at hτ
      obtain ⟨-, rfl⟩ := only_task hτ
      cases hunread
  | sending hview =>
      rw [(Peer.view_fields hview).2.1] at hτ
      obtain ⟨-, rfl⟩ := only_task hτ
      cases hunread
  | agreed hview =>
      rw [(Peer.view_fields hview).2.1] at hτ
      obtain ⟨-, rfl⟩ := only_task hτ
      cases hunread

/-- A server that has read the request, with nothing left to run, is
done. -/
theorem ServerAt.finished (h : ServerAt sodium a b t t' id n p) (hn : 1 ≤ n)
    (hdone : ∀ τ ∈ p.tasks, τ = .done) :
    p.session.keys.sharedKey = KeysWrapper.agreedKey sodium a b ∧ n = 5 := by
  cases h with
  | idle hview => exact absurd hn (by decide)
  | reading hview =>
      rw [(Peer.view_fields hview).2.1] at hdone
      cases hdone _ (List.mem_cons_self ..)
  | answering hview =>
      rw [(Peer.view_fields hview).2.1] at hdone
      cases hdone _ (List.mem_cons_self ..)
  | answered hview =>
      rw [(Peer.view_fields hview).2.1] at hdone
      cases hdone _ (List.mem_cons_self ..)
  | sending hview =>
      rw [(Peer.view_fields hview).2.1] at hdone
      cases hdone _ (List.mem_cons_self ..)
  | agreed hview =>
      exact
        ⟨congrArg KeysWrapper.sharedKey (Peer.view_fields hview).2.2.1, rfl⟩

end System

end Remc.Net
