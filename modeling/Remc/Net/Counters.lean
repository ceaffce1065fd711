/-
Whether the two counters of a connection agree.

A packet is encrypted with the number of reads its sender has completed,
and decrypted with a number that the receiver derives from its own. On a
connection that delivers one packet per read, and finishes each before
the next, the n-th packet of a side is decrypted with n - 1 by the server
and with n by the client. So a packet is decrypted with its own nonce if
its sender had completed as many reads then, modulo 2^32 (`InStep`,
`decrypts_inStep`): for a client, as many as it had sent packets, and for
a server one more.

Nothing makes a client wait for answers, and two messages in a row are
already out of step (`second_message_rejected`).
-/
import Remc.Net.Framing
import Remc.Net.System

namespace Remc.Net

open Crypto Runs

variable {sodium : Sodium} {K : Key}

/-- How many reads a side should have completed when it creates the
packet behind `n` others. -/
def Role.pace (n : Nat) : Role → Nat
  | .client => n
  | .server => n + 1

/-- That count is the nonce the other side expects. -/
theorem Role.nonceAt_other (r : Role) (n : Nat) :
    r.other.nonceAt (n + 1) = UInt64.ofNat (r.pace n) := by
  cases r <;> rfl

namespace System

/-- Both sides hold this key. -/
def Share (K : Key) (S : System) : Prop :=
  ∀ r, (S.peer r).session.keys.sharedKey = K

/-- Every task finishes before the next read completes. -/
def TasksFinish (S : System) : Role × Event → Prop
  | (r, .read _ _) => ∀ τ ∈ (S.peer r).tasks, τ = .done
  | _ => True

/-- A closure that encrypts runs when its side has completed as many
reads, modulo 2^32, as it should have for the packet's position. -/
def InStep (S : System) : Role × Event → Prop
  | (r, .handler _ _) =>
      ∀ w rest, (S.peer r).posted = w :: rest → ¬NoCrypto w.flags →
        (S.peer r).reads % 2 ^ 32
          = r.pace (S.peer r).view.sent.length % 2 ^ 32
  | _ => True

/-- What a connection in step satisfies: both sides hold the key, the
n-th packet of each has the nonce that the other expects at position n,
and only the last read has a task that has not begun, whose buffer holds
the packet of its position. -/
structure Synced (K : Key) (S : System) : Prop where
  sound : S.Sound
  share : S.Share K
  sent : ∀ r n packet, (S.peer r).view.sent[n]? = some packet →
    ∃ s : Sending, packet = s.wire K.val ∧ s.ValidAt r.other (n + 1)
  unread : ∀ r k τ buffer, (S.peer r).tasks[k]? = some τ →
    τ.unread = some buffer →
      k + 1 = (S.peer r).reads ∧ ∃ chunk,
        (S.peer r.other).view.sent[k]? = some chunk ∧ buffer = readBuffer chunk

theorem start_synced {keys : Role → KeysWrapper}
    (hkeys : ∀ r, (keys r).sharedKey = K) (now : Int64) :
    (start keys now).Synced K where
  sound := start_sound keys now
  share := hkeys
  sent r n packet h := by cases h
  unread r k τ buffer h := by cases h

/-- The packet a posted closure creates, as a `CreatePacket` call. -/
def sending (now : Int64) (drawn : UInt64) (s : Session) (w : PostedWrite) :
    Sending where
  time := now
  payload := w.payload
  version := 1
  flags := w.flags
  nonce := s.messageCounter
  messageId := w.messageId drawn

/-- A closure that runs in step creates a packet that the other side
expects. -/
theorem sending_validAt {p : Peer} {r : Role} (hp : p.Sound) {w : PostedWrite}
    {rest : List PostedWrite} (hposted : p.posted = w :: rest)
    (hstep : ¬NoCrypto w.flags →
      p.reads % 2 ^ 32 = r.pace p.view.sent.length % 2 ^ 32)
    (now : Int64) (drawn : UInt64) :
    (sending now drawn p.session w).ValidAt r.other (p.view.sent.length + 1)
    := by
  refine ⟨hp.sizes w (by rw [hposted]; exact List.mem_cons_self ..), ?_⟩
  intro hcrypto
  show nonce96 p.session.messageCounter = _
  rw [Role.nonceAt_other, hp.counter, nonce96_ofNat_eq_iff]
  exact hstep hcrypto

/-- A packet that goes out in step is one the other side expects. -/
theorem Synced.sent_step {S T : System} {r : Role} {e : Event}
    (hS : S.Synced K) (h : Peer.Step sodium (S.peer r) e (T.peer r))
    (hinStep : S.InStep (r, e)) (n : Nat) (packet : Bytes)
    (hpacket : (T.peer r).view.sent[n]? = some packet) :
    ∃ s : Sending, packet = s.wire K.val ∧ s.ValidAt r.other (n + 1) := by
  have hp := (hS.sound r).1
  rcases Peer.sent_step hp h with
    ⟨now, drawn, w, rest, rfl, hposted, hsent⟩ | hsent
  · rw [hsent] at hpacket
    rcases Nat.lt_or_ge n (S.peer r).view.sent.length with hlt | hge
    · rw [List.getElem?_append_left hlt] at hpacket
      exact hS.sent r n packet hpacket
    · -- the new packet
      have hvalid := sending_validAt hp hposted (hinStep w rest hposted) now
        drawn
      rw [List.getElem?_append_right hge, List.getElem?_singleton] at hpacket
      split at hpacket
      next hn =>
        cases hpacket
        have heq : n = (S.peer r).view.sent.length := by omega
        rw [heq]
        refine ⟨_, ?_, hvalid⟩
        rw [← hS.share r]
        rfl
      next => cases hpacket
  · rw [hsent] at hpacket
    exact hS.sent r n packet hpacket

/-- What a side reads next is the packet of that place, and the tasks
before have finished. -/
theorem Synced.unread_step {S T : System} {r : Role} {e : Event}
    (hS : S.Synced K) (h : Peer.Step sodium (S.peer r) e (T.peer r))
    (hintact : S.Intact (r, e)) (hfinish : S.TasksFinish (r, e)) (k : Nat)
    (τ : Task) (buffer : Bytes) (hτ : (T.peer r).tasks[k]? = some τ)
    (hunread : τ.unread = some buffer) :
    k + 1 = (T.peer r).reads ∧ ∃ chunk,
      (S.peer r.other).view.sent[k]? = some chunk ∧ buffer = readBuffer chunk
    := by
  rcases Peer.unread_step (hS.sound r).1 h hτ hunread with
    ⟨hold, hreads⟩ | ⟨chunk, now, rfl, hk, hreads, hbuffer⟩
  · rcases hreads with hreads | ⟨chunk, now, rfl⟩
    · rw [hreads]
      exact hS.unread r k τ buffer hold hunread
    · rw [hfinish τ (List.mem_of_getElem? hold)] at hunread
      cases hunread
  · refine ⟨by rw [hk, hreads], chunk, ?_, hbuffer⟩
    rw [hk]
    exact hintact

/-- A step of a connection in step keeps it so. -/
theorem Synced.step {S T : System} {x : Role × Event} (hS : S.Synced K)
    (h : Step sodium S x T) (hshare : T.Share K) (hintact : S.Intact x)
    (hfinish : S.TasksFinish x) (hinStep : S.InStep x) : T.Synced K := by
  obtain ⟨r, e⟩ := x
  obtain ⟨hstep, hother⟩ := h.peers
  refine ⟨hS.sound.step h, hshare, ?_, ?_⟩
  · intro r' n packet hpacket
    rcases Role.eq_or_other r r' with rfl | rfl
    · exact hS.sent_step hstep hinStep n packet hpacket
    · rw [hother] at hpacket
      exact hS.sent r.other n packet hpacket
  · intro r' k τ buffer hτ hunread
    rcases Role.eq_or_other r r' with rfl | rfl
    · rw [hother]
      exact hS.unread_step hstep hintact hfinish k τ buffer hτ hunread
    · -- the other side's packet stays where it is
      rw [hother] at hτ
      obtain ⟨hk, chunk, hchunk, hbuffer⟩ :=
        hS.unread r.other k τ buffer hτ hunread
      rw [Role.other_other] at hchunk ⊢
      rw [hother]
      refine ⟨hk, chunk, ?_, hbuffer⟩
      rcases Peer.sent_step (hS.sound r).1 hstep with
        ⟨_, _, w, _, -, -, hsent⟩ | hsent
      · rw [hsent, List.getElem?_append_left
          (List.getElem?_eq_some_iff.mp hchunk).1]
        exact hchunk
      · rw [hsent]
        exact hchunk

/-- In a connection in step, the task of a completed read decrypts the
packet that the other side sent in its place. -/
theorem Synced.decrypts {S : System} (hS : S.Synced K) {r : Role} {k : Nat}
    {τ : Task} {buffer : Bytes} (hτ : (S.peer r).tasks[k]? = some τ)
    (hunread : τ.unread = some buffer) :
    ∃ s : Sending, (S.peer r.other).view.sent[k]? = some (s.wire K.val)
      ∧ ∀ now, readPacket now buffer (r.readNonce (S.peer r).session) K.val
        = .ok (checkPacket now s.packet) := by
  obtain ⟨hk, chunk, hchunk, rfl⟩ := hS.unread r k τ buffer hτ hunread
  obtain ⟨s, rfl, hsize, hnonce⟩ := hS.sent r.other k chunk hchunk
  refine ⟨s, hchunk, fun now => ?_⟩
  have hexpected : r.readNonce (S.peer r).session = r.nonceAt (k + 1) := by
    rw [hk]
    exact Role.readNonce_reads r (hS.sound r).1.counter (by omega)
  rw [Role.other_other] at hnonce
  rw [hexpected]
  exact Sending.read_wire K.property hsize hnonce now _

/-- No task that is still to decrypt its packet finds an invalid tag. -/
def NoInvalidTag (K : Key) (S : System) : Prop :=
  ∀ (r : Role) (k : Nat) (τ : Task) (buffer : Bytes),
    (S.peer r).tasks[k]? = some τ → τ.unread = some buffer →
    ∀ now e, readPacket now buffer (r.readNonce (S.peer r).session) K.val
      = .ok (.error e) → e.getCode ≠ .invalidTag

/-- The checks after decryption do not find an invalid tag. -/
theorem checkPacket_getCode {now : Int64} {packet : Packet} {e : PacketError}
    (h : checkPacket now packet = .error e) : e.getCode ≠ .invalidTag := by
  unfold checkPacket at h
  split at h
  next =>
    cases h
    show ErrorCode.invalidTimestamp ≠ .invalidTag
    decide
  next =>
    split at h
    next =>
      cases h
      show ErrorCode.invalidMessageLength ≠ .invalidTag
      decide
    next => cases h

/-- In a run of two sessions that share a key, over a connection that
delivers one packet per read and finishes each before the next, in which
every closure that encrypts runs in step: every packet is decrypted to
what was sent, and no tag is invalid. -/
theorem decrypts_inStep (sodium : Sodium) {keys : Role → KeysWrapper} {K : Key}
    (hkeys : ∀ r, (keys r).sharedKey = K) {now : Int64}
    {es : List (Role × Event)} {T : System}
    (h : Run (When (Into (Step sodium) (Share K)) fun S a =>
      S.Intact a ∧ S.TasksFinish a ∧ S.InStep a) (start keys now) es T) :
    T.NoInvalidTag K ∧ ∀ (r : Role) (k : Nat) (τ : Task) (buffer : Bytes),
      (T.peer r).tasks[k]? = some τ → τ.unread = some buffer →
        ∃ s : Sending, (T.peer r.other).view.sent[k]? = some (s.wire K.val)
          ∧ ∀ now', readPacket now' buffer (r.readNonce (T.peer r).session)
            K.val = .ok (checkPacket now' s.packet) := by
  have hpres : ∀ S a T, S.Synced K →
      When (Into (Step sodium) (Share K)) (fun S a =>
        S.Intact a ∧ S.TasksFinish a ∧ S.InStep a) S a T → T.Synced K := by
    rintro S a T hS ⟨⟨hstep, hshare⟩, hintact, hfinish, hinStep⟩
    exact hS.step hstep hshare hintact hfinish hinStep
  have hT := h.invariant hpres (start_synced hkeys now)
  refine ⟨?_, fun r k τ buffer hτ hunread => hT.decrypts hτ hunread⟩
  intro r k τ buffer hτ hunread now' e he
  obtain ⟨s, -, hread⟩ := hT.decrypts hτ hunread
  rw [hread now'] at he
  exact checkPacket_getCode (Except.ok.inj he)

-- ============================================== two messages in a row

/-- A client's event that the premises of the exchange allow: `Write` with
any flags but `Handshake`, and a clock within the time limit. -/
def Honest (start : Int64) : Role × Event → Prop
  | (r, .write w) => r = .client ∧ w.flags ≠ Flags.handshake
  | (_, .handler now _) => start.toInt ≤ now.toInt ∧ now.toInt ≤ start.toInt + 30
  | (_, .transfer _ _) => True
  | (_, .written _ _ now) => start.toInt ≤ now.toInt ∧ now.toInt ≤ start.toInt + 30
  | (_, .close) => False
  | (_, .read _ now) => start.toInt ≤ now.toInt ∧ now.toInt ≤ start.toInt + 30
  | (_, .task _ now) => start.toInt ≤ now.toInt ∧ now.toInt ≤ start.toInt + 30

/-- An empty message. -/
def emptyWrite : PostedWrite := .client Flags.noFlags [] none

/-- What the client makes of it before it has read anything. -/
def emptySending : Sending where
  time := 0
  payload := []
  version := 1
  flags := Flags.noFlags
  nonce := 0
  messageId := 0

/-- Its tag under nonce 0 is not its tag under nonce 1. -/
theorem tag_emptySending_ne :
    tag Key.zero.val (nonce96 0) (headerBytes (createHeader 0 [] 1
        Flags.noFlags 0 0) ++ List.replicate 94 0) []
      ≠ tag Key.zero.val (nonce96 1) (headerBytes (createHeader 0 [] 1
        Flags.noFlags 0 0) ++ List.replicate 94 0) [] := by
  rw [tag_eq_block, tag_eq_block]
  decide +kernel

/-- The server expects nonce 1 of the second packet. -/
theorem emptySending_mismatch (now : Int64) (extra : Bytes) :
    readPacket now (emptySending.wire Key.zero.val ++ extra) 1 Key.zero.val
      = .ok (.error .tag) := by
  refine readPacket_created_mismatch Key.zero.property (Nat.zero_le _)
    (by decide) ?_ now extra
  have htext : cipherText Key.zero.val (nonce96 0) [] = [] :=
    List.eq_nil_of_length_eq_zero (cipherText_length _ _ [])
  show tag _ (nonce96 0) _ (cipherText Key.zero.val (nonce96 0) []) ≠
    tag _ _ _ (cipherText Key.zero.val (nonce96 0) [])
  rw [htext, serializedHeader_eq]
  exact tag_emptySending_ne

/-- A step that keeps its side's keys keeps what is shared. -/
theorem Share.step {S T : System} {r : Role} (hS : S.Share K)
    (hkeys : (T.peer r).view.keys = (S.peer r).view.keys)
    (hother : T.peer r.other = S.peer r.other) : T.Share K := by
  intro r'
  rcases Role.eq_or_other r r' with rfl | rfl
  · exact (congrArg KeysWrapper.sharedKey hkeys).trans (hS r')
  · rw [hother]
    exact hS r.other

/-- A client that has read nothing sends its next empty message. -/
theorem send_empty (sodium : Sodium) {S : System} (hS : S.Sound)
    (hshare : S.Share Key.zero) (rest : List PostedWrite)
    (hposted : (S.peer .client).posted = emptyWrite :: rest)
    (htasks : (S.peer .client).view.tasks = []) :
    ∃ T₁ T₂, Step sodium S (.client, .handler 0 0) T₁
      ∧ Step sodium T₁ (.client, .transfer (S.peer .client).writes.length
        (emptySending.wire Key.zero.val).length) T₂
      ∧ T₁.Share Key.zero ∧ T₂.Share Key.zero ∧ T₂.Sound
      ∧ (T₂.peer .client).posted = rest
      ∧ (T₂.peer .client).view.tasks = []
      ∧ (T₂.peer .client).view.sent = (S.peer .client).view.sent
        ++ [emptySending.wire Key.zero.val]
      ∧ (T₂.peer .client).session.outbox.stream
        = (S.peer .client).session.outbox.stream
          ++ emptySending.wire Key.zero.val
      ∧ T₂.peer .server = S.peer .server ∧ T₂.received = S.received := by
  obtain ⟨T₁, T₂, h₁, h₂, hview₁, hview₂, hstream, hother₁, hother₂,
    hreceived⟩ := send_steps sodium hS hposted 0 0
  have hcounter := (hS .client).1.counter
  have hreads : (S.peer .client).reads = 0 := congrArg List.length htasks
  have hpacket : emptyWrite.packet 0 0 (S.peer .client).session
      = emptySending.wire Key.zero.val := by
    rw [PostedWrite.packet, hcounter, hreads, hshare .client]
    rfl
  rw [hpacket] at h₂ hstream hview₁
  have hshare₁ : T₁.Share Key.zero := hshare.step (by rw [hview₁]) hother₁
  refine ⟨T₁, T₂, h₁, h₂, hshare₁,
    hshare.step (by rw [hview₂, hview₁]) hother₂, (hS.step h₁).step h₂, ?_, ?_,
    ?_, hstream, hother₂, hreceived⟩
  · exact congrArg Peer.View.posted (hview₂.trans hview₁)
  · rw [hview₂, hview₁]
    exact htasks
  · rw [hview₂, hview₁]

/-- Two sessions that both hold the zero key, after this many `Write`
calls of the client. -/
def zeroStart (posted : List PostedWrite) : System :=
  { start (fun _ => ⟨Key.zero, Key.zero⟩) 0 with
    peer := Function.update
      (start (fun _ => ⟨Key.zero, Key.zero⟩) 0).peer .client
      { Peer.start .client ⟨Key.zero, Key.zero⟩ 0 with posted } }

/-- The client calls `Write` once more. -/
theorem zeroStart_write (sodium : Sodium) (posted : List PostedWrite) :
    Step sodium (zeroStart posted) (.client, .write emptyWrite)
      (zeroStart (posted ++ [emptyWrite])) := by
  have hpeer : (zeroStart posted).peer .client
      = { Peer.start .client ⟨Key.zero, Key.zero⟩ 0 with posted } := rfl
  have hwrite : Peer.Step sodium ((zeroStart posted).peer .client)
      (.write emptyWrite) { Peer.start .client ⟨Key.zero, Key.zero⟩ 0 with
        posted := posted ++ [emptyWrite] } := by
    rw [hpeer]
    exact Peer.write_step rfl (Nat.zero_le _)
  have hstep : Step sodium (zeroStart posted) (.client, .write emptyWrite) _ :=
    .act (fun _ _ he => by cases he) hwrite
  have hupdate : ({ zeroStart posted with
      peer := Function.update (zeroStart posted).peer .client
        { Peer.start .client ⟨Key.zero, Key.zero⟩ 0 with
          posted := posted ++ [emptyWrite] } } : System)
      = zeroStart (posted ++ [emptyWrite]) := by
    unfold zeroStart
    rw [Function.update_idem]
  rwa [hupdate] at hstep

theorem zeroStart_nil :
    zeroStart [] = start (fun _ => ⟨Key.zero, Key.zero⟩) 0 := by
  unfold zeroStart
  have hpeer : (start (fun _ => ⟨Key.zero, Key.zero⟩) 0).peer .client
      = { Peer.start .client ⟨Key.zero, Key.zero⟩ 0 with posted := [] } := rfl
  rw [← hpeer, Function.update_eq_self]

theorem zeroStart_share (posted : List PostedWrite) :
    (zeroStart posted).Share Key.zero := by
  intro r
  cases r <;> rfl

/-- An empty message fits a read. -/
theorem emptySending_fits :
    Outbox.Fits (emptySending.wire Key.zero.val) :=
  created_fits (Nat.zero_le _) _ _ _ _ _

/-- The server reads the next empty message whole. -/
theorem receive_empty (sodium : Sodium) {S : System}
    (hshare : S.Share Key.zero) (before after : Bytes)
    (hstream : (S.peer .client).session.outbox.stream
      = before ++ (emptySending.wire Key.zero.val ++ after))
    (hreceived : S.received .server = before.length)
    (hsent : (S.peer .client).view.sent[(S.peer .server).reads]?
      = some (emptySending.wire Key.zero.val))
    (hdone : ∀ τ ∈ (S.peer .server).tasks, τ = .done) :
    ∃ T, Step sodium S (.server, .read (emptySending.wire Key.zero.val) 0) T
      ∧ T.Share Key.zero
      ∧ S.Intact (.server, .read (emptySending.wire Key.zero.val) 0)
      ∧ S.TasksFinish (.server, .read (emptySending.wire Key.zero.val) 0)
      ∧ T.peer .server
        = (S.peer .server).completeRead 0 (emptySending.wire Key.zero.val)
      ∧ T.peer .client = S.peer .client
      ∧ T.received .server
        = S.received .server + (emptySending.wire Key.zero.val).length
      ∧ T.received .client = S.received .client := by
  obtain ⟨T, h, hpeer, hother, hreceived', hleft⟩ := receive_step sodium (S := S)
    (r := .server) hstream hreceived emptySending_fits.1
    emptySending_fits.2 0
  exact ⟨T, h, hshare.step (by rw [hpeer]; rfl) hother, hsent, hdone, hpeer,
    hother, hreceived', hleft⟩

/-- The server's task for an empty message, from `ReadPacket` to its end:
the message asks for nothing. -/
theorem finish_empty (sodium : Sodium) {S : System} (hS : S.Sound) (hshare : S.Share Key.zero)
    {k : Nat} (hk : (S.peer .server).reads = k + 1) {extra : Bytes}
    (hτ : (S.peer .server).tasks[k]?
      = some (.serverRead (emptySending.wire Key.zero.val ++ extra)))
    (hnonce : nonce96 0 = nonce96 (Role.server.nonceAt (k + 1))) :
    ∃ T₁ T₂, Step sodium S (.server, .task k 0) T₁
      ∧ Step sodium T₁ (.server, .task k 0) T₂
      ∧ T₁.Share Key.zero ∧ T₂.Share Key.zero
      ∧ T₂.peer .server = { S.peer .server with
          tasks := (S.peer .server).tasks.set k .done }
      ∧ T₂.peer .client = S.peer .client ∧ T₂.received = S.received := by
  have hexpected : SessionServer.readNonce (S.peer .server).session
      = Role.server.nonceAt (k + 1) := by
    rw [← hk]
    exact Role.readNonce_reads .server (hS .server).1.counter (by omega)
  have hread : readPacket 0 (emptySending.wire Key.zero.val ++ extra)
      (SessionServer.readNonce (S.peer .server).session)
      (S.peer .server).session.keys.sharedKey.val
      = .ok (.ok emptySending.packet) := by
    rw [hexpected, hshare .server]
    exact Sending.read_wire_fresh Key.zero.property (Nat.zero_le _)
      (fun _ => hnonce) (by decide) extra
  have hlt : k < (S.peer .server).tasks.length :=
    (List.getElem?_eq_some_iff.mp hτ).1
  have hbegins : Peer.Step sodium (S.peer .server) (.task k 0) _ :=
    .task hτ (SessionServer.callbackRead_eq hread)
  obtain ⟨T₁, h₁, hpeer₁, hother₁, hreceived₁⟩ :=
    local_step (fun _ _ he => by cases he) hbegins
  have hτ₁ : (T₁.peer .server).tasks[k]?
      = some (.serverAnswer emptySending.packet) := by
    rw [hpeer₁]
    exact List.getElem?_set_self hlt
  have hends : Peer.Step sodium (T₁.peer .server) (.task k 0) _ := .task hτ₁ rfl
  obtain ⟨T₂, h₂, hpeer₂, hother₂, hreceived₂⟩ :=
    local_step (fun _ _ he => by cases he) hends
  have hshare₁ : T₁.Share Key.zero := hshare.step (by rw [hpeer₁]; rfl) hother₁
  refine ⟨T₁, T₂, h₁, h₂, hshare₁, ?_, ?_, hother₂.trans hother₁,
    hreceived₂.trans hreceived₁⟩
  · exact hshare₁.step (by rw [hpeer₂]; rfl) hother₂
  · rw [hpeer₂, hpeer₁]
    show ({ S.peer .server with
      posted := ((S.peer .server).posted ++ []) ++ []
      tasks := ((S.peer .server).tasks.set k _).set k .done } : Peer) = _
    rw [List.append_nil, List.append_nil, List.set_set]

/-- Nothing of this side is on its way: what it has written the other has
read, and has done with. -/
structure Caught (S : System) (r : Role) : Prop where
  posted : (S.peer r).posted = []
  received : S.received r.other
    = (S.peer r).session.outbox.stream.length
  reads : (S.peer r.other).reads = (S.peer r).view.sent.length
  tasks : ∀ τ ∈ (S.peer r.other).tasks, τ = .done

/-- A message goes through: `Write`, its closure, the stream and the read
of the other side. -/
theorem pass_message (sodium : Sodium) {S : System} (hS : S.Sound)
    (hshare : S.Share K) {r : Role} (hcaught : S.Caught r) {w : PostedWrite}
    (hrole : w.role = r) (hsize : w.payload.length ≤ tcpPayloadSizeMax)
    (hpace : (S.peer r).reads % 2 ^ 32
      = r.pace (S.peer r).view.sent.length % 2 ^ 32) :
    ∃ es T packet,
      Run (When (Into (Step sodium) (Share K)) fun S a =>
        S.Intact a ∧ S.TasksFinish a ∧ S.InStep a) S es T
      ∧ T.Sound ∧ T.Share K
      ∧ (T.peer r).posted = []
      ∧ (T.peer r).view.tasks = (S.peer r).view.tasks
      ∧ (T.peer r).view.sent = (S.peer r).view.sent ++ [packet]
      ∧ (T.peer r).session.outbox.stream
        = (S.peer r).session.outbox.stream ++ packet
      ∧ T.peer r.other = (S.peer r.other).completeRead 0 packet
      ∧ T.received r = S.received r
      ∧ T.received r.other = S.received r.other + packet.length := by
  have hwrite : Peer.Step sodium (S.peer r) (.write w) _ :=
    Peer.write_step (hrole.trans (hS r).2.symm) hsize
  obtain ⟨S₁, h₁, hpeer₁, hother₁, hreceived₁⟩ :=
    local_step (fun _ _ he => by cases he) hwrite
  have hposted₁ : (S₁.peer r).posted = [w] := by
    rw [hpeer₁]
    show (S.peer r).posted ++ [w] = [w]
    rw [hcaught.posted, List.nil_append]
  have hshare₁ : S₁.Share K := hshare.step (by rw [hpeer₁]; rfl) hother₁
  have hS₁ := hS.step h₁
  obtain ⟨S₂, S₃, h₂, h₃, hview₂, hview₃, hstream₃, hother₂, hother₃,
    hreceived₃⟩ := send_steps sodium hS₁ hposted₁ 0 0
  have hfits : Outbox.Fits (w.packet 0 0 (S₁.peer r).session) :=
    created_fits hsize _ _ _ _ _
  generalize w.packet 0 0 (S₁.peer r).session = packet at *
  have hshare₂ : S₂.Share K := hshare₁.step (by rw [hview₂]) hother₂
  have hshare₃ : S₃.Share K := hshare₁.step (by rw [hview₃, hview₂]) hother₃
  have hviews : (S₃.peer r).view = { (S₁.peer r).view with
      posted := []
      sent := (S₁.peer r).view.sent ++ [packet]
      taskQueue := w.taskQueue 0 (S₁.peer r).session } := hview₃.trans hview₂
  have hsent₁ : (S₁.peer r).view.sent = (S.peer r).view.sent := by
    rw [hpeer₁]
    rfl
  have hpeer₃ : S₃.peer r.other = S.peer r.other := hother₃.trans hother₁
  have hlength : S₃.received r.other
      = (S.peer r).session.outbox.stream.length := by
    rw [hreceived₃, hreceived₁]
    exact hcaught.received
  have hstream : (S₃.peer r.other.other).session.outbox.stream
      = (S.peer r).session.outbox.stream ++ (packet ++ []) := by
    rw [Role.other_other, hstream₃, hpeer₁, List.append_nil]
  obtain ⟨T, h₄, hpeer₄, hother₄, hreceived₄, hleft₄⟩ :=
    receive_step sodium hstream hlength hfits.1 hfits.2 0
  rw [Role.other_other] at hother₄ hleft₄
  have hintact : S₃.Intact (r.other, .read packet 0) := by
    show (S₃.peer r.other.other).view.sent[(S₃.peer r.other).reads]?
      = some packet
    rw [Role.other_other, hviews, hpeer₃, hcaught.reads, hsent₁]
    exact List.getElem?_concat_length
  have hfinish : S₃.TasksFinish (r.other, .read packet 0) := by
    show ∀ τ ∈ (S₃.peer r.other).tasks, τ = .done
    rw [hpeer₃]
    exact hcaught.tasks
  have hinStep : S₁.InStep (r, .handler 0 0) := by
    intro v rest hposted hcrypto
    rw [hsent₁, hpeer₁]
    exact hpace
  have hshare₄ : T.Share K := by
    refine Share.step (r := r.other) hshare₃ (by rw [hpeer₄]; rfl) ?_
    rw [Role.other_other]
    exact hother₄
  refine ⟨_, T, packet, .cons ⟨⟨h₁, hshare₁⟩, trivial, trivial, trivial⟩
    (.cons ⟨⟨h₂, hshare₂⟩, trivial, trivial, hinStep⟩
      (.cons ⟨⟨h₃, hshare₃⟩, trivial, trivial, trivial⟩
        (.cons ⟨⟨h₄, hshare₄⟩, hintact, hfinish, trivial⟩ (.nil T)))),
    ((hS₁.step h₂).step h₃).step h₄, hshare₄, ?_, ?_, ?_, ?_, ?_, ?_, ?_⟩
  · rw [hother₄]
    exact congrArg Peer.View.posted hviews
  · rw [hother₄, hviews, hpeer₁]
    rfl
  · rw [hother₄, hviews, hsent₁]
  · rw [hother₄, hstream₃, hpeer₁]
  · rw [hpeer₄, hpeer₃]
  · rw [hleft₄, hreceived₃, hreceived₁]
  · rw [hreceived₄, hreceived₃, hreceived₁]

/-- A message of the client, one of the server that answers it, and a
second of the client: the last two wait for their tasks. -/
theorem decrypts_inStep_answered :
    ∃ T : System,
      ((T.peer .client).tasks[0]?.bind Task.unread).isSome
        ∧ ((T.peer .server).tasks[1]?.bind Task.unread).isSome
        ∧ T.NoInvalidTag Key.zero
        ∧ ∀ (r : Role) (k : Nat) (τ : Task) (buffer : Bytes),
          (T.peer r).tasks[k]? = some τ → τ.unread = some buffer →
            ∃ s : Sending,
              (T.peer r.other).view.sent[k]? = some (s.wire Key.zero.val)
                ∧ ∀ now, readPacket now buffer
                  (r.readNonce (T.peer r).session) Key.zero.val
                    = .ok (checkPacket now s.packet) := by
  let sodium : Sodium := ⟨id, fun _ _ => none, id⟩
  have h₀ := zeroStart_write sodium []
  rw [zeroStart_nil] at h₀
  -- an empty message, and the server's task for it
  obtain ⟨S₁, S₂, h₁, h₂, hshare₁, hshare₂, hsound₂, hposted₂, htasks₂, hsent₂,
    hstream₂, hserver₂, hreceived₂⟩ := send_empty sodium
      ((start_sound _ 0).step h₀) (zeroStart_share _) [] rfl rfl
  obtain ⟨S₃, h₃, hshare₃, hintact₃, hfinish₃, hserver₃, hclient₃, hreceived₃,
    hleft₃⟩ := receive_empty sodium hshare₂ [] []
      (hstream₂.trans (List.append_nil _).symm) (congrFun hreceived₂ .server)
      (by rw [hsent₂, hserver₂]; rfl) (by rw [hserver₂]; intro τ hτ; cases hτ)
  rw [hserver₂] at hserver₃
  have hsound₃ := hsound₂.step h₃
  obtain ⟨S₄, S₅, h₄, h₅, hshare₄, hshare₅, hserver₅, hclient₅, hreceived₅⟩ :=
    finish_empty sodium (k := 0) hsound₃ hshare₃ (by rw [hserver₃]; rfl)
      (by rw [hserver₃]; rfl) rfl
  rw [hserver₃] at hserver₅
  rw [hclient₃] at hclient₅
  have hsound₅ := (hsound₃.step h₄).step h₅
  -- the server's answer
  have hcaught₅ : S₅.Caught .server := by
    refine ⟨by rw [hserver₅]; rfl, ?_, ?_, ?_⟩
    · show S₅.received .client = (S₅.peer .server).session.outbox.stream.length
      rw [hreceived₅, hleft₃, hreceived₂, hserver₅]
      rfl
    · show (S₅.peer .client).view.tasks.length = _
      rw [hclient₅, htasks₂, hserver₅]
      rfl
    · show ∀ τ ∈ (S₅.peer .client).view.tasks, τ = .done
      rw [hclient₅, htasks₂]
      intro τ hτ
      cases hτ
  obtain ⟨es₆, S₆, answer, hrun₆, hsound₆, hshare₆, hposted₆, htasks₆, hsent₆,
    hstream₆, hclient₆, hreceived₆, hleft₆⟩ := pass_message sodium hsound₅
      hshare₅ hcaught₅ (w := .server Flags.noFlags 7 [98, 121, 101]) rfl
      (by decide) (by rw [hserver₅]; rfl)
  have htasks₆' : (S₆.peer .server).tasks = [.done] := by
    show (S₆.peer .server).view.tasks = _
    rw [htasks₆, hserver₅]
    rfl
  -- the client's second message
  have hclient : S₆.peer .client
      = (S₂.peer .client).completeRead 0 answer := by
    rw [← hclient₅]
    exact hclient₆
  have hsent : (S₆.peer .client).view.sent
      = [emptySending.wire Key.zero.val] := by
    rw [hclient]
    show (S₂.peer .client).view.sent = _
    rw [hsent₂]
    rfl
  have hreads : (S₆.peer .client).reads = 1 := by
    rw [hclient]
    show ((S₂.peer .client).view.tasks ++ [_]).length = 1
    rw [htasks₂]
    rfl
  have hcaught₆ : S₆.Caught .client := by
    refine ⟨?_, ?_, ?_, ?_⟩
    · rw [hclient]
      exact hposted₂
    · show S₆.received .server = (S₆.peer .client).session.outbox.stream.length
      rw [hreceived₆, hreceived₅, hreceived₃, hreceived₂, hclient]
      show _ = (S₂.peer .client).session.outbox.stream.length
      have hnothing : ((zeroStart ([] ++ [emptyWrite])).peer
        .client).session.outbox.stream = [] := rfl
      have hnone : (zeroStart ([] ++ [emptyWrite])).received .server = 0 := rfl
      rw [hstream₂, hnothing, hnone, Nat.zero_add, List.nil_append]
    · show (S₆.peer .server).tasks.length = _
      rw [htasks₆', hsent]
      rfl
    · show ∀ τ ∈ (S₆.peer .server).tasks, τ = .done
      rw [htasks₆']
      exact fun τ hτ => List.mem_singleton.mp hτ
  obtain ⟨es₇, S₇, second, hrun₇, -, -, -, htasks₇, -, -, hserver₇, -, -⟩ :=
    pass_message sodium hsound₆ hshare₆ hcaught₆
      (w := .client Flags.noFlags [104, 105] none) rfl (by decide)
      (by rw [hreads, hsent]; rfl)
  have hpace : (zeroStart ([] ++ [emptyWrite])).InStep
      (.client, .handler 0 0) := fun w rest hposted hcrypto => rfl
  refine ⟨S₇, ?_, ?_, decrypts_inStep sodium (K := Key.zero) (fun _ => rfl)
    (.cons ⟨⟨h₀, zeroStart_share _⟩, trivial, trivial, trivial⟩
      (.cons ⟨⟨h₁, hshare₁⟩, trivial, trivial, hpace⟩
        (.cons ⟨⟨h₂, hshare₂⟩, trivial, trivial, trivial⟩
          (.cons ⟨⟨h₃, hshare₃⟩, hintact₃, hfinish₃, trivial⟩
            (.cons ⟨⟨h₄, hshare₄⟩, trivial, trivial, trivial⟩
              (.cons ⟨⟨h₅, hshare₅⟩, trivial, trivial, trivial⟩
                (hrun₆.append hrun₇)))))))⟩
  · show ((S₇.peer .client).view.tasks[0]?.bind Task.unread).isSome
    rw [htasks₇, hclient]
    show (((S₂.peer .client).view.tasks
      ++ [(S₂.peer .client).role.task (readBuffer answer)])[0]?.bind
        Task.unread).isSome
    rw [htasks₂, (hsound₂ .client).2]
    rfl
  · have hrole := (hsound₆ .server).2
    have htasks : (S₇.peer .server).tasks
        = [.done, .serverRead (readBuffer second)] := by
      have hread : (S₇.peer .server).tasks = (S₆.peer .server).tasks
          ++ [(S₆.peer .server).role.task (readBuffer second)] :=
        congrArg Peer.tasks hserver₇
      rw [hread, htasks₆', hrole]
      rfl
    rw [htasks]
    rfl

/-- A client that sends two empty messages before it has read anything:
the server rejects the second. -/
theorem second_message_rejected :
    ¬∀ (sodium : Sodium) (keys : Role → KeysWrapper) (K : Key) (now : Int64)
        (es : List (Role × Event)) (T : System),
        (∀ r, (keys r).sharedKey = K) → (∀ a ∈ es, Honest now a) →
        Run (When (Into (Step sodium) (Share K)) fun S a =>
          S.Intact a ∧ S.TasksFinish a) (start keys now) es T →
        T.NoInvalidTag K := by
  intro hall
  let sodium : Sodium := ⟨id, fun _ _ => none, id⟩
  -- two calls of `Write`, and both packets go out
  have hw₁ := zeroStart_write sodium []
  have hw₂ := zeroStart_write sodium [emptyWrite]
  rw [zeroStart_nil] at hw₁
  obtain ⟨S₁, S₂, h₁, h₂, hshare₁, hshare₂, hsound₂, hposted₂, htasks₂, hsent₂,
    hstream₂, hserver₂, hreceived₂⟩ := send_empty sodium
      (((start_sound _ 0).step hw₁).step hw₂) (zeroStart_share _) [emptyWrite]
      rfl rfl
  obtain ⟨S₃, S₄, h₃, h₄, hshare₃, hshare₄, hsound₄, -, -, hsent₄, hstream₄,
    hserver₄, hreceived₄⟩ := send_empty sodium hsound₂ hshare₂ []
      hposted₂ htasks₂
  rw [hsent₂] at hsent₄
  rw [hstream₂] at hstream₄
  have hserver : S₄.peer .server
      = .start .server ⟨Key.zero, Key.zero⟩ 0 := hserver₄.trans hserver₂
  have hreceived : S₄.received .server = 0 :=
    congrFun (hreceived₄.trans hreceived₂) .server
  -- the server reads the first and finishes with it
  obtain ⟨S₅, h₅, hshare₅, hintact₅, hfinish₅, hserver₅, hclient₅,
    hreceived₅, -⟩ := receive_empty sodium hshare₄ [] _
      hstream₄ hreceived (by rw [hsent₄, hserver]; rfl)
      (by rw [hserver]; intro τ hτ; cases hτ)
  rw [hserver] at hserver₅
  obtain ⟨S₆, S₇, h₆, h₇, hshare₆, hshare₇, hserver₇, hclient₇, hreceived₇⟩ :=
    finish_empty sodium (k := 0) (hsound₄.step h₅) hshare₅
      (by rw [hserver₅]; rfl) (by rw [hserver₅]; rfl) rfl
  have hdone : (S₇.peer .server).tasks = [.done] := by
    rw [hserver₇, hserver₅]
    rfl
  have hsound₇ := ((hsound₄.step h₅).step h₆).step h₇
  -- it reads the second, and its counter is 2
  obtain ⟨S₈, h₈, hshare₈, hintact₈, hfinish₈, hserver₈, -, -⟩ :=
    receive_empty sodium hshare₇
      (emptySending.wire Key.zero.val) []
      (by rw [hclient₇, hclient₅, hstream₄, List.append_nil]; rfl)
      (by rw [hreceived₇, hreceived₅, hreceived, Nat.zero_add])
      (by rw [hclient₇, hclient₅, hsent₄, Peer.reads, hdone]; rfl)
      (by rw [hdone]; intro τ hτ; exact List.mem_singleton.mp hτ)
  have htasks₈ : (S₈.peer .server).tasks
      = [.done, (S₇.peer .server).role.task
        (readBuffer (emptySending.wire Key.zero.val))] := by
    rw [hserver₈]
    show (S₇.peer .server).tasks ++ _ = _
    rw [hdone]
    rfl
  have hnonce : Role.server.readNonce (S₈.peer .server).session = 1 := by
    have hreads : (S₈.peer .server).reads = 2 := congrArg List.length htasks₈
    have hcounter := ((hsound₇.step h₈) .server).1.counter
    rw [hreads] at hcounter
    exact Role.readNonce_reads .server hcounter (by decide)
  have hrejected := hall sodium (fun _ => ⟨Key.zero, Key.zero⟩) Key.zero 0 _ S₈
    (fun _ => rfl) ?_
    (.cons ⟨⟨hw₁, zeroStart_share _⟩, trivial, trivial⟩
      (.cons ⟨⟨hw₂, zeroStart_share _⟩, trivial, trivial⟩
        (.cons ⟨⟨h₁, hshare₁⟩, trivial, trivial⟩
          (.cons ⟨⟨h₂, hshare₂⟩, trivial, trivial⟩
            (.cons ⟨⟨h₃, hshare₃⟩, trivial, trivial⟩
              (.cons ⟨⟨h₄, hshare₄⟩, trivial, trivial⟩
                (.cons ⟨⟨h₅, hshare₅⟩, hintact₅, hfinish₅⟩
                  (.cons ⟨⟨h₆, hshare₆⟩, trivial, trivial⟩
                    (.cons ⟨⟨h₇, hshare₇⟩, trivial, trivial⟩
                      (.cons ⟨⟨h₈, hshare₈⟩, hintact₈, hfinish₈⟩
                        (.nil S₈)))))))))))
    .server 1 _ (readBuffer (emptySending.wire Key.zero.val))
    (by rw [htasks₈]; rfl) (by rw [(hsound₇ .server).2]; rfl) 0 .tag
  · rw [hnonce] at hrejected
    exact hrejected (emptySending_mismatch 0 _) rfl
  · -- every event keeps to the premises
    have hclock : (0 : Int64).toInt ≤ (0 : Int64).toInt
        ∧ (0 : Int64).toInt ≤ (0 : Int64).toInt + 30 := by decide
    have hwrite : Honest 0 (.client, .write emptyWrite) := ⟨rfl, by decide⟩
    simp only [List.forall_mem_cons]
    exact ⟨hwrite, hwrite, hclock, trivial, hclock, trivial, hclock, hclock,
      hclock, hclock, fun a ha => by cases ha⟩

end System

end Remc.Net
