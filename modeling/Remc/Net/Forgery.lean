/-
What others than the peer can do to a session's key.

A server session takes a new key from every handshake that it accepts, and
accepts it for the key it has. So whoever knows that key, which is all zero
to begin with, and can count its reads can replace it (`handshake_rekeys`).

A client session calls the callback of a request for any packet with its
id, whatever the flags of that packet; and a packet with the `NoCrypto` bit
is accepted with any key and any nonce. So a callback can be called by
whoever has seen the request, and that of the handshake takes a key from
them (`handshake_forged`).
-/
import Remc.Net.Answers
import Remc.Net.Callbacks

namespace Remc.Net

open Crypto Runs

variable {sodium : Sodium}

-- ==================================================================== keys

/-- Keys after a `ComputeSharedKey` that came to this point. -/
def rekeyed (sodium : Sodium) (keys : KeysWrapper) (point : Key) :
    KeysWrapper :=
  { keys with sharedKey := sodium.generichash point }

/-- `ComputeSharedKey` takes any public key that is not rejected. -/
theorem computeSharedKey_point {keys : KeysWrapper} {other point : Key}
    (h : sodium.scalarmult keys.privateKey other = some point) :
    keys.computeSharedKey sodium other.val
      = .ok (true, rekeyed sodium keys point) := by
  unfold KeysWrapper.computeSharedKey
  rw [dif_pos other.property]
  simp only [Subtype.coe_eta, h]
  rfl

namespace Peer

-- ============================================================== the server

/-- Of a read that a reachable server session completes, the task that
begins at once expects the number of reads before it for the nonce. -/
theorem completeRead_readNonce {p : Peer} (hp : p.Sound) (now : Int64) :
    SessionServer.readNonce (p.session.completeRead now)
      = UInt64.ofNat p.reads := by
  show p.session.messageCounter + 1 - 1 = _
  rw [UInt64.add_sub_cancel, hp.counter]

/-- In every state that a server session can reach, whoever knows its
shared key and how many reads it has completed, modulo 2^32, can give it
another key: a handshake with any public key is accepted and answered, and
the session takes the key of the two. -/
theorem handshake_rekeys (sodium : Sodium) {keys : KeysWrapper} {now : Int64}
    {es : List Event} {p : Peer}
    (h : Run (Step sodium) (start .server keys now) es p) {nonce : UInt64}
    (hnonce : nonce.toNat % 2 ^ 32 = p.reads % 2 ^ 32) {other point : Key}
    (hpoint : sodium.scalarmult p.session.keys.privateKey other = some point)
    (t : Int64) (version : UInt16) (messageId : UInt64) :
    ∃ q, Run (Step sodium) p
        [.read (created t other.val version Flags.handshake nonce messageId
          p.session.keys.sharedKey.val) t, .task p.reads t, .task p.reads t,
          .task p.reads t] q
      ∧ q.session.keys = rekeyed sodium p.session.keys point
      ∧ q.posted = p.posted ++ [.server Flags.handshake messageId
        (p.session.keys.getPublicKey sodium).val] := by
  have hp := server_of_run h
  have hsize := key_size other
  have hsame : nonce96 nonce
      = nonce96 (SessionServer.readNonce (p.session.completeRead t)) := by
    rw [completeRead_readNonce hp.1, nonce96_eq_iff, hnonce,
      UInt64.toNat_ofNat', Nat.mod_mod_of_dvd _ (by decide)]
  obtain ⟨p₂, h₁, h₂, rfl⟩ := accept_steps sodium hp.2
    (created_fits hsize t version Flags.handshake nonce messageId)
    ((readPacket_created p.session.keys.sharedKey.property hsize
      (fun _ => hsame) t t version messageId _).trans
      (congrArg Except.ok (checkPacket_sentPacket hsize (fresh_self t) version
        Flags.handshake nonce messageId)))
  have hanswer : (Task.serverAnswer (sentPacket t other.val version
      Flags.handshake nonce messageId)).run sodium t
      (p.session.completeRead t) = .ok {
        session := p.session.completeRead t
        posted := [.server Flags.handshake messageId
          (p.session.keys.getPublicKey sodium).val]
        task := .serverKey other.val } :=
    congrArg Except.ok (SessionServer.callbackAnswer_handshake sodium _ rfl)
  have hkey : (Task.serverKey other.val).run sodium t
      (p.session.completeRead t) = .ok {
        session := { p.session.completeRead t with
          keys := rekeyed sodium p.session.keys point } } := by
    show (p.session.keys.computeSharedKey sodium other.val >>= _) = _
    rw [computeSharedKey_point hpoint]
    rfl
  refine ⟨_, .cons h₁ (.cons h₂ (.cons (newest_task rfl hanswer)
    (.cons (newest_task rfl hkey) (.nil _)))), rfl, List.append_nil _⟩

/-- A fresh server session takes a key from anybody: its shared key is
known. -/
theorem handshake_rekeys_fresh : ∃ q,
    Run (Step tabulated) (start .server ⟨serverKey, Key.zero⟩ 0)
        [.read (created 9 clientPublicKey.val 1 Flags.handshake 0 4
          Key.zero.val) 9, .task 0 9, .task 0 9, .task 0 9] q
      ∧ q.session.keys = ⟨serverKey, commonKey⟩
      ∧ q.posted = [.server Flags.handshake 4 serverPublicKey.val] := by
  obtain ⟨q, hrun, hkeys, hposted⟩ := handshake_rekeys tabulated
    (.nil (start .server ⟨serverKey, Key.zero⟩ 0))
    (rfl : (0 : UInt64).toNat % 2 ^ 32 = _)
    (rfl : tabulated.scalarmult serverKey clientPublicKey = _) 9 1 4
  refine ⟨q, hrun, hkeys, hposted.trans ?_⟩
  rw [start, KeysWrapper.getPublicKey, tabulated_serverKey, List.nil_append]

-- ============================================================== the client

/-- What `CreatePacket` is given, where the `NoCrypto` bit is set. -/
def plainPacket (t : Int64) (payload : Bytes) (version : UInt16)
    (flags : UInt32) (nonce messageId : UInt64) : Packet where
  header := createHeader t payload version flags nonce messageId
  payload := payload

/-- Whoever knows the id of a request of a client can have its callback
called, with any payload. -/
theorem callback_forged (sodium : Sodium) {p : Peer} (hrole : p.role = .client)
    {messageId : UInt64} {cb : WriteCallback}
    (hqueue : p.session.taskQueue messageId = some cb) {payload : Bytes}
    (hsize : payload.length ≤ tcpPayloadSizeMax) {flags : UInt32}
    (hplain : NoCrypto flags) (t : Int64) (version : UInt16) (nonce : UInt64)
    (key : Bytes) {keys : KeysWrapper}
    (hcb : cb (plainPacket t payload version flags nonce messageId)
      p.session.keys = .ok keys) :
    ∃ q, Run (Step sodium) p
        [.read (created t payload version flags nonce messageId key) t,
          .task p.reads t, .task p.reads t] q
      ∧ q.session.keys = keys
      ∧ q.session.taskQueue
        = Function.update p.session.taskQueue messageId none := by
  obtain ⟨chunk, hchunk⟩ : ∃ chunk, chunk = created t payload version flags
    nonce messageId key := ⟨_, rfl⟩
  obtain ⟨packet, hpacket⟩ : ∃ packet, packet = plainPacket t payload version
    flags nonce messageId := ⟨_, rfl⟩
  have hid : packet.header.messageId = messageId := by
    rw [hpacket]
    rfl
  have hfits : Outbox.Fits chunk := by
    rw [hchunk]
    exact created_fits hsize _ _ _ _ _
  have hreturns : readPacket t (readBuffer chunk)
      (SessionClient.readNonce (p.session.completeRead t))
      (p.session.completeRead t).keys.sharedKey.val = .ok (.ok packet) := by
    rw [readBuffer, hchunk, hpacket]
    exact readPacket_created_noCrypto p.session.keys.sharedKey.property hsize
      hplain _ (fresh_self t) version nonce messageId key _
  rw [← hchunk]
  rw [← hpacket] at hcb
  have htasks : (p.completeRead t chunk).tasks
      = p.tasks ++ [.clientRead (readBuffer chunk)] := by
    show p.tasks ++ [p.role.task _] = _
    rw [hrole]
    rfl
  have hread : (Task.clientRead (readBuffer chunk)).run sodium t
      (p.session.completeRead t) = .ok {
        session := { p.session.completeRead t with
          taskQueue := Function.update p.session.taskQueue messageId none }
        task := .clientCallback cb packet } := by
    have hqueue' : (p.session.completeRead t).taskQueue
        packet.header.messageId = some cb := by
      rw [hid]
      exact hqueue
    have hclaimed := SessionClient.afterRead_claimed hqueue'
    rw [hid] at hclaimed
    exact (SessionClient.taskRead_eq hreturns).trans
      (congrArg Except.ok hclaimed)
  have hcall : (Task.clientCallback cb packet).run sodium t {
        p.session.completeRead t with
        taskQueue := Function.update p.session.taskQueue messageId none }
      = .ok { session := { p.session.completeRead t with
        taskQueue := Function.update p.session.taskQueue messageId none
        keys } } := by
    show (cb packet p.session.keys >>= _) = _
    rw [hcb]
    rfl
  exact ⟨_, .cons (.read hfits.1 hfits.2) (.cons (newest_task htasks hread)
    (.cons (newest_task rfl hcall) (.nil _))), rfl, rfl⟩

/-- The callback of the handshake takes any 32 bytes for the public key of
the server. -/
theorem handshakeCallback_point {keys : KeysWrapper} {other point : Key}
    (hpoint : sodium.scalarmult keys.privateKey other = some point)
    {flags : UInt32} (hplain : NoCrypto flags) (t : Int64) (version : UInt16)
    (nonce messageId : UInt64) :
    handshakeCallback sodium
        (plainPacket t other.val version flags nonce messageId) keys
      = .ok (rekeyed sodium keys point) := by
  have hsize : (plainPacket t other.val version flags nonce
      messageId).header.messageSize = 32 := by
    show UInt32.ofNat (if NoCrypto flags then _ else _) = 32
    rw [if_pos hplain, other.property]
    rfl
  have hspan : memcpyFrom other.val 0 (32 : UInt32).toNat = .ok other.val := by
    show memcpyFrom other.val 0 32 = _
    rw [memcpyFrom_of_le (by rw [other.property]), List.drop_zero]
    exact congrArg Except.ok (List.take_of_length_le other.property.le)
  unfold handshakeCallback
  rw [hsize, if_pos rfl]
  show (memcpyFrom other.val 0 (32 : UInt32).toNat >>= _) = _
  rw [hspan, ok_bind, computeSharedKey_point hpoint]
  rfl

/-- In every state that a client session can reach with its handshake not
answered, whoever knows the id of the handshake can give it a key, without
knowing any: it takes any public key for that of the server, from a packet
with the `NoCrypto` bit, whatever the other flags and the nonce. -/
theorem handshake_forged (sodium : Sodium) {keys : KeysWrapper} {now : Int64}
    {es : List Event} {p : Peer}
    (h : Run (Step sodium) (start .client keys now) es p) {messageId : UInt64}
    (hqueue : p.session.taskQueue messageId = some (handshakeCallback sodium))
    {other point : Key}
    (hpoint : sodium.scalarmult p.session.keys.privateKey other = some point)
    {flags : UInt32} (hplain : NoCrypto flags) (t : Int64) (version : UInt16)
    (nonce : UInt64) (key : Bytes) :
    ∃ q, Run (Step sodium) p
        [.read (created t other.val version flags nonce messageId key) t,
          .task p.reads t, .task p.reads t] q
      ∧ q.session.keys = rekeyed sodium p.session.keys point
      ∧ q.session.taskQueue
        = Function.update p.session.taskQueue messageId none := by
  have hrole : p.role = .client := by
    refine h.invariant (I := fun s : Peer => s.role = .client) ?_ rfl
    exact fun s e u hs hstep => hstep.role_eq.trans hs
  exact callback_forged sodium hrole hqueue (key_size other) hplain t
    version nonce key (handshakeCallback_point hpoint hplain t version nonce
      messageId)

/-- A client that has sent its handshake takes a key from a test message
made with an empty key. -/
theorem handshake_forged_first : ∃ es p q,
    Run (Step tabulated) (start .client ⟨clientKey, Key.zero⟩ 0) es p
      ∧ Run (Step tabulated) p
        [.read (created 9 serverPublicKey.val 1 Flags.testMessage 7 4 []) 9,
          .task 0 9, .task 0 9] q
      ∧ q.session.keys = ⟨clientKey, commonKey⟩
      ∧ q.session.taskQueue 4 = none := by
  let w : PostedWrite := .client Flags.handshake clientPublicKey.val
    (some (handshakeCallback tabulated))
  have h₁ : Step tabulated (start .client ⟨clientKey, Key.zero⟩ 0) (.write w) _
    := write_step rfl (key_size clientPublicKey)
  have hsound := (start_sound .client ⟨clientKey, Key.zero⟩ 0).step h₁
  obtain ⟨p, h₂, -⟩ := handler_enabled tabulated hsound rfl 0 4
  obtain ⟨w', rest, hposted, hview⟩ := handler_view hsound h₂
  cases hposted
  have hreads : p.tasks = [] := (view_fields hview).2.1
  have hkeys : p.session.keys = ⟨clientKey, Key.zero⟩ :=
    (view_fields hview).2.2.1
  have hqueued : p.session.taskQueue 4 = some (handshakeCallback tabulated) := by
    rw [(view_fields hview).2.2.2]
    rfl
  have hpoint : tabulated.scalarmult p.session.keys.privateKey serverPublicKey
      = some commonPoint := rfl
  have hreached : Run (Step tabulated) (start .client ⟨clientKey, Key.zero⟩ 0)
    _ p := .cons h₁ (.cons h₂ (.nil p))
  obtain ⟨q, hrun, hrekeyed, hgone⟩ := handshake_forged tabulated hreached
    hqueued hpoint (by decide : NoCrypto Flags.testMessage) 9 1 7 []
  rw [reads, hreads] at hrun
  rw [hkeys] at hrekeyed
  refine ⟨_, p, q, hreached, hrun, hrekeyed, ?_⟩
  rw [hgone, Function.update_self]

end Peer

end Remc.Net
