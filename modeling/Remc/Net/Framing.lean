/-
Framing: which packets a session accepts, given how the stream was cut
into reads.

Every read is parsed on its own, from its first byte, and what stands
behind the first packet is dropped: the source has no buffer that would
carry bytes from one read to the next. So reads of one packet each
deliver what was sent, whatever else the session does meanwhile
(`delivery_accepts`), and two packets in one read are one packet
(`coalesced_lost`).
-/
import Remc.Net.ReadLoop

namespace Remc.Net

open Crypto Runs

variable {sodium : Sodium}

/-- The arguments of a `CreatePacket` call, the clock included. -/
structure Sending where
  time : Int64
  payload : Bytes
  version : UInt16
  flags : UInt32
  nonce : UInt64
  messageId : UInt64

namespace Sending

/-- What the call puts on the wire. -/
def wire (s : Sending) (key : Bytes) : Bytes :=
  created s.time s.payload s.version s.flags s.nonce s.messageId key

/-- The packet it stands for. -/
def packet (s : Sending) : Packet :=
  sentPacket s.time s.payload s.version s.flags s.nonce s.messageId

/-- Reading the packet with its key, and with its nonce where it is
encrypted, gives it back up to the checks. -/
theorem read_wire {s : Sending} {key : Bytes} (hkey : key.length = 32)
    (hsize : s.payload.length ≤ tcpPayloadSizeMax) {nonce : UInt64}
    (hnonce : ¬NoCrypto s.flags → nonce96 s.nonce = nonce96 nonce)
    (now : Int64) (extra : Bytes) :
    readPacket now (s.wire key ++ extra) nonce key
      = .ok (checkPacket now s.packet) :=
  readPacket_created hkey hsize hnonce s.time now s.version s.messageId extra

/-- While it is fresh, it passes them. -/
theorem read_wire_fresh {s : Sending} {key : Bytes} (hkey : key.length = 32)
    (hsize : s.payload.length ≤ tcpPayloadSizeMax) {nonce : UInt64}
    (hnonce : ¬NoCrypto s.flags → nonce96 s.nonce = nonce96 nonce)
    {now : Int64} (hfresh : Fresh now s.time.toUInt64) (extra : Bytes) :
    readPacket now (s.wire key ++ extra) nonce key = .ok (.ok s.packet) := by
  rw [read_wire hkey hsize hnonce]
  exact congrArg Except.ok (checkPacket_sentPacket hsize hfresh _ _ _ _)

/-- The header at the front of a buffer that starts with the packet has
its time. -/
theorem headerOf_wire {s : Sending} {key : Bytes}
    (hsize : s.payload.length ≤ tcpPayloadSizeMax) (extra : Bytes) :
    (headerOf (s.wire key ++ extra)).timestamp = s.time.toUInt64 := by
  obtain ⟨-, hpacket⟩ := complete_created hsize s.time s.version s.flags s.nonce
    s.messageId extra
  have hheader := congrArg Packet.header hpacket
  rw [packetOf_header] at hheader
  rw [wire, hheader]
  rfl

/-- The payload is within the limit, and an encrypted packet has the
nonce that the receiver expects at this position. -/
def ValidAt (role : Role) (k : Nat) (s : Sending) : Prop :=
  s.payload.length ≤ tcpPayloadSizeMax
    ∧ (¬NoCrypto s.flags → nonce96 s.nonce = nonce96 (role.nonceAt k))

end Sending

/-- One read after the other, each with its task; every read has its
bytes and the time at which it completes. -/
def delivery : Nat → List (Bytes × Int64) → List Event
  | _, [] => []
  | k, (chunk, now) :: rest =>
      .read chunk now :: .task k now :: delivery (k + 1) rest

namespace Peer

/-- The packet that `ReadPacket` returns in an event. -/
def accepted (p : Peer) (e : Event) : List Packet :=
  (p.readCalls e).filterMap fun c =>
    match c.outcome with
    | .ok (.ok packet) => some packet
    | _ => none

/-- The packet that a task's call returns is accepted. -/
theorem accepted_task {p : Peer} {k : Nat} {buffer : Bytes} {now : Int64}
    {packet : Packet} (hτ : p.tasks[k]? = some (p.role.task buffer))
    (h : readPacket now buffer (p.role.readNonce p.session)
      p.session.keys.sharedKey.val = .ok (.ok packet)) :
    p.accepted (.task k now) = [packet] := by
  unfold accepted
  rw [readCalls_task hτ]
  simp only [List.filterMap_cons, ReadCall.outcome, h, List.filterMap_nil]

/-- A read that starts with a packet delivers that packet, and whatever
stands behind it is gone. -/
theorem deliver_one (sodium : Sodium) {p : Peer} (hp : p.Sound) {s : Sending}
    (hvalid : s.ValidAt p.role (p.reads + 1)) {now : Int64}
    (hfresh : Fresh now s.time.toUInt64) {extra : Bytes}
    (hlen : (s.wire p.session.keys.sharedKey.val ++ extra).length
      ≤ tcpTotalPacketSize) :
    ∃ p₁ q, Step sodium p
        (.read (s.wire p.session.keys.sharedKey.val ++ extra) now) p₁
      ∧ Step sodium p₁ (.task p.reads now) q
      ∧ p₁.tasks = p.tasks ++ [p.role.task
        (readBuffer (s.wire p.session.keys.sharedKey.val ++ extra))]
      ∧ p₁.accepted (.task p.reads now) = [s.packet]
      ∧ p₁.session.keys = p.session.keys ∧ q.session.keys = p.session.keys
      ∧ ∃ τ, q.tasks = p.tasks ++ [τ] ∧ τ.unread = none := by
  obtain ⟨hsize, hnonce⟩ := hvalid
  obtain ⟨hne, -⟩ : Outbox.Fits (s.wire p.session.keys.sharedKey.val) :=
    created_fits hsize _ _ _ _ _
  obtain ⟨chunk, hchunk⟩ : ∃ chunk,
    chunk = s.wire p.session.keys.sharedKey.val ++ extra := ⟨_, rfl⟩
  rw [← hchunk] at hlen ⊢
  have hread : Step sodium p (.read chunk now) (p.completeRead now chunk) := by
    refine .read ?_ hlen
    rw [hchunk]
    exact List.append_ne_nil_of_left_ne_nil hne _
  have htask : (p.completeRead now chunk).tasks[p.reads]?
      = some (p.role.task (readBuffer chunk)) := List.getElem?_concat_length
  have hreads : (p.completeRead now chunk).reads = p.reads + 1 :=
    List.length_append
  -- the counter gives the nonce of this position
  have hexpected : p.role.readNonce (p.session.completeRead now)
      = p.role.nonceAt (p.reads + 1) := by
    rw [← hreads]
    exact Role.readNonce_reads _ (hp.step hread).counter (by omega)
  have hreturns : readPacket now (readBuffer chunk)
      (p.role.readNonce (p.session.completeRead now))
      p.session.keys.sharedKey.val = .ok (.ok s.packet) := by
    have hsplit : readBuffer chunk = s.wire p.session.keys.sharedKey.val
        ++ (extra ++ List.replicate (tcpTotalPacketSize - chunk.length) 0) := by
      rw [readBuffer, hchunk, List.append_assoc]
    rw [hsplit, hexpected]
    exact Sending.read_wire_fresh p.session.keys.sharedKey.property hsize
      hnonce hfresh _
  have hrun : (p.role.task (readBuffer chunk)).run sodium now
      (p.session.completeRead now) = _ := Role.task_run hreturns
  refine ⟨_, _, hread, .task htask hrun, rfl, accepted_task htask hreturns, rfl,
    (Role.afterRead_frame _ _ _).1, _, ?_, (Task.run_frame hrun).2.2.2.2⟩
  show (p.tasks ++ [_]).set p.tasks.length _ = _
  rw [List.set_append_right _ _ le_rfl, Nat.sub_self, List.set_cons_zero]

-- ======================================================= one packet each

/-- If the task of read `k` goes on to call `ReadPacket`, that is within the
time limit of what was read. -/
def InTime (p : Peer) (k : Nat) (now : Int64) : Prop :=
  ∀ (τ : Task) (buffer : Bytes), p.tasks[k]? = some τ →
    τ.unread = some buffer → Fresh now (headerOf buffer).timestamp

/-- Every read returns exactly the next packet, once the tasks of the
reads before have called `ReadPacket`, and a task calls it within the
time limit. -/
def OnePacketEach (key : Bytes) (sent : List Sending) (p : Peer) : Event → Prop
  | .read chunk _ =>
      (∃ s, sent[p.reads]? = some s ∧ chunk = s.wire key)
        ∧ ∀ τ ∈ p.tasks, τ.unread = none
  | .task k now => p.InTime k now
  | _ => True

/-- A step of a session that keeps to this and keeps its key, with the
packets accepted so far. -/
def DeliveryStep (sodium : Sodium) (K : Key) (sent : List Sending) :
    Peer × List Packet → Event → Peer × List Packet → Prop :=
  When (Into (Logged (Step sodium) accepted)
    fun t => t.1.session.keys.sharedKey = K)
    fun t e => OnePacketEach K.val sent t.1 e

/-- The first `n` packets have been accepted, and the packet behind them
is the only one that may have been read and not yet parsed. -/
structure DeliveredUpTo (K : Key) (sent : List Sending) (n : Nat) (p : Peer)
    (log : List Packet) : Prop where
  log_eq : log = (sent.take n).map Sending.packet
  unread : ∀ (k : Nat) (τ : Task) (buffer : Bytes), p.tasks[k]? = some τ →
    τ.unread = some buffer → k = n ∧ p.reads = n + 1
      ∧ ∃ s, sent[n]? = some s ∧ buffer = readBuffer (s.wire K.val)
  begun : p.reads = n ∨ ∃ τ buffer, p.tasks[n]? = some τ
    ∧ τ.unread = some buffer

/-- A task's `ReadPacket` returns the packet of its position. -/
theorem DeliveredUpTo.reads {K : Key} {sent : List Sending} {n : Nat} {p : Peer}
    {log : List Packet} (hd : DeliveredUpTo K sent n p log) (hp : p.Sound)
    (hkey : p.session.keys.sharedKey = K)
    (hvalid : ∀ (i : Nat) (s : Sending), sent[i]? = some s →
      s.ValidAt p.role (i + 1)) {k : Nat} {τ : Task} {buffer : Bytes}
    (hτ : p.tasks[k]? = some τ) (hunread : τ.unread = some buffer) {now : Int64}
    (hfresh : Fresh now (headerOf buffer).timestamp) :
    k = n ∧ p.reads = n + 1 ∧ ∃ s, sent[n]? = some s
      ∧ p.accepted (.task k now) = [s.packet] := by
  obtain ⟨hk, hreads, s, hs, rfl⟩ := hd.unread k τ buffer hτ hunread
  obtain ⟨hsize, hnonce⟩ := hvalid n s hs
  refine ⟨hk, hreads, s, hs, ?_⟩
  have hexpected : p.role.readNonce p.session = p.role.nonceAt (n + 1) := by
    rw [← hreads]
    exact Role.readNonce_reads _ hp.counter (by omega)
  rw [hp.unread hτ hunread] at hτ
  refine accepted_task hτ ?_
  rw [readBuffer, Sending.headerOf_wire hsize] at hfresh
  rw [hexpected, hkey]
  exact Sending.read_wire_fresh K.property hsize hnonce hfresh _

/-- Where the tasks stay, so does what was delivered. -/
theorem DeliveredUpTo.frame {K : Key} {sent : List Sending} {n : Nat}
    {p q : Peer} {log : List Packet} (hd : DeliveredUpTo K sent n p log)
    (htasks : q.tasks = p.tasks) : DeliveredUpTo K sent n q (log ++ []) := by
  have hreads : q.reads = p.reads := congrArg List.length htasks
  refine ⟨(List.append_nil log).trans hd.log_eq, ?_, ?_⟩
  · rw [hreads, htasks]
    exact hd.unread
  · rw [hreads, htasks]
    exact hd.begun

/-- Once every task has begun, the next read brings the next packet. -/
theorem DeliveredUpTo.read {K : Key} {sent : List Sending} {n : Nat} {p : Peer}
    {log : List Packet} (hd : DeliveredUpTo K sent n p log) {s : Sending}
    (hs : sent[p.reads]? = some s) (hbegun : ∀ τ ∈ p.tasks, τ.unread = none)
    (now : Int64) :
    DeliveredUpTo K sent n (p.completeRead now (s.wire K.val)) (log ++ []) := by
  have hreads : p.tasks.length = n := by
    rcases hd.begun with hreads | ⟨τ, buffer, hτ, hunread⟩
    · exact hreads
    · rw [hbegun τ (List.mem_of_getElem? hτ)] at hunread
      cases hunread
  have hnew : (p.completeRead now (s.wire K.val)).tasks[n]?
      = some (p.role.task (readBuffer (s.wire K.val))) := by
    rw [← hreads]
    exact List.getElem?_concat_length
  refine ⟨(List.append_nil log).trans hd.log_eq, ?_,
    Or.inr ⟨_, _, hnew, Role.task_unread _ _⟩⟩
  intro k τ buffer hτ hunread
  rcases Nat.lt_trichotomy k n with hlt | rfl | hgt
  · change (p.tasks ++ [_])[k]? = some τ at hτ
    rw [List.getElem?_append_left (by omega)] at hτ
    rw [hbegun τ (List.mem_of_getElem? hτ)] at hunread
    cases hunread
  · rw [hnew] at hτ
    cases hτ
    rw [Role.task_unread] at hunread
    cases hunread
    refine ⟨rfl, ?_, s, hreads ▸ hs, rfl⟩
    show (p.tasks ++ [_]).length = _
    rw [List.length_append, hreads]
    rfl
  · change (p.tasks ++ [_])[k]? = some τ at hτ
    rw [List.getElem?_eq_none (by rw [List.length_append, hreads]; exact hgt)]
      at hτ
    cases hτ

/-- The call of `ReadPacket` delivers the packet that was read. -/
theorem DeliveredUpTo.call {K : Key} {sent : List Sending} {n : Nat}
    {p q : Peer} {log : List Packet} (hd : DeliveredUpTo K sent n p log)
    {t : Task} (hbegun : t.unread = none) (hreads : p.reads = n + 1)
    (htasks : q.tasks = p.tasks.set n t) {s : Sending}
    (hs : sent[n]? = some s) :
    DeliveredUpTo K sent (n + 1) q (log ++ [s.packet]) := by
  have hlen : q.reads = n + 1 := by
    show q.tasks.length = _
    rw [htasks, List.length_set]
    exact hreads
  refine ⟨?_, ?_, Or.inl hlen⟩
  · rw [hd.log_eq, List.take_add_one, hs, Option.toList_some, List.map_append]
    rfl
  · intro j τ buffer hτ hunread
    rw [htasks] at hτ
    obtain ⟨hne, hold⟩ := unread_set hbegun hτ hunread
    exact absurd (hd.unread j τ buffer hold hunread).1.symm hne

/-- A later part of a task delivers nothing. -/
theorem DeliveredUpTo.later {K : Key} {sent : List Sending} {n k : Nat}
    {p q : Peer} {log : List Packet} (hd : DeliveredUpTo K sent n p log)
    {τ t : Task} (hτ : p.tasks[k]? = some τ) (hlater : τ.unread = none)
    (hbegun : t.unread = none) (htasks : q.tasks = p.tasks.set k t) :
    DeliveredUpTo K sent n q (log ++ []) := by
  have hlen : q.reads = p.reads := by
    show q.tasks.length = _
    rw [htasks, List.length_set]
  refine ⟨(List.append_nil log).trans hd.log_eq, ?_, ?_⟩
  · intro j τ' buffer hτ' hunread
    rw [htasks] at hτ'
    rw [hlen]
    exact hd.unread j τ' buffer (unread_set hbegun hτ' hunread).2 hunread
  · rw [hlen, htasks]
    rcases hd.begun with hreads | ⟨τ', buffer, hτ', hunread⟩
    · exact Or.inl hreads
    · have hne : k ≠ n := by
        rintro rfl
        rw [hτ] at hτ'
        cases hτ'
        rw [hlater] at hunread
        cases hunread
      rw [List.getElem?_set_ne hne]
      exact Or.inr ⟨τ', buffer, hτ', hunread⟩

/-- Under this discipline every step delivers one packet more, or none. -/
theorem DeliveredUpTo.step {K : Key} {sent : List Sending} {n : Nat}
    {p q : Peer} {e : Event} {log : List Packet}
    (hd : DeliveredUpTo K sent n p log) (hp : p.Sound)
    (hkey : p.session.keys.sharedKey = K)
    (hvalid : ∀ (i : Nat) (s : Sending), sent[i]? = some s →
      s.ValidAt p.role (i + 1)) (h : Step sodium p e q)
    (hone : OnePacketEach K.val sent p e) :
    ∃ n', DeliveredUpTo K sent n' q (log ++ p.accepted e) := by
  cases e with
  | write w =>
      cases h
      exact ⟨n, hd.frame rfl⟩
  | handler now drawn =>
      obtain ⟨w, rest, messageQueue, -, -, rfl⟩ := handler_step hp h
      exact ⟨n, hd.frame rfl⟩
  | transfer i k =>
      cases h
      exact ⟨n, hd.frame rfl⟩
  | written i ec now =>
      obtain ⟨w, hw, -, rfl⟩ := written_step hp h
      exact ⟨n, hd.frame rfl⟩
  | close =>
      cases h
      exact ⟨n, hd.frame rfl⟩
  | read chunk now =>
      obtain ⟨⟨s, hs, rfl⟩, hbegun⟩ := hone
      cases h
      exact ⟨n, hd.read hs hbegun now⟩
  | task k now =>
      cases h with
      | @task _ _ τ r hτ hrun =>
          obtain ⟨-, -, -, -, hbegun⟩ := Task.run_frame hrun
          cases hunread : τ.unread with
          | none =>
              have haccepted : p.accepted (.task k now) = [] := by
                unfold accepted
                rw [readCalls_begun hτ hunread]
                rfl
              rw [haccepted]
              exact ⟨n, hd.later hτ hunread hbegun rfl⟩
          | some buffer =>
              obtain ⟨rfl, hreads, s, hs, haccepted⟩ := hd.reads hp hkey hvalid
                hτ hunread (hone τ buffer hτ hunread)
              rw [haccepted]
              exact ⟨k + 1, hd.call hbegun hreads rfl hs⟩

/-- In every run in which each read returns exactly the next packet, and
its task calls `ReadPacket` before the next read completes, the packets
accepted are the packets sent, from the first on; and all of them, once
all have been read and every task has begun. -/
theorem delivery_accepts (sodium : Sodium) (role : Role) {keys : KeysWrapper}
    {K : Key} (hkeys : keys.sharedKey = K) (now : Int64) {sent : List Sending}
    (hvalid : ∀ (i : Nat) (s : Sending), sent[i]? = some s →
      s.ValidAt role (i + 1)) {es : List Event} {q : Peer} {log : List Packet}
    (h : Run (DeliveryStep sodium K sent) (start role keys now, []) es (q, log)) :
    log <+: sent.map Sending.packet
      ∧ ((∀ τ ∈ q.tasks, τ.unread = none) → q.reads = sent.length →
        log = sent.map Sending.packet) := by
  have hpres : ∀ s e t, (s.1.Sound ∧ s.1.role = role
        ∧ s.1.session.keys.sharedKey = K
        ∧ ∃ n, DeliveredUpTo K sent n s.1 s.2) →
      DeliveryStep sodium K sent s e t →
      t.1.Sound ∧ t.1.role = role ∧ t.1.session.keys.sharedKey = K
        ∧ ∃ n, DeliveredUpTo K sent n t.1 t.2 := by
    rintro s e t ⟨hs, hrole, hkey, n, hd⟩ ⟨⟨⟨hstep, hlog⟩, hkey'⟩, hone⟩
    rw [← hrole] at hvalid
    rw [hlog]
    exact ⟨hs.step hstep, hstep.role_eq.trans hrole, hkey',
      hd.step hs hkey hvalid hstep hone⟩
  have hstart : DeliveredUpTo K sent 0 (start role keys now) [] :=
    ⟨rfl, fun k τ buffer hτ => (by cases hτ), Or.inl rfl⟩
  obtain ⟨n, hd⟩ : ∃ n, DeliveredUpTo K sent n q log :=
    (h.invariant hpres
      ⟨start_sound role keys now, rfl, hkeys, 0, hstart⟩).2.2.2
  refine ⟨?_, ?_⟩
  · rw [hd.log_eq]
    exact (List.take_prefix n sent).map Sending.packet
  · intro hbegun hall
    rcases hd.begun with hreads | ⟨τ, buffer, hτ, hunread⟩
    · rw [hd.log_eq, ← hreads, hall, List.take_length]
    · rw [hbegun τ (List.mem_of_getElem? hτ)] at hunread
      cases hunread

/-- Any packets can be delivered so, up to any of them. -/
theorem delivery_run (sodium : Sodium) (role : Role) (keys : KeysWrapper)
    (now : Int64) {sent : List Sending}
    (hvalid : ∀ (i : Nat) (s : Sending), sent[i]? = some s →
      s.ValidAt role (i + 1)) (n : Nat) (hn : n ≤ sent.length) :
    ∃ es q log, Run (DeliveryStep sodium keys.sharedKey sent)
        (start role keys now, []) es (q, log)
      ∧ q.Sound ∧ q.role = role ∧ q.session.keys.sharedKey = keys.sharedKey
      ∧ q.reads = n ∧ ∀ τ ∈ q.tasks, τ.unread = none := by
  induction n with
  | zero =>
      exact ⟨[], _, _, .nil _, start_sound role keys now, rfl, rfl, rfl,
        fun τ hτ => by cases hτ⟩
  | succ n ih =>
      obtain ⟨es, q, log, hrun, hq, hrole, hkey, hreads, hbegun⟩ :=
        ih (Nat.le_of_succ_le hn)
      obtain ⟨s, hs⟩ : ∃ s, sent[q.reads]? = some s := by
        rw [hreads]
        exact ⟨_, List.getElem?_eq_getElem hn⟩
      have hat := hvalid _ _ hs
      rw [← hrole] at hat
      have hlen : (s.wire q.session.keys.sharedKey.val ++ []).length
          ≤ tcpTotalPacketSize := by
        rw [List.append_nil]
        exact created_length_le hat.1 _ _ _ _ _
      obtain ⟨p₁, q', h₁, h₂, htasks, haccepted, hkeys₁, hkeys, τ, htasks',
        hτ⟩ := deliver_one sodium hq hat (fresh_self s.time) hlen
      rw [List.append_nil] at h₁ htasks
      have hkey₁ : p₁.session.keys.sharedKey = keys.sharedKey := by
        rw [hkeys₁, hkey]
      have hkey' : q'.session.keys.sharedKey = keys.sharedKey := by
        rw [hkeys, hkey]
      have hread : DeliveryStep sodium keys.sharedKey sent (q, log)
          (.read (s.wire q.session.keys.sharedKey.val) s.time) (p₁, log) :=
        ⟨⟨⟨h₁, (List.append_nil log).symm⟩, hkey₁⟩, ⟨s, hs, by rw [hkey]⟩, hbegun⟩
      have htask : DeliveryStep sodium keys.sharedKey sent (p₁, log)
          (.task q.reads s.time) (q', log ++ [s.packet]) := by
        refine ⟨⟨⟨h₂, congrArg (log ++ ·) haccepted.symm⟩, hkey'⟩, ?_⟩
        intro τ' buffer hτ' hunread
        rw [htasks, List.getElem?_concat_length] at hτ'
        cases hτ'
        rw [Role.task_unread] at hunread
        cases hunread
        rw [readBuffer, Sending.headerOf_wire hat.1]
        exact fresh_self s.time
      refine ⟨_, q', _, (hrun.snoc hread).snoc htask, (hq.step h₁).step h₂,
        (h₂.role_eq.trans h₁.role_eq).trans hrole, hkey', ?_, ?_⟩
      · unfold Peer.reads
        rw [htasks', List.length_append, ← hreads]
        rfl
      · intro τ' hτ'
        rw [htasks'] at hτ'
        rcases List.mem_append.mp hτ' with hold | hnew
        · exact hbegun τ' hold
        · rw [List.mem_singleton.mp hnew]
          exact hτ

-- ==================================================== two packets, one read

/-- A client's message that is not encrypted. -/
def plainSending : Sending where
  time := 1000
  payload := [7]
  version := 1
  flags := Flags.noCrypto
  nonce := 0
  messageId := 4

/-- Such messages are valid at every position. -/
theorem plainSending_valid (i : Nat) (s : Sending)
    (h : [plainSending, plainSending][i]? = some s) :
    s.ValidAt .server (i + 1) := by
  have hs : s = plainSending := by
    have hmem := List.mem_of_getElem? h
    simpa using hmem
  rw [hs]
  exact ⟨by decide, fun hcrypto => absurd (by decide) hcrypto⟩

/-- Two unencrypted messages, one read each. -/
theorem delivery_accepts_two :
    ∃ q log, ((q, log) : Peer × List Packet).1.reads = 2
      ∧ log = [plainSending.packet, plainSending.packet] := by
  obtain ⟨es, q, log, hrun, -, -, -, hreads, hbegun⟩ :=
    delivery_run ⟨id, fun _ _ => none, id⟩ .server ⟨Key.zero, Key.zero⟩ 0
      plainSending_valid 2 le_rfl
  exact ⟨q, log, hreads, (delivery_accepts ⟨id, fun _ _ => none, id⟩ .server rfl
    0 plainSending_valid hrun).2 hbegun hreads⟩

/-- The same two messages in one read: the second is lost. -/
theorem coalesced_lost :
    ¬∀ (sodium : Sodium) (role : Role) (keys : KeysWrapper) (now : Int64)
        (sent : List Sending) (chunks : List (Bytes × Int64)),
        (∀ (i : Nat) (s : Sending), sent[i]? = some s →
          s.ValidAt role (i + 1)) →
        (∀ s ∈ sent, ∀ c ∈ chunks, Fresh c.2 s.time.toUInt64) →
        (chunks.map Prod.fst).flatten
          = (sent.map fun s => s.wire keys.sharedKey.val).flatten →
        (∀ c ∈ chunks, c.1 ≠ [] ∧ c.1.length ≤ tcpTotalPacketSize) →
        ∀ q log, Run (Logged (Step sodium) accepted) (start role keys now, [])
            (delivery 0 chunks) (q, log) →
          log = sent.map Sending.packet := by
  intro hall
  let sodium : Sodium := ⟨id, fun _ _ => none, id⟩
  let keys : KeysWrapper := ⟨Key.zero, Key.zero⟩
  let chunk : Bytes :=
    plainSending.wire Key.zero.val ++ plainSending.wire Key.zero.val
  have hvalid : plainSending.ValidAt .server (0 + 1) :=
    plainSending_valid 0 plainSending rfl
  have hfresh : ∀ s ∈ [plainSending, plainSending],
      ∀ c ∈ [(chunk, (1000 : Int64))], Fresh c.2 s.time.toUInt64 := by
    intro s hs c hc
    rw [List.mem_singleton.mp hc,
      show s = plainSending by simpa using hs]
    exact fresh_self 1000
  have hlen : chunk.length ≤ tcpTotalPacketSize := by decide +kernel
  obtain ⟨p₁, q, h₁, h₂, -, haccepted, -⟩ := deliver_one sodium
    (start_sound .server keys 0) hvalid (fresh_self 1000) hlen
  have htask : Logged (Step sodium) accepted (p₁, []) (.task 0 1000)
    (q, [plainSending.packet]) := ⟨h₂, haccepted.symm⟩
  have hrun : Run (Logged (Step sodium) accepted) (start .server keys 0, [])
      (delivery 0 [(chunk, 1000)]) (q, [plainSending.packet]) :=
    .cons (⟨h₁, rfl⟩ : Logged _ _ _ _ (p₁, [])) (.cons htask (.nil _))
  have hlost := hall sodium .server keys 0 [plainSending, plainSending]
    [(chunk, 1000)] plainSending_valid hfresh rfl
    (fun c hc => by
      rw [List.mem_singleton.mp hc]
      exact ⟨by decide +kernel, hlen⟩) q _ hrun
  exact absurd (congrArg List.length hlost) (by decide)

end Peer

end Remc.Net
