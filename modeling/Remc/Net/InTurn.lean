/-
Two schedules of one stream.

A task decrypts with the counter and the key that it finds. The counter is
the one of its position if the next read has not completed; the key is the
one of its position if the tasks before it have set theirs. Where every
task comes in turn in this sense (`InTurn`), the calls of `ReadPacket` come
in the order of the reads, and each call finds the keys that the one before
it leaves (`InOrder`). So what a call returns is decided by the stream up to
its packet, whatever the schedule (`readCalls_iff`).

Two things that no schedule of the pool decides are the same for both runs:
whether the clock finds a packet fresh, and which callback a client has for
it.
-/
import Remc.Net.Handshake.Agreement

namespace Remc.Net

open Crypto Runs

variable {sodium : Sodium}

-- ============================================================ one ReadPacket

/-- A check asks the clock only whether the packet is fresh. -/
theorem checkPacket_fresh {now now' : Int64} {packet : Packet}
    (h : Fresh now packet.header.timestamp
      ↔ Fresh now' packet.header.timestamp) :
    checkPacket now packet = checkPacket now' packet := by
  unfold checkPacket
  by_cases hfresh : Fresh now packet.header.timestamp
  · rw [if_neg hfresh, if_neg (h.mp hfresh)]
  · rw [if_pos (not_not.mp hfresh), if_pos (not_not.mp (mt h.mpr hfresh))]

/-- So does `ReadPacket`. -/
theorem readPacket_fresh {now now' : Int64} {w : Bytes} {key : Bytes}
    (hkey : key.length = 32)
    (h : Fresh now (headerOf w).timestamp ↔ Fresh now' (headerOf w).timestamp)
    (nonce : UInt64) :
    readPacket now w nonce key = readPacket now' w nonce key := by
  by_cases hcomplete : Complete w
  · rw [readPacket_complete hkey hcomplete, readPacket_complete hkey hcomplete]
    cases hdecode : decodePayload (packetOf w) key nonce with
    | error v => rfl
    | ok decoded =>
        cases decoded with
        | error e => rfl
        | ok p =>
            have htime : p.header.timestamp = (headerOf w).timestamp := by
              rw [decodePayload_header hdecode]
              split <;> rfl
            refine congrArg Except.ok (checkPacket_fresh ?_)
            rw [htime]
            exact h
  · -- without a packet the clock is not read
    obtain ⟨p, e, he, hread⟩ := quickDeserialization_not_complete hcomplete
    unfold readPacket
    rw [hread]
    dsimp only
    rw [if_pos he, if_pos he]

/-- The id of an accepted packet is the one on the wire. -/
theorem accepted_messageId {w : Bytes} {p : Packet} {now : Int64}
    {nonce : UInt64} {key : Bytes} (hkey : key.length = 32)
    (h : readPacket now w nonce key = .ok (.ok p)) :
    p.header.messageId = (headerOf w).messageId := by
  obtain ⟨-, hdecode, -⟩ := readPacket_accepted hkey h
  rw [decodePayload_header hdecode]
  split <;> rfl

-- ============================================================ keys and tasks

namespace Task

/-- What is left of it does not touch the keys. -/
def LeavesKeys : Task → Prop
  | .serverAnswer packet => packet.header.flags ≠ Flags.handshake
  | .done => True
  | _ => False

/-- The keys when the rest of a task that has begun has run, if nothing
else changes them. -/
def keysLeft (sodium : Sodium) (keys : KeysWrapper) :
    Task → Checked KeysWrapper
  | .serverAnswer packet =>
      if packet.header.flags = Flags.handshake then
        (keys.computeSharedKey sodium packet.payload).map Prod.snd
      else .ok keys
  | .serverKey payload => (keys.computeSharedKey sodium payload).map Prod.snd
  | .clientCallback cb packet => cb packet keys
  | _ => .ok keys

theorem LeavesKeys.keysLeft {τ : Task} (h : τ.LeavesKeys) (sodium : Sodium)
    (keys : KeysWrapper) : τ.keysLeft sodium keys = .ok keys := by
  cases τ with
  | serverAnswer packet => exact if_neg h
  | done => rfl
  | serverRead buffer => cases h
  | serverKey payload => cases h
  | clientRead buffer => cases h
  | clientCallback cb packet => cases h

/-- A task that leaves the keys alone goes on to do so. -/
theorem LeavesKeys.run {now : Int64} {s : Session} {τ : Task} {r : TaskResult}
    (h : τ.LeavesKeys) (hrun : τ.run sodium now s = .ok r) :
    r.session.keys = s.keys ∧ r.task.LeavesKeys := by
  cases τ with
  | serverAnswer packet =>
      cases hrun
      unfold SessionServer.callbackAnswer
      rw [if_neg h]
      split <;> exact ⟨rfl, trivial⟩
  | done =>
      cases hrun
      exact ⟨rfl, trivial⟩
  | serverRead buffer => cases h
  | serverKey payload => cases h
  | clientRead buffer => cases h
  | clientCallback cb packet => cases h

/-- A part of a task that has begun does its part of the keys. -/
theorem keysLeft_run {now : Int64} {s : Session} {τ : Task} {r : TaskResult}
    (hbegun : τ.unread = none) (hrun : τ.run sodium now s = .ok r) :
    r.task.keysLeft sodium r.session.keys = τ.keysLeft sodium s.keys := by
  cases τ with
  | serverAnswer packet =>
      by_cases hflags : packet.header.flags = Flags.handshake
      · cases hrun
        unfold SessionServer.callbackAnswer
        rw [if_pos hflags]
        exact (if_pos hflags).symm
      · have hleaves : LeavesKeys (.serverAnswer packet) := hflags
        obtain ⟨hkeys, htask⟩ := hleaves.run hrun
        rw [htask.keysLeft, hleaves.keysLeft, hkeys]
  | serverKey payload =>
      obtain ⟨⟨ok, keys⟩, hkeys, hr⟩ := bind_eq_ok hrun
      cases hr
      show Except.ok keys = (s.keys.computeSharedKey sodium payload).map Prod.snd
      rw [hkeys]
      rfl
  | clientCallback cb packet =>
      obtain ⟨keys, hkeys, hr⟩ := bind_eq_ok hrun
      cases hr
      exact hkeys.symm
  | done =>
      cases hrun
      rfl
  | serverRead buffer => cases hbegun
  | clientRead buffer => cases hbegun

end Task

/-- Where a task stands after its `ReadPacket`, with this callback for the
packet's id. -/
def Role.taskAfter (callback : Option WriteCallback)
    (result : Except PacketError Packet) : Role → Task
  | .server =>
      match result with
      | .ok packet => .serverAnswer packet
      | .error _ => .done
  | .client =>
      match result, callback with
      | .ok packet, some cb => .clientCallback cb packet
      | _, _ => .done

theorem Role.afterRead_task {now : Int64} {buffer : Bytes} {nonce : UInt64}
    {s : Session} {result : Except PacketError Packet} (role : Role)
    (h : readPacket now buffer nonce s.keys.sharedKey.val = .ok result) :
    (role.afterRead s result).task
      = role.taskAfter (s.taskQueue (headerOf buffer).messageId) result := by
  cases result with
  | error e => cases role <;> rfl
  | ok packet =>
      cases role with
      | server => rfl
      | client =>
          rw [← accepted_messageId s.keys.sharedKey.property h]
          show (SessionClient.afterRead s (.ok packet)).task = _
          unfold SessionClient.afterRead Role.taskAfter
          dsimp only
          cases s.taskQueue packet.header.messageId <;> rfl

/-- What the decryption of its packet gives. -/
def ReadCall.decoded (c : ReadCall) : Checked (Except PacketError Packet) :=
  decodePayload (quickDeserialization c.buffer).1 c.key.val c.nonce

/-- A call with all the keys of its session, and with the callback that
waits for the id in its buffer. -/
structure KeyedCall extends ReadCall where
  keys : KeysWrapper
  callback : Option WriteCallback

namespace KeyedCall

/-- The keys when the task of a call has finished. -/
def keysAfter (sodium : Sodium) (role : Role) (c : KeyedCall) :
    Checked KeysWrapper := do
  let result ← c.outcome
  (role.taskAfter c.callback result).keysLeft sodium c.keys

/-- The clock finds the packets of two calls fresh or not alike, and a
client has the same callback for them. -/
structure Alike (role : Role) (c d : KeyedCall) : Prop where
  fresh : Fresh c.now (headerOf c.buffer).timestamp
    ↔ Fresh d.now (headerOf d.buffer).timestamp
  callback : role = .client → c.callback = d.callback

/-- Two calls for one packet with one nonce and the same keys return the
same, and leave the same keys. -/
theorem Alike.same {role : Role} {c d : KeyedCall} (h : c.Alike role d)
    (hbuffer : c.buffer = d.buffer) (hnonce : c.nonce = d.nonce)
    (hkey : c.key = d.key) (hkeys : c.keys = d.keys) (sodium : Sodium) :
    c.outcome = d.outcome
      ∧ c.keysAfter sodium role = d.keysAfter sodium role := by
  have houtcome : c.outcome = d.outcome := by
    unfold ReadCall.outcome
    rw [hnonce, hkey, ← hbuffer]
    exact readPacket_fresh d.key.property (hbuffer ▸ h.fresh) d.nonce
  refine ⟨houtcome, ?_⟩
  unfold keysAfter
  rw [houtcome, hkeys]
  cases role with
  | server => rfl
  | client => rw [h.callback rfl]

end KeyedCall

-- =================================================================== in turn

namespace Peer

/-- The call that an event makes. -/
def keyedCalls (p : Peer) (e : Event) : List KeyedCall :=
  (p.readCalls e).map fun c => { c with
    keys := p.session.keys
    callback := p.session.taskQueue (headerOf c.buffer).messageId }

theorem keyedCalls_task {p : Peer} {k : Nat} {buffer : Bytes} {nonce : UInt64}
    (hτ : p.tasks[k]? = some (p.role.task buffer))
    (hnonce : p.role.readNonce p.session = nonce) (now : Int64) :
    p.keyedCalls (.task k now)
      = [{ position := k + 1, now, buffer, nonce
           key := p.session.keys.sharedKey
           keys := p.session.keys
           callback := p.session.taskQueue (headerOf buffer).messageId }] := by
  subst hnonce
  rw [keyedCalls, readCalls_task hτ]
  rfl

theorem keyedCalls_eq_nil {p : Peer} {e : Event} (h : p.readCalls e = []) :
    p.keyedCalls e = [] := by
  rw [keyedCalls, h]
  rfl

/-- A task calls `ReadPacket` before the next read completes, and when the
tasks of all earlier reads have called it and have no more to do with the
keys. -/
def InTurn (p : Peer) (e : Event) : Prop :=
  p.Prompt e ∧ ∀ c ∈ p.readCalls e, ∀ k τ, k + 1 < c.position →
    p.tasks[k]? = some τ → τ.LeavesKeys

/-- The reads return these bytes, one after the other. -/
def ReadsFrom (stream : List Bytes) (p : Peer) : Event → Prop
  | .read chunk _ => stream[p.reads]? = some chunk
  | _ => True

/-- The keys for the next call when these have been made in turn. -/
def keysDue (sodium : Sodium) (role : Role) (keys : KeysWrapper)
    (log : List KeyedCall) : Checked KeysWrapper :=
  match log.getLast? with
  | none => .ok keys
  | some c => c.keysAfter sodium role

end Peer

/-- The call for the packet at a place in the stream, with the nonce of the
place and the keys that the calls before it leave. -/
structure KeyedCall.At (sodium : Sodium) (role : Role) (keys : KeysWrapper)
    (stream : List Bytes) (i : Nat) (log : List KeyedCall) (c : KeyedCall) :
    Prop where
  position : c.position = i + 1
  nonce : c.nonce = role.nonceAt (i + 1)
  buffer : ∃ chunk, stream[i]? = some chunk ∧ c.buffer = readBuffer chunk
  key : c.key = c.keys.sharedKey
  keys : Peer.keysDue sodium role keys (log.take i) = .ok c.keys

/-- A later call does not change where the earlier ones stand. -/
theorem KeyedCall.At.concat {role : Role} {keys : KeysWrapper}
    {stream : List Bytes} {i : Nat} {log : List KeyedCall} {c : KeyedCall}
    (h : c.At sodium role keys stream i log) (hi : i ≤ log.length)
    (d : KeyedCall) : c.At sodium role keys stream i (log ++ [d]) := by
  refine ⟨h.position, h.nonce, h.buffer, h.key, ?_⟩
  rw [List.take_append_of_le_length hi]
  exact h.keys

namespace Peer

/-- The calls so far are those for the first packets of the stream, each
with the keys that the ones before it leave; the tasks of the others wait,
and only the last that has begun may still change the keys. -/
structure InOrder (sodium : Sodium) (role : Role) (keys : KeysWrapper)
    (stream : List Bytes) (p : Peer) (log : List KeyedCall) : Prop where
  sound : p.Sound
  role_eq : p.role = role
  length_le : log.length ≤ p.reads
  calls : ∀ (i : Nat) (c : KeyedCall), log[i]? = some c →
    c.At sodium role keys stream i log
  waiting : ∀ k, log.length ≤ k → k < p.reads →
    ∃ chunk, stream[k]? = some chunk
      ∧ p.tasks[k]? = some (role.task (readBuffer chunk))
  begun : ∀ k τ, k < log.length → p.tasks[k]? = some τ → τ.unread = none
  settled : ∀ k τ, k + 1 < log.length → p.tasks[k]? = some τ → τ.LeavesKeys
  last : ∀ k τ, k + 1 = log.length → p.tasks[k]? = some τ →
    τ.keysLeft sodium p.session.keys = keysDue sodium role keys log
  first : log = [] → p.session.keys = keys

variable {role : Role} {keys : KeysWrapper} {stream : List Bytes} {p q : Peer}
  {log : List KeyedCall}

theorem start_inOrder (sodium : Sodium) (role : Role) (keys : KeysWrapper)
    (stream : List Bytes) (now : Int64) :
    InOrder sodium role keys stream (start role keys now) [] where
  sound := start_sound role keys now
  role_eq := rfl
  length_le := le_rfl
  calls i c hc := by cases hc
  waiting k _ hk := absurd hk (Nat.not_lt_zero k)
  begun k τ hk := absurd hk (Nat.not_lt_zero k)
  settled k τ hk := absurd hk (Nat.not_lt_zero _)
  last k τ hk := by cases hk
  first _ := rfl

/-- What changes neither tasks nor keys keeps the order. -/
theorem InOrder.same (h : InOrder sodium role keys stream p log)
    (hsound : q.Sound) (hrole : q.role = p.role) (htasks : q.tasks = p.tasks)
    (hkeys : q.session.keys = p.session.keys) :
    InOrder sodium role keys stream q log := by
  refine ⟨hsound, hrole.trans h.role_eq, ?_, h.calls, ?_, ?_, ?_, ?_, ?_⟩
  · show log.length ≤ q.tasks.length
    rw [htasks]
    exact h.length_le
  · show ∀ k, log.length ≤ k → k < q.tasks.length → _
    rw [htasks]
    exact h.waiting
  · rw [htasks]
    exact h.begun
  · rw [htasks]
    exact h.settled
  · rw [htasks, hkeys]
    exact h.last
  · rw [hkeys]
    exact h.first

/-- A read of the next packet adds a task that waits. -/
theorem InOrder.read (h : InOrder sodium role keys stream p log) {chunk : Bytes}
    {now : Int64} (hstep : Step sodium p (.read chunk now) q)
    (hstream : stream[p.reads]? = some chunk) :
    InOrder sodium role keys stream q log := by
  have hsound := h.sound.step hstep
  cases hstep
  have hold : ∀ {k : Nat}, k < p.reads →
      (p.completeRead now chunk).tasks[k]? = p.tasks[k]? :=
    fun hk => List.getElem?_append_left hk
  have hlength : (p.completeRead now chunk).reads = p.reads + 1 :=
    List.length_append
  have hlast : (p.completeRead now chunk).tasks[p.reads]?
      = some (p.role.task (readBuffer chunk)) := List.getElem?_concat_length
  have hle := h.length_le
  refine ⟨hsound, h.role_eq, ?_, h.calls, ?_, ?_, ?_, ?_, h.first⟩
  · omega
  · intro k hk hlt
    rcases Nat.lt_or_ge k p.reads with hbefore | hafter
    · rw [hold hbefore]
      exact h.waiting k hk hbefore
    · obtain rfl : k = p.reads := by omega
      refine ⟨chunk, hstream, ?_⟩
      rw [hlast, h.role_eq]
  · intro k τ hk hτ
    exact h.begun k τ hk ((hold (by omega)).symm.trans hτ)
  · intro k τ hk hτ
    exact h.settled k τ hk ((hold (by omega)).symm.trans hτ)
  · intro k τ hk hτ
    exact h.last k τ hk ((hold (by omega)).symm.trans hτ)

/-- A task that has begun goes on. -/
theorem InOrder.goes_on (h : InOrder sodium role keys stream p log) {k : Nat}
    {now : Int64} {τ : Task} {r : TaskResult} (hτ : p.tasks[k]? = some τ)
    (hrun : τ.run sodium now p.session = .ok r) (hbegun : τ.unread = none)
    (hstep : Step sodium p (.task k now)
      { p with
        session := r.session
        posted := p.posted ++ r.posted
        tasks := p.tasks.set k r.task }) :
    InOrder sodium role keys stream
      { p with
        session := r.session
        posted := p.posted ++ r.posted
        tasks := p.tasks.set k r.task } log := by
  have hlt := (List.getElem?_eq_some_iff.mp hτ).1
  have hk : k < log.length := by
    by_contra hge
    obtain ⟨chunk, -, htask⟩ := h.waiting k (Nat.le_of_not_lt hge) hlt
    rw [hτ] at htask
    cases htask
    rw [Role.task_unread] at hbegun
    cases hbegun
  have hset : ∀ {j : Nat} {σ : Task}, (p.tasks.set k r.task)[j]? = some σ →
      (j = k ∧ σ = r.task) ∨ (k ≠ j ∧ p.tasks[j]? = some σ) := by
    intro j σ hσ
    rcases eq_or_ne k j with rfl | hne
    · rw [List.getElem?_set_self hlt] at hσ
      cases hσ
      exact Or.inl ⟨rfl, rfl⟩
    · rw [List.getElem?_set_ne hne] at hσ
      exact Or.inr ⟨hne, hσ⟩
  -- only the last task that has begun may change the keys
  have hkeys : k + 1 < log.length →
      r.session.keys = p.session.keys ∧ r.task.LeavesKeys :=
    fun hsettled => (h.settled k τ hsettled hτ).run hrun
  refine ⟨h.sound.step hstep, h.role_eq, ?_, h.calls, ?_, ?_, ?_, ?_, ?_⟩
  · show log.length ≤ (p.tasks.set k r.task).length
    rw [List.length_set]
    exact h.length_le
  · intro j hj hjlt
    have hjlt' : j < p.reads := by
      rwa [show reads _ = _ from List.length_set] at hjlt
    obtain ⟨chunk, hstream, htask⟩ := h.waiting j hj hjlt'
    refine ⟨chunk, hstream, ?_⟩
    exact (List.getElem?_set_ne (by omega)).trans htask
  · intro j σ hj hσ
    rcases hset hσ with ⟨-, rfl⟩ | ⟨-, hsame⟩
    · exact (Task.run_frame hrun).2.2.2.2
    · exact h.begun j σ hj hsame
  · intro j σ hj hσ
    rcases hset hσ with ⟨rfl, rfl⟩ | ⟨-, hsame⟩
    · exact (hkeys hj).2
    · exact h.settled j σ hj hsame
  · intro j σ hj hσ
    rcases hset hσ with ⟨rfl, rfl⟩ | ⟨hne, hsame⟩
    · exact (Task.keysLeft_run hbegun hrun).trans (h.last j τ hj hτ)
    · show σ.keysLeft sodium r.session.keys = _
      rw [(hkeys (by omega)).1]
      exact h.last j σ hj hsame
  · rintro rfl
    exact absurd hk (Nat.not_lt_zero k)

theorem keysDue_concat (sodium : Sodium) (role : Role) (keys : KeysWrapper)
    (log : List KeyedCall) (c : KeyedCall) :
    keysDue sodium role keys (log ++ [c]) = c.keysAfter sodium role := by
  rw [keysDue, List.getLast?_concat]

/-- The next call in turn is for the next packet. -/
theorem InOrder.next (h : InOrder sodium role keys stream p log) {k : Nat}
    {now : Int64} {buffer : Bytes}
    (hτ : p.tasks[k]? = some (p.role.task buffer))
    (hturn : p.InTurn (.task k now)) :
    k = log.length ∧ keysDue sodium role keys log = .ok p.session.keys := by
  have hlt := (List.getElem?_eq_some_iff.mp hτ).1
  have hleaves : ∀ j τ, j < k → p.tasks[j]? = some τ → τ.LeavesKeys := by
    intro j τ hj hget
    have hothers := hturn.2
    rw [readCalls_task hτ] at hothers
    exact hothers _ (List.mem_singleton_self _) j τ (Nat.succ_lt_succ hj) hget
  obtain rfl : k = log.length := by
    rcases Nat.lt_trichotomy k log.length with hbegun | heq | hwaiting
    · have hunread := h.begun k _ hbegun hτ
      rw [Role.task_unread] at hunread
      cases hunread
    · exact heq
    · -- the task of the next packet has not begun, and is not passed over
      obtain ⟨chunk, -, htask⟩ := h.waiting log.length le_rfl (by
        show log.length < p.tasks.length
        omega)
      have hbad := hleaves _ _ hwaiting htask
      cases role <;> cases hbad
  refine ⟨rfl, ?_⟩
  rcases List.eq_nil_or_concat log with rfl | ⟨before, c, rfl⟩
  · rw [h.first rfl]
    rfl
  · have hpos : before.length < (before.concat c).length := by
      rw [List.length_concat]
      exact Nat.lt_succ_self _
    obtain ⟨τ, hlast⟩ : ∃ τ, p.tasks[before.length]? = some τ :=
      ⟨_, List.getElem?_eq_getElem (hpos.trans hlt)⟩
    rw [← h.last before.length τ (List.length_concat ..).symm hlast]
    exact (hleaves before.length τ hpos hlast).keysLeft sodium _

/-- And finds the keys that the one before it leaves. -/
theorem InOrder.call (h : InOrder sodium role keys stream p log) {k : Nat}
    {now : Int64} {buffer : Bytes} {r : TaskResult}
    (hτ : p.tasks[k]? = some (p.role.task buffer))
    (hrun : (p.role.task buffer).run sodium now p.session = .ok r)
    (hturn : p.InTurn (.task k now))
    (hstep : Step sodium p (.task k now)
      { p with
        session := r.session
        posted := p.posted ++ r.posted
        tasks := p.tasks.set k r.task }) :
    InOrder sodium role keys stream
      { p with
        session := r.session
        posted := p.posted ++ r.posted
        tasks := p.tasks.set k r.task } (log ++ p.keyedCalls (.task k now)) := by
  obtain ⟨rfl, hdue⟩ := h.next hτ hturn
  have hlt := (List.getElem?_eq_some_iff.mp hτ).1
  obtain ⟨c, hc⟩ : ∃ c : KeyedCall, c = {
      position := log.length + 1, now, buffer
      nonce := p.role.readNonce p.session
      key := p.session.keys.sharedKey
      keys := p.session.keys
      callback := p.session.taskQueue (headerOf buffer).messageId } := ⟨_, rfl⟩
  have hcalls : p.keyedCalls (.task log.length now) = [c] := by
    rw [hc]
    exact keyedCalls_task hτ rfl now
  have hmem : c.toReadCall ∈ p.readCalls (.task log.length now) := by
    rw [readCalls_task hτ, hc]
    exact List.mem_singleton_self _
  rw [hcalls]
  have hnonce : c.nonce = role.nonceAt (log.length + 1) := by
    obtain ⟨hone, hle, heq⟩ := readCalls_spec h.sound hmem
    have hprompt := hturn.1 _ hmem
    rw [heq, ← h.role_eq]
    rw [hc] at hone hle hprompt
    exact (Role.readNonce_eq_iff h.sound.counter hone hle).mpr hprompt
  obtain ⟨chunk, hstream, htask⟩ := h.waiting log.length le_rfl hlt
  have hbuffer : c.buffer = readBuffer chunk := by
    rw [hτ, h.role_eq] at htask
    have hunread := congrArg Task.unread (Option.some.inj htask)
    rw [Role.task_unread, Role.task_unread] at hunread
    rw [hc]
    exact Option.some.inj hunread
  -- the task goes on with what `ReadPacket` has returned
  have hleft : r.task.keysLeft sodium r.session.keys
      = c.keysAfter sodium role := by
    obtain ⟨result, hread, rfl⟩ := Role.task_result hrun
    have houtcome : c.outcome = .ok result := by
      rw [hc]
      exact hread
    rw [Role.afterRead_task p.role hread, (Role.afterRead_frame _ _ _).1,
      h.role_eq, KeyedCall.keysAfter, houtcome, hc]
    rfl
  have hlength : (log ++ [c]).length = log.length + 1 := List.length_append
  have hset : ∀ {j : Nat} {σ : Task}, log.length ≠ j →
      (p.tasks.set log.length r.task)[j]? = some σ → p.tasks[j]? = some σ :=
    fun hne hσ => by rwa [List.getElem?_set_ne hne] at hσ
  refine ⟨h.sound.step hstep, h.role_eq, ?_, ?_, ?_, ?_, ?_, ?_, ?_⟩
  · show (log ++ [c]).length ≤ (p.tasks.set log.length r.task).length
    rw [List.length_set, hlength]
    exact hlt
  · intro i d hd
    rcases Nat.lt_trichotomy i log.length with hi | rfl | hi
    · rw [List.getElem?_append_left hi] at hd
      exact (h.calls i d hd).concat hi.le c
    · rw [List.getElem?_concat_length] at hd
      cases hd
      refine ⟨by rw [hc], hnonce, ⟨chunk, hstream, hbuffer⟩, by rw [hc], ?_⟩
      rw [List.take_left, hdue, hc]
    · rw [List.getElem?_eq_none (by omega)] at hd
      cases hd
  · intro j hj hjlt
    have hjlt' : j < p.reads := by
      rwa [show reads _ = _ from List.length_set] at hjlt
    obtain ⟨chunk', hstream', htask'⟩ := h.waiting j (by omega) hjlt'
    exact ⟨chunk', hstream',
      (List.getElem?_set_ne (by omega)).trans htask'⟩
  · intro j σ hj hσ
    rcases eq_or_ne log.length j with rfl | hne
    · rw [List.getElem?_set_self hlt] at hσ
      cases hσ
      exact (Task.run_frame hrun).2.2.2.2
    · exact h.begun j σ (by omega) (hset hne hσ)
  · intro j σ hj hσ
    have hget := hset (by omega) hσ
    refine hturn.2 _ hmem j σ ?_ hget
    rw [hc]
    dsimp only
    omega
  · intro j σ hj hσ
    obtain rfl : j = log.length := by omega
    rw [List.getElem?_set_self hlt] at hσ
    cases hσ
    rw [keysDue_concat]
    exact hleft
  · intro hnil
    exact absurd hnil (List.append_ne_nil_of_right_ne_nil _ (List.cons_ne_nil _ _))

/-- Every step of a run in turn keeps the order. -/
theorem InOrder.step (h : InOrder sodium role keys stream p log) {e : Event}
    (hstep : Step sodium p e q) (hturn : p.InTurn e)
    (hreads : p.ReadsFrom stream e) :
    InOrder sodium role keys stream q (log ++ p.keyedCalls e) := by
  have hsound := h.sound.step hstep
  cases e with
  | write w =>
      rw [show p.keyedCalls (.write w) = [] from rfl, List.append_nil]
      cases hstep
      exact h.same hsound rfl rfl rfl
  | handler now drawn =>
      rw [show p.keyedCalls (.handler now drawn) = [] from rfl, List.append_nil]
      obtain ⟨w, rest, messageQueue, -, -, rfl⟩ := handler_step h.sound hstep
      exact h.same hsound rfl rfl rfl
  | transfer i n =>
      rw [show p.keyedCalls (.transfer i n) = [] from rfl, List.append_nil]
      cases hstep
      exact h.same hsound rfl rfl rfl
  | written i ec now =>
      rw [show p.keyedCalls (.written i ec now) = [] from rfl, List.append_nil]
      obtain ⟨w, hw, -, rfl⟩ := written_step h.sound hstep
      exact h.same hsound rfl rfl rfl
  | close =>
      rw [show p.keyedCalls .close = [] from rfl, List.append_nil]
      obtain ⟨isOpen, messageQueue, -, rfl⟩ := close_step h.sound hstep
      exact h.same hsound rfl rfl rfl
  | read chunk now =>
      rw [show p.keyedCalls (.read chunk now) = [] from rfl, List.append_nil]
      exact h.read hstep hreads
  | task k now =>
      have htask := hstep
      cases hstep with
      | @task _ _ τ r hτ hrun =>
          cases hunread : τ.unread with
          | none =>
              rw [keyedCalls_eq_nil (readCalls_begun hτ hunread now),
                List.append_nil]
              exact h.goes_on hτ hrun hunread htask
          | some buffer =>
              obtain rfl := h.sound.unread hτ hunread
              exact h.call hτ hrun hturn htask

-- ================================================================== two runs

/-- Up to a position, the calls of two runs are alike. -/
def AlikeBefore (role : Role) (n : Nat) (log log' : List KeyedCall) : Prop :=
  ∀ c ∈ log, ∀ d ∈ log', c.position = d.position → c.position < n →
    c.Alike role d

/-- The calls that two runs in turn make for one packet have the same
nonce and the same keys. -/
theorem InOrder.agree {log' : List KeyedCall}
    (h : InOrder sodium role keys stream p log)
    (h' : InOrder sodium role keys stream q log') (i : Nat) :
    ∀ c d : KeyedCall, log[i]? = some c → log'[i]? = some d →
      AlikeBefore role (i + 1) log log' →
      c.buffer = d.buffer ∧ c.nonce = d.nonce ∧ c.key = d.key
        ∧ c.keys = d.keys := by
  have hplace : ∀ (i : Nat) (c d : KeyedCall), log[i]? = some c →
      log'[i]? = some d → c.buffer = d.buffer ∧ c.nonce = d.nonce := by
    intro i c d hc hd
    obtain ⟨-, hnonce, ⟨chunk, hstream, hbuffer⟩, -, -⟩ := h.calls i c hc
    obtain ⟨-, hnonce', ⟨chunk', hstream', hbuffer'⟩, -, -⟩ := h'.calls i d hd
    rw [hstream] at hstream'
    cases hstream'
    exact ⟨hbuffer.trans hbuffer'.symm, hnonce.trans hnonce'.symm⟩
  have hkey : ∀ (i : Nat) (c d : KeyedCall), log[i]? = some c →
      log'[i]? = some d → c.keys = d.keys → c.key = d.key := by
    intro i c d hc hd hkeys
    rw [(h.calls i c hc).key, (h'.calls i d hd).key, hkeys]
  induction i with
  | zero =>
      intro c d hc hd _
      obtain ⟨hbuffer, hnonce⟩ := hplace 0 c d hc hd
      have hkeys := (h.calls 0 c hc).keys
      have hkeys' := (h'.calls 0 d hd).keys
      rw [List.take_zero] at hkeys hkeys'
      have hsame : c.keys = d.keys := Except.ok.inj (hkeys.symm.trans hkeys')
      exact ⟨hbuffer, hnonce, hkey 0 c d hc hd hsame, hsame⟩
  | succ i ih =>
      intro c d hc hd halike
      obtain ⟨hbuffer, hnonce⟩ := hplace (i + 1) c d hc hd
      have hlt := (List.getElem?_eq_some_iff.mp hc).1
      have hlt' := (List.getElem?_eq_some_iff.mp hd).1
      obtain ⟨c', hc'⟩ : ∃ c', log[i]? = some c' :=
        ⟨_, List.getElem?_eq_getElem (by omega)⟩
      obtain ⟨d', hd'⟩ : ∃ d', log'[i]? = some d' :=
        ⟨_, List.getElem?_eq_getElem (by omega)⟩
      obtain ⟨hbuffer', hnonce', hkey', hkeys'⟩ := ih c' d' hc' hd'
        fun a ha b hb hab hlt => halike a ha b hb hab (by omega)
      -- the calls before these two return the same and leave the same keys
      have hposition := (h.calls i c' hc').position
      have halike' : c'.Alike role d' :=
        halike c' (List.mem_of_getElem? hc') d' (List.mem_of_getElem? hd')
          (hposition.trans (h'.calls i d' hd').position.symm) (by omega)
      obtain ⟨-, hleft⟩ :=
        halike'.same hbuffer' hnonce' hkey' hkeys' sodium
      have hdue := (h.calls (i + 1) c hc).keys
      have hdue' := (h'.calls (i + 1) d hd).keys
      rw [List.take_add_one, hc', Option.toList_some, keysDue_concat] at hdue
      rw [List.take_add_one, hd', Option.toList_some, keysDue_concat] at hdue'
      rw [hleft, hdue'] at hdue
      have hsame : c.keys = d.keys := (Except.ok.inj hdue).symm
      exact ⟨hbuffer, hnonce, hkey (i + 1) c d hc hd hsame, hsame⟩

/-- A run in which every task comes in turn, and which reads this stream. -/
abbrev TurnStep (sodium : Sodium) (stream : List Bytes) :
    Peer × List KeyedCall → Event → Peer × List KeyedCall → Prop :=
  When (Logged (Step sodium) keyedCalls)
    fun s e => InTurn s.1 e ∧ ReadsFrom stream s.1 e

theorem turn_inOrder {es : List Event} {now : Int64}
    (h : Run (TurnStep sodium stream) (start role keys now, []) es (q, log)) :
    InOrder sodium role keys stream q log := by
  refine h.invariant (I := fun s : Peer × List KeyedCall =>
    InOrder sodium role keys stream s.1 s.2) ?_
    (start_inOrder sodium role keys stream now)
  rintro ⟨s, log⟩ e ⟨t, log'⟩ hs ⟨⟨hstep, hlog⟩, hturn, hreads⟩
  cases hlog
  exact hs.step hstep hturn hreads

/-- In a run of either session class, every task reads with the nonce of
its position exactly if every task runs before the next read completes.

In any two runs that read one stream and in which every task comes in turn,
the decryption of each packet gives the same, if the packets before it are
fresh in both or in neither and a client has the same callbacks for them;
and `ReadPacket` returns the same if that goes for the packet too. -/
theorem readCalls_iff (sodium : Sodium) (role : Role) (keys : KeysWrapper)
    (now : Int64) :
    (∀ (es : List Event) (q : Peer) (log : List ReadCall),
      (Run (Logged (Step sodium) readCalls) (start role keys now, []) es (q, log)
          ∧ ∀ c ∈ log, c.nonce = role.nonceAt c.position)
        ↔ Run (When (Logged (Step sodium) readCalls) fun s e => Prompt s.1 e)
          (start role keys now, []) es (q, log))
      ∧ ∀ (stream : List Bytes) (es es' : List Event) (q q' : Peer)
          (log log' : List KeyedCall),
        Run (TurnStep sodium stream) (start role keys now, []) es (q, log) →
        Run (TurnStep sodium stream) (start role keys now, []) es' (q', log') →
        ∀ c ∈ log, ∀ d ∈ log', c.position = d.position →
          AlikeBefore role c.position log log' →
          c.nonce = role.nonceAt c.position ∧ d.nonce = role.nonceAt d.position
            ∧ c.decoded = d.decoded
            ∧ ((Fresh c.now (headerOf c.buffer).timestamp
                ↔ Fresh d.now (headerOf d.buffer).timestamp) →
              c.outcome = d.outcome) := by
  refine ⟨nonces_iff sodium role keys now, ?_⟩
  intro stream es es' q q' log log' hrun hrun' c hc d hd hposition halike
  have h := turn_inOrder hrun
  have h' := turn_inOrder hrun'
  obtain ⟨i, hi⟩ := List.mem_iff_getElem?.mp hc
  obtain ⟨j, hj⟩ := List.mem_iff_getElem?.mp hd
  have hat := h.calls i c hi
  have hat' := h'.calls j d hj
  obtain rfl : i = j := by
    have := hat.position
    have := hat'.position
    omega
  rw [hat.position] at halike
  obtain ⟨hbuffer, hnonce, hkey, -⟩ := h.agree h' i c d hi hj halike
  refine ⟨?_, ?_, ?_, fun hfresh => ?_⟩
  · rw [hat.position]
    exact hat.nonce
  · rw [hat'.position]
    exact hat'.nonce
  · unfold ReadCall.decoded
    rw [hbuffer, hnonce, hkey]
  · unfold ReadCall.outcome
    rw [hnonce, hkey, ← hbuffer]
    exact readPacket_fresh d.key.property (hbuffer ▸ hfresh) d.nonce

-- ========================================== a handshake and a second packet

/-- One more step that meets a guard before a run. -/
theorem calls_cons {C : Peer × List KeyedCall → Event → Prop} {e : Event}
    {es : List Event} {more : List KeyedCall} {s : Peer × List KeyedCall}
    (hstep : Step sodium p e q) (hC : C (p, log) e)
    (hcalls : p.keyedCalls e = more)
    (h : Run (When (Logged (Step sodium) keyedCalls) C) (q, log ++ more) es s) :
    Run (When (Logged (Step sodium) keyedCalls) C) (p, log) (e :: es) s := by
  subst hcalls
  exact .cons ⟨⟨hstep, rfl⟩, hC⟩ h

/-- An event that makes no call comes in turn. -/
theorem inTurn_quiet {e : Event} (h : p.readCalls e = []) : p.InTurn e := by
  refine ⟨fun c hc => ?_, fun c hc => ?_⟩
  · rw [h] at hc
    cases hc
  · rw [h] at hc
    cases hc

/-- So does the task of the newest read, if those before it are through
with the keys. -/
theorem inTurn_newest {k : Nat} (hk : p.reads = k + 1)
    (hleaves : ∀ τ ∈ p.tasks.take k, τ.LeavesKeys) (now : Int64) :
    p.InTurn (.task k now) := by
  refine ⟨prompt_newest hk now, fun c hc j τ hj hτ => hleaves τ ?_⟩
  have hposition : c.position = k + 1 := by
    unfold readCalls at hc
    dsimp only at hc
    split at hc
    next =>
      rw [List.mem_singleton.mp hc]
    next =>
      rw [List.mem_singleton.mp hc]
    next => cases hc
  have hjk : j < k := by omega
  refine List.mem_of_getElem? (i := j) ?_
  rw [List.getElem?_take_of_lt hjk]
  exact hτ

theorem SessionServer.callbackRead_accepted {s : Session} {buffer : Bytes}
    {now : Int64} {nonce : UInt64} {packet : Packet}
    (hnonce : SessionServer.readNonce s = nonce)
    (h : readPacket now buffer nonce s.keys.sharedKey.val
      = .ok (.ok packet)) :
    (Task.serverRead buffer).run sodium now s
      = .ok { session := s, task := .serverAnswer packet } := by
  subst hnonce
  exact SessionServer.callbackRead_eq h

theorem SessionServer.callbackKey_eq {s : Session} {payload : Bytes}
    {keys' : KeysWrapper}
    (h : s.keys.computeSharedKey sodium payload = .ok (true, keys')) :
    SessionServer.callbackKey sodium s payload
      = .ok { session := { s with keys := keys' } } := by
  rw [SessionServer.callbackKey, h]
  rfl

section Schedules

variable {keys' : KeysWrapper} {H P : Bytes} {request next : Packet}

/-- A fresh server reads a handshake, and its task calls `ReadPacket`. -/
theorem handshake_begins (hfits : Outbox.Fits H)
    (hstream : stream[0]? = some H)
    (hrequest : readPacket 0 (readBuffer H) 0 keys.sharedKey.val
      = .ok (.ok request)) :
    Run (TurnStep sodium stream) (start .server keys 0, [])
      [.read H 0, .task 0 0]
      ({ role := .server
         session := (start .server keys 0).session.completeRead 0
         tasks := [.serverAnswer request] },
        [⟨⟨1, 0, readBuffer H, 0, keys.sharedKey⟩, keys, none⟩]) := by
  let s : Session := (start .server keys 0).session.completeRead 0
  let p : Peer :=
    { role := .server, session := s, tasks := [.serverRead (readBuffer H)] }
  have hnonce : SessionServer.readNonce s = 0 := by
    show (0 + 1 - 1 : UInt64) = 0
    decide
  have hread : Step sodium (start .server keys 0) (.read H 0) p :=
    .read hfits.1 hfits.2
  have htask : Step sodium p (.task 0 0)
      { p with tasks := [.serverAnswer request] } :=
    Step.task (p := p) (k := 0) rfl
      (SessionServer.callbackRead_accepted hnonce hrequest)
  apply calls_cons hread ⟨inTurn_quiet rfl, hstream⟩ rfl
  exact calls_cons htask
    ⟨inTurn_newest rfl (fun τ hτ => by cases hτ) 0, trivial⟩
    (keyedCalls_task (p := p) (k := 0) rfl hnonce 0) (.nil _)

/-- The rest of that task. -/
theorem handshake_ends (s : Session) (rest : List Task)
    (hflags : request.header.flags = Flags.handshake)
    (hkeys : s.keys.computeSharedKey sodium request.payload
      = .ok (true, keys')) (log : List KeyedCall) :
    ∃ posted, Run (TurnStep sodium stream)
      ({ role := .server, session := s, tasks := .serverAnswer request :: rest },
        log)
      [.task 0 0, .task 0 0]
      ({ role := .server, session := { s with keys := keys' }, posted
         tasks := .done :: rest }, log) := by
  let p : Peer :=
    { role := .server, session := s, tasks := .serverAnswer request :: rest }
  let w : PostedWrite := .server Flags.handshake request.header.messageId
    (s.keys.getPublicKey sodium).val
  let q : Peer := { p with
    posted := [w]
    tasks := .serverKey request.payload :: rest }
  have hanswer : (Task.serverAnswer request).run sodium 0 s = .ok {
      session := s, posted := [w], task := .serverKey request.payload } :=
    congrArg Except.ok (SessionServer.callbackAnswer_handshake sodium s hflags)
  have h₁ : Step sodium p (.task 0 0) q :=
    Step.task (p := p) (k := 0) rfl hanswer
  have h₂ : Step sodium q (.task 0 0) _ :=
    Step.task (p := q) (k := 0) rfl (SessionServer.callbackKey_eq hkeys)
  have hcalls₁ : p.keyedCalls (.task 0 0) = [] := rfl
  have hcalls₂ : q.keyedCalls (.task 0 0) = [] := rfl
  refine ⟨q.posted ++ [], ?_⟩
  apply calls_cons h₁ ⟨inTurn_quiet rfl, trivial⟩ hcalls₁
  rw [List.append_nil log]
  apply calls_cons h₂ ⟨inTurn_quiet rfl, trivial⟩ hcalls₂
  rw [List.append_nil log]
  exact .nil _

/-- The task of a second read calls `ReadPacket`. -/
theorem packet_begins (sodium : Sodium) (s : Session)
    (posted : List PostedWrite) (τ : Task) (hcounter : s.messageCounter = 2)
    (hqueue : s.taskQueue = fun _ => none) {now : Int64}
    {result : Except PacketError Packet}
    (hnext : readPacket now (readBuffer P) 1 s.keys.sharedKey.val
      = .ok result) :
    ∃ q, Step sodium { role := .server, session := s, posted
                       tasks := [τ, .serverRead (readBuffer P)] }
        (.task 1 now) q
      ∧ keyedCalls { role := .server, session := s, posted
                     tasks := [τ, .serverRead (readBuffer P)] } (.task 1 now)
        = [⟨⟨2, now, readBuffer P, 1, s.keys.sharedKey⟩, s.keys, none⟩] := by
  let p : Peer := { role := .server, session := s, posted
                    tasks := [τ, .serverRead (readBuffer P)] }
  have hnonce : SessionServer.readNonce s = 1 := by
    rw [SessionServer.readNonce, hcounter]
    decide
  have hrun : (Task.serverRead (readBuffer P)).run sodium now s
      = .ok (SessionServer.afterRead s result) := by
    refine SessionServer.callbackRead_eq ?_
    rw [hnonce]
    exact hnext
  have hcalls := keyedCalls_task (p := p) (k := 1) rfl hnonce now
  rw [show p.session.taskQueue = fun _ => none from hqueue] at hcalls
  exact ⟨_, Step.task (p := p) (k := 1) rfl hrun, hcalls⟩

theorem second_inTurn (s : Session) (posted : List PostedWrite)
    (buffer : Bytes) (now : Int64) :
    InTurn { role := .server, session := s, posted
             tasks := [.done, .serverRead buffer] } (.task 1 now) := by
  refine inTurn_newest rfl (fun τ hτ => ?_) now
  rw [List.mem_singleton.mp hτ]
  trivial

/-- The first task finishes before the second read completes. -/
theorem early_schedule (keys keys' : KeysWrapper) (hH : Outbox.Fits H)
    (hP : Outbox.Fits P) (hrequest : readPacket 0 (readBuffer H) 0 keys.sharedKey.val
      = .ok (.ok request)) (hflags : request.header.flags = Flags.handshake)
    (hkeys : keys.computeSharedKey sodium request.payload = .ok (true, keys'))
    {now : Int64} {result : Except PacketError Packet}
    (hnext : readPacket now (readBuffer P) 1 keys'.sharedKey.val
      = .ok result) :
    ∃ q, Run (TurnStep sodium [H, P]) (start .server keys 0, [])
      [.read H 0, .task 0 0, .task 0 0, .task 0 0, .read P 0, .task 1 now]
      (q, [⟨⟨1, 0, readBuffer H, 0, keys.sharedKey⟩, keys, none⟩,
        ⟨⟨2, now, readBuffer P, 1, keys'.sharedKey⟩, keys', none⟩]) := by
  let s : Session := (start .server keys 0).session.completeRead 0
  let s' : Session := { s with keys := keys' }
  obtain ⟨posted, hends⟩ := handshake_ends s [] hflags hkeys _
  let p : Peer := { role := .server, session := s', posted, tasks := [.done] }
  obtain ⟨q, hstep, hcalls⟩ :=
    packet_begins sodium (s'.completeRead 0) posted .done rfl rfl hnext
  have hread : Step sodium p (.read P 0) (p.completeRead 0 P) :=
    .read hP.1 hP.2
  have hreads : p.ReadsFrom [H, P] (.read P 0) := rfl
  refine ⟨q, (handshake_begins hH rfl hrequest).append (hends.append ?_)⟩
  apply calls_cons hread ⟨inTurn_quiet rfl, hreads⟩ rfl
  exact calls_cons hstep ⟨second_inTurn _ _ _ now, trivial⟩ hcalls (.nil _)

/-- The second read completes before the first task sets the key. -/
theorem late_schedule (keys keys' : KeysWrapper) (hH : Outbox.Fits H)
    (hP : Outbox.Fits P) (hrequest : readPacket 0 (readBuffer H) 0 keys.sharedKey.val
      = .ok (.ok request)) (hflags : request.header.flags = Flags.handshake)
    (hkeys : keys.computeSharedKey sodium request.payload = .ok (true, keys'))
    {now : Int64} {result : Except PacketError Packet}
    (hnext : readPacket now (readBuffer P) 1 keys'.sharedKey.val
      = .ok result) :
    ∃ q, Run (TurnStep sodium [H, P]) (start .server keys 0, [])
      [.read H 0, .task 0 0, .read P 0, .task 0 0, .task 0 0, .task 1 now]
      (q, [⟨⟨1, 0, readBuffer H, 0, keys.sharedKey⟩, keys, none⟩,
        ⟨⟨2, now, readBuffer P, 1, keys'.sharedKey⟩, keys', none⟩]) := by
  let s : Session := (start .server keys 0).session.completeRead 0
  let s' : Session := { s.completeRead 0 with keys := keys' }
  let p : Peer :=
    { role := .server, session := s, tasks := [.serverAnswer request] }
  obtain ⟨posted, hends⟩ := handshake_ends (s.completeRead 0)
    [.serverRead (readBuffer P)] hflags hkeys _
  obtain ⟨q, hstep, hcalls⟩ := packet_begins sodium s' posted .done rfl rfl hnext
  have hread : Step sodium p (.read P 0) (p.completeRead 0 P) :=
    .read hP.1 hP.2
  have hreads : p.ReadsFrom [H, P] (.read P 0) := rfl
  refine ⟨q, (handshake_begins hH rfl hrequest).append ?_⟩
  apply calls_cons hread ⟨inTurn_quiet rfl, hreads⟩ rfl
  refine hends.append ?_
  exact calls_cons hstep ⟨second_inTurn _ _ _ now, trivial⟩ hcalls (.nil _)

/-- The second task calls `ReadPacket` while the first is still to set the
key. -/
theorem hasty_schedule (sodium : Sodium) (keys : KeysWrapper) (hH : Outbox.Fits H)
    (hP : Outbox.Fits P)
    (hrequest : readPacket 0 (readBuffer H) 0 keys.sharedKey.val
      = .ok (.ok request)) {result : Except PacketError Packet}
    (hnext : readPacket 0 (readBuffer P) 1 keys.sharedKey.val = .ok result) :
    ∃ q, Run (When (Logged (Step sodium) keyedCalls) fun s e =>
        s.1.Prompt e ∧ s.1.ReadsFrom [H, P] e) (start .server keys 0, [])
      [.read H 0, .task 0 0, .read P 0, .task 1 0]
      (q, [⟨⟨1, 0, readBuffer H, 0, keys.sharedKey⟩, keys, none⟩,
        ⟨⟨2, 0, readBuffer P, 1, keys.sharedKey⟩, keys, none⟩]) := by
  let s : Session := (start .server keys 0).session.completeRead 0
  let p : Peer :=
    { role := .server, session := s, tasks := [.serverAnswer request] }
  obtain ⟨q, hstep, hcalls⟩ := packet_begins sodium (s.completeRead 0) []
    (.serverAnswer request) rfl rfl hnext
  have hread : Step sodium p (.read P 0) (p.completeRead 0 P) :=
    .read hP.1 hP.2
  have hreads : p.ReadsFrom [H, P] (.read P 0) := rfl
  have hbegins : Run (TurnStep sodium [H, P]) (start .server keys 0, []) _ _ :=
    handshake_begins hH rfl hrequest
  refine ⟨q, (hbegins.mono fun s e t h => ⟨h.1, h.2.1.1, h.2.2⟩).append ?_⟩
  apply calls_cons hread ⟨(inTurn_quiet rfl).1, hreads⟩ rfl
  exact calls_cons hstep ⟨prompt_newest rfl 0, trivial⟩ hcalls (.nil _)

end Schedules

/-- A handshake under the zero key. -/
def firstPacket : Bytes := (request tabulated clientKey 0 0).wire Key.zero.val

/-- A packet under the key that it leads to. -/
def secondPacket : Bytes :=
  (answer tabulated serverKey 0 0).wire commonKey.val

theorem firstPacket_fits : Outbox.Fits firstPacket :=
  created_fits (key_size _) _ _ _ _ _

theorem secondPacket_fits : Outbox.Fits secondPacket :=
  created_fits (key_size _) _ _ _ _ _

theorem readPacket_firstPacket :
    readPacket 0 (readBuffer firstPacket) 0 Key.zero.val
      = .ok (.ok (request tabulated clientKey 0 0).packet) := by
  rw [readBuffer, firstPacket]
  exact Sending.read_wire_fresh (s := request tabulated clientKey 0 0)
    Key.zero.property (key_size _) (fun _ => rfl) (fresh_self 0) _

theorem readPacket_secondPacket {now : Int64}
    (hfresh : Fresh now (0 : Int64).toUInt64) :
    readPacket now (readBuffer secondPacket) 1 commonKey.val
      = .ok (.ok (answer tabulated serverKey 0 0).packet) := by
  rw [readBuffer, secondPacket]
  exact Sending.read_wire_fresh (s := answer tabulated serverKey 0 0)
    commonKey.property (key_size _) (fun _ => rfl) hfresh _

theorem computeSharedKey_firstPacket :
    KeysWrapper.computeSharedKey tabulated ⟨serverKey, Key.zero⟩
        (request tabulated clientKey 0 0).packet.payload
      = .ok (true, ⟨serverKey, commonKey⟩) :=
  KeysWrapper.computeSharedKey_agrees tabulated_agrees ⟨serverKey, Key.zero⟩
    clientKey

/-- Whether the first task has set the key when the second read completes or
sets it only then, the second packet is accepted. -/
theorem readCalls_iff_handshake :
    ∃ (q q' : Peer) (c d c' d' : KeyedCall),
      Run (TurnStep tabulated [firstPacket, secondPacket])
          (start .server ⟨serverKey, Key.zero⟩ 0, [])
          [.read firstPacket 0, .task 0 0, .task 0 0, .task 0 0,
            .read secondPacket 0, .task 1 0] (q, [c, d])
        ∧ Run (TurnStep tabulated [firstPacket, secondPacket])
          (start .server ⟨serverKey, Key.zero⟩ 0, [])
          [.read firstPacket 0, .task 0 0, .read secondPacket 0, .task 0 0,
            .task 0 0, .task 1 7] (q', [c', d'])
        ∧ d.decoded = d'.decoded ∧ d.outcome = d'.outcome
        ∧ d.outcome = .ok (.ok (answer tabulated serverKey 0 0).packet) := by
  have hnext := readPacket_secondPacket (fresh_self 0)
  obtain ⟨q, hrun⟩ := early_schedule ⟨serverKey, Key.zero⟩
    ⟨serverKey, commonKey⟩ firstPacket_fits secondPacket_fits
    readPacket_firstPacket rfl computeSharedKey_firstPacket hnext
  obtain ⟨q', hrun'⟩ := late_schedule ⟨serverKey, Key.zero⟩
    ⟨serverKey, commonKey⟩ firstPacket_fits secondPacket_fits
    readPacket_firstPacket rfl computeSharedKey_firstPacket
    (readPacket_secondPacket (by decide : Fresh 7 0))
  have hfresh : Fresh 0 (headerOf (readBuffer secondPacket)).timestamp
      ↔ Fresh 7 (headerOf (readBuffer secondPacket)).timestamp := by
    have htime : (headerOf (readBuffer secondPacket)).timestamp
        = (0 : Int64).toUInt64 := by
      rw [readBuffer, secondPacket]
      exact Sending.headerOf_wire (s := answer tabulated serverKey 0 0)
        (key_size _) _
    rw [htime]
    decide
  obtain ⟨B, hB⟩ : ∃ B, B = readBuffer firstPacket := ⟨_, rfl⟩
  obtain ⟨C, hC⟩ : ∃ C, C = readBuffer secondPacket := ⟨_, rfl⟩
  rw [← hB, ← hC] at hrun hrun'
  rw [← hC] at hnext hfresh
  refine ⟨q, q', _, _, _, _, hrun, hrun', ?_⟩
  have hbefore : AlikeBefore .server 2
      [⟨⟨1, 0, B, 0, Key.zero⟩, ⟨serverKey, Key.zero⟩, none⟩,
        ⟨⟨2, 0, C, 1, commonKey⟩, ⟨serverKey, commonKey⟩, none⟩]
      [⟨⟨1, 0, B, 0, Key.zero⟩, ⟨serverKey, Key.zero⟩, none⟩,
        ⟨⟨2, 7, C, 1, commonKey⟩, ⟨serverKey, commonKey⟩, none⟩] := by
    intro c hc d hd hposition hlt
    rw [List.mem_pair] at hc hd
    rcases hc with rfl | rfl
    · rcases hd with rfl | rfl
      · exact ⟨Iff.rfl, fun hrole => by cases hrole⟩
      · cases hposition
    · exact absurd hlt (lt_irrefl _)
  obtain ⟨-, -, hdecoded, houtcome⟩ :=
    (readCalls_iff tabulated .server ⟨serverKey, Key.zero⟩ 0).2 _ _ _ _ _ _ _
      hrun hrun' _ (List.mem_cons_of_mem _ (List.mem_singleton_self _))
      _ (List.mem_cons_of_mem _ (List.mem_singleton_self _)) rfl hbefore
  exact ⟨hdecoded, houtcome hfresh, hnext⟩

/-- The task of the second read is prompt, but calls `ReadPacket` before the
first has set the key: it rejects the packet. -/
theorem key_not_set :
    ∃ (q : Peer) (c d : KeyedCall),
      Run (When (Logged (Step tabulated) keyedCalls) fun s e =>
            s.1.Prompt e ∧ s.1.ReadsFrom [firstPacket, secondPacket] e)
          (start .server ⟨serverKey, Key.zero⟩ 0, [])
          [.read firstPacket 0, .task 0 0, .read secondPacket 0, .task 1 0]
          (q, [c, d])
        ∧ d.nonce = 1 ∧ d.outcome = .ok (.error .tag) := by
  have hrejected : readPacket 0 (readBuffer secondPacket) 1 Key.zero.val
      = .ok (.error .tag) := by
    rw [readBuffer, secondPacket]
    exact System.answer_mismatch _
  obtain ⟨q, hrun⟩ := hasty_schedule tabulated
    ⟨serverKey, Key.zero⟩ firstPacket_fits secondPacket_fits
    readPacket_firstPacket hrejected
  exact ⟨q, _, _, hrun, rfl, hrejected⟩

end Peer

end Remc.Net
