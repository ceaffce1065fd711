/-
The read loop: which nonce a pool task decrypts with.

The counter is incremented when a read completes and read again when the
task runs. So the task of the k-th read uses k - 1 on the server and k on
the client exactly if no other read has completed in between
(`nonces_iff`).
-/
import Mathlib.Data.Nat.ModEq
import Remc.Net.Hostile
import Remc.Net.Peer

namespace Remc.Net

open Crypto Runs

variable {sodium : Sodium}

-- ================================================================== nonces

/-- A call of `ReadPacket` by a pool task: the position of the read that
posted the task, counted from one, and the arguments. -/
structure ReadCall where
  position : Nat
  now : Int64
  buffer : Bytes
  nonce : UInt64
  key : Key

/-- What the call returns. -/
def ReadCall.outcome (c : ReadCall) : Checked (Except PacketError Packet) :=
  readPacket c.now c.buffer c.nonce c.key.val

/-- The nonce for the k-th read, whatever the schedule. -/
def Role.nonceAt (k : Nat) : Role → UInt64
  | .server => UInt64.ofNat (k - 1)
  | .client => UInt64.ofNat k

namespace Peer

/-- The call that an event makes. -/
def readCalls (p : Peer) : Event → List ReadCall
  | .task k now =>
      match p.tasks[k]? with
      | some (.serverRead buffer) =>
          [{ position := k + 1, now, buffer
             nonce := SessionServer.readNonce p.session
             key := p.session.keys.sharedKey }]
      | some (.clientRead buffer) =>
          [{ position := k + 1, now, buffer
             nonce := SessionClient.readNonce p.session
             key := p.session.keys.sharedKey }]
      | _ => []
  | _ => []

/-- A task calls `ReadPacket` before the next read completes; a counter
of 64 bits cannot tell 2^64 reads from none. -/
def Prompt (p : Peer) (e : Event) : Prop :=
  ∀ c ∈ p.readCalls e, 2 ^ 64 ∣ p.reads - c.position

/-- A task that has not begun makes one call. -/
theorem readCalls_task {p : Peer} {k : Nat} {buffer : Bytes}
    (hτ : p.tasks[k]? = some (p.role.task buffer)) (now : Int64) :
    p.readCalls (.task k now)
      = [{ position := k + 1, now, buffer
           nonce := p.role.readNonce p.session
           key := p.session.keys.sharedKey }] := by
  unfold readCalls
  dsimp only
  cases hrole : p.role with
  | server =>
      rw [hrole] at hτ
      rw [hτ]
      rfl
  | client =>
      rw [hrole] at hτ
      rw [hτ]
      rfl

/-- A task that has begun makes no call. -/
theorem readCalls_begun {p : Peer} {k : Nat} {τ : Task}
    (hτ : p.tasks[k]? = some τ) (hbegun : τ.unread = none) (now : Int64) :
    p.readCalls (.task k now) = [] := by
  unfold readCalls
  dsimp only
  rw [hτ]
  cases τ with
  | serverRead buffer => cases hbegun
  | clientRead buffer => cases hbegun
  | serverAnswer packet => rfl
  | serverKey payload => rfl
  | clientCallback cb packet => rfl
  | done => rfl

/-- A call is made by the task of a completed read of the peer's own
class, with the counter of that class. -/
theorem readCalls_spec {p : Peer} (hp : p.Sound) {e : Event} {c : ReadCall}
    (hc : c ∈ p.readCalls e) :
    1 ≤ c.position ∧ c.position ≤ p.reads
      ∧ c.nonce = p.role.readNonce p.session := by
  cases e with
  | task k now =>
      unfold readCalls at hc
      dsimp only at hc
      split at hc
      next buffer hτ =>
        rw [List.mem_singleton.mp hc]
        have hlt := (List.getElem?_eq_some_iff.mp hτ).1
        have hrole : p.role = .server := hp.kinds _ (List.mem_of_getElem? hτ)
        rw [hrole]
        exact ⟨Nat.le_add_left 1 k, hlt, rfl⟩
      next buffer hτ =>
        rw [List.mem_singleton.mp hc]
        have hlt := (List.getElem?_eq_some_iff.mp hτ).1
        have hrole : p.role = .client := hp.kinds _ (List.mem_of_getElem? hτ)
        rw [hrole]
        exact ⟨Nat.le_add_left 1 k, hlt, rfl⟩
      next => cases hc
  | write w => cases hc
  | handler now drawn => cases hc
  | transfer i n => cases hc
  | written i ec now => cases hc
  | close => cases hc
  | read chunk now => cases hc

/-- The task of the newest read is prompt. -/
theorem prompt_newest {p : Peer} {k : Nat} (hk : p.reads = k + 1)
    (now : Int64) : p.Prompt (.task k now) := by
  intro c hc
  have hposition : c.position = k + 1 := by
    unfold readCalls at hc
    dsimp only at hc
    split at hc
    next =>
      rw [List.mem_singleton.mp hc]
    next =>
      rw [List.mem_singleton.mp hc]
    next => cases hc
  rw [hk, hposition, Nat.sub_self]
  exact Nat.dvd_zero _

end Peer

/-- The counter after n reads gives the nonce for position k exactly if
n and k agree in 64 bits. -/
theorem Role.readNonce_eq_iff {role : Role} {s : Session} {k n : Nat}
    (hcounter : s.messageCounter = UInt64.ofNat n) (hk : 1 ≤ k) (hkn : k ≤ n) :
    role.readNonce s = role.nonceAt k ↔ 2 ^ 64 ∣ n - k := by
  have hmod : ∀ a b : Nat, a ≤ b →
      (UInt64.ofNat b = UInt64.ofNat a ↔ 2 ^ 64 ∣ b - a) := by
    intro a b hab
    rw [← UInt64.toNat_inj, UInt64.toNat_ofNat', UInt64.toNat_ofNat']
    exact eq_comm.trans (Nat.modEq_iff_dvd' hab)
  cases role with
  | server =>
      have hminus : SessionServer.readNonce s = UInt64.ofNat (n - 1) := by
        obtain ⟨m, rfl⟩ : ∃ m, n = m + 1 := ⟨n - 1, by omega⟩
        rw [SessionServer.readNonce, hcounter, UInt64.ofNat_add]
        exact UInt64.add_sub_cancel _ _
      show SessionServer.readNonce s = UInt64.ofNat (k - 1) ↔ _
      rw [hminus, hmod (k - 1) (n - 1) (by omega),
        show n - 1 - (k - 1) = n - k by omega]
  | client =>
      show s.messageCounter = UInt64.ofNat k ↔ _
      rw [hcounter, hmod k n hkn]

/-- Right after the n-th read the nonce is the one for position n. -/
theorem Role.readNonce_reads (role : Role) {s : Session} {n : Nat}
    (hcounter : s.messageCounter = UInt64.ofNat n) (hn : 1 ≤ n) :
    role.readNonce s = role.nonceAt n := by
  refine (Role.readNonce_eq_iff hcounter hn le_rfl).mpr ?_
  rw [Nat.sub_self]
  exact Nat.dvd_zero _

namespace Peer

/-- In a run of either session class, every task reads with the nonce of
its position exactly if every task runs before the next read completes. -/
theorem nonces_iff (sodium : Sodium) (role : Role) (keys : KeysWrapper)
    (now : Int64) (es : List Event) (q : Peer) (log : List ReadCall) :
    (Run (Logged (Step sodium) readCalls) (start role keys now, []) es (q, log)
        ∧ ∀ c ∈ log, c.nonce = role.nonceAt c.position)
      ↔ Run (When (Logged (Step sodium) readCalls) fun s e => Prompt s.1 e)
        (start role keys now, []) es (q, log) := by
  have hpres : ∀ s e t, (Sound s.1 ∧ s.1.role = role) →
      Logged (Step sodium) readCalls s e t → Sound t.1 ∧ t.1.role = role := by
    rintro s e t ⟨hs, hrole⟩ h
    exact ⟨hs.step h.1, h.1.role_eq.trans hrole⟩
  have hiff : ∀ s e t, (Sound s.1 ∧ s.1.role = role) →
      Logged (Step sodium) readCalls s e t →
      ((∀ c ∈ readCalls s.1 e, c.nonce = role.nonceAt c.position)
        ↔ Prompt s.1 e) := by
    rintro s e t ⟨hs, hrole⟩ -
    refine forall₂_congr fun c hc => ?_
    obtain ⟨hone, hle, hnonce⟩ := readCalls_spec hs hc
    rw [hnonce, hrole]
    exact Role.readNonce_eq_iff hs.counter hone hle
  rw [Run.logged_forall, Run.when_congr hpres hiff
    ⟨start_sound role keys now, rfl⟩]
  exact and_iff_right fun c hc => by cases hc

/-- A task whose buffer is read safely can run. -/
theorem task_enabled (sodium : Sodium) {p : Peer} {k : Nat} {buffer : Bytes}
    (hτ : p.tasks[k]? = some (p.role.task buffer)) (hsafe : SafeWire buffer)
    (now : Int64) : ∃ q, Step sodium p (.task k now) q := by
  obtain ⟨result, hresult⟩ := (readsSafely_of_safeWire
    p.session.keys.sharedKey.property hsafe now (p.role.readNonce p.session)).1
  exact ⟨_, .task hτ (Role.task_run hresult)⟩

/-- Two packets arrive at a server before the pool gets to the first: its
nonce is 1, not 0. -/
theorem late_task_nonce :
    ¬∀ (sodium : Sodium) (role : Role) (keys : KeysWrapper) (now : Int64)
        (es : List Event) (q : Peer) (log : List ReadCall),
        Run (Logged (Step sodium) readCalls) (start role keys now, []) es
          (q, log) →
        ∀ c ∈ log, c.nonce = role.nonceAt c.position := by
  intro hall
  -- a header with the `NoCrypto` bit and nothing behind it
  have hsafe : SafeWire (readBuffer [0, 0, 1]) :=
    Or.inr (Or.inl (by decide +kernel))
  have hchunk : ([0, 0, 1] : Bytes).length ≤ tcpTotalPacketSize := by decide
  let sodium : Sodium := ⟨id, fun _ _ => none, id⟩
  let p : Peer := start .server ⟨Key.zero, Key.zero⟩ 0
  let p₁ : Peer := p.completeRead 0 [0, 0, 1]
  let p₂ : Peer := p₁.completeRead 0 [0, 0, 1]
  let call : ReadCall :=
    { position := 1, now := 0, buffer := readBuffer [0, 0, 1]
      nonce := SessionServer.readNonce p₂.session, key := Key.zero }
  have h₁ : Logged (Step sodium) readCalls (p, []) (.read [0, 0, 1] 0) (p₁, [])
    := ⟨.read (List.cons_ne_nil _ _) hchunk, rfl⟩
  have h₂ : Logged (Step sodium) readCalls (p₁, []) (.read [0, 0, 1] 0)
    (p₂, []) := ⟨.read (List.cons_ne_nil _ _) hchunk, rfl⟩
  have hτ : p₂.tasks[0]? = some (p₂.role.task (readBuffer [0, 0, 1])) := rfl
  obtain ⟨q, hq⟩ := task_enabled sodium hτ hsafe 0
  have h₃ : Logged (Step sodium) readCalls (p₂, []) (.task 0 0) (q, [call]) :=
    ⟨hq, rfl⟩
  have hnonce := hall sodium .server ⟨Key.zero, Key.zero⟩ 0 _ q [call]
    (.cons h₁ (.cons h₂ (.cons h₃ (.nil _)))) call (List.mem_singleton_self call)
  exact absurd hnonce (by decide)

end Peer

end Remc.Net
