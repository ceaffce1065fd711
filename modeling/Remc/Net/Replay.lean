/-
How often a session accepts one packet.

Nothing but the nonce tells a packet from its repetition: while its
timestamp is fresh, a buffer that was accepted is accepted again by every
call of `ReadPacket` under the same nonce. The nonce is the counter of
completed reads when the pool gets to the task. So no encrypted buffer is
accepted twice exactly if the counter has moved on, modulo 2^32, between
any two calls for it (`acceptedOnce_iff`); two copies that have both
arrived before the pool gets to the first are both accepted.
-/
import Remc.Net.Counters
import Remc.Net.ReadLoop

namespace Remc.Net

open Crypto Runs

variable {sodium : Sodium} {key : Bytes}

-- ============================================================= acceptance

/-- Decryption depends on the 32 low bits of the nonce. -/
theorem decodePayload_congr {nonce nonce' : UInt64}
    (h : nonce96 nonce = nonce96 nonce') (packet : Packet) :
    decodePayload packet key nonce = decodePayload packet key nonce' := by
  unfold decodePayload
  rw [h]

/-- What was accepted under a nonce is accepted again under the same one
while it is fresh. -/
theorem accepted_again {w : Bytes} {p : Packet} {now now' : Int64}
    {nonce nonce' : UInt64} (hkey : key.length = 32)
    (h : readPacket now w nonce key = .ok (.ok p))
    (hnonce : nonce96 nonce = nonce96 nonce')
    (hfresh : Fresh now' (headerOf w).timestamp) :
    readPacket now' w nonce' key = .ok (.ok p) := by
  obtain ⟨hcomplete, hdecode, hcheck⟩ := readPacket_accepted hkey h
  have htimestamp : p.header.timestamp = (headerOf w).timestamp := by
    rw [decodePayload_header hdecode]
    split <;> rfl
  have hcheck' : checkPacket now' p = .ok p := by
    refine checkPacket_ok_iff.mpr ⟨?_, (checkPacket_ok_iff.mp hcheck).2⟩
    rwa [htimestamp]
  rw [readPacket_complete hkey hcomplete, ← decodePayload_congr hnonce, hdecode]
  exact congrArg Except.ok hcheck'

/-- What is accepted is fresh. -/
theorem accepted_fresh {w : Bytes} {p : Packet} {now : Int64}
    {nonce : UInt64} (hkey : key.length = 32)
    (h : readPacket now w nonce key = .ok (.ok p)) :
    Fresh now (headerOf w).timestamp := by
  obtain ⟨-, hdecode, hcheck⟩ := readPacket_accepted hkey h
  have hfresh := (checkPacket_ok_iff.mp hcheck).1
  rw [decodePayload_header hdecode] at hfresh
  split at hfresh <;> exact hfresh

/-- The checks after decryption do not look at the tag. -/
theorem checkPacket_ne_tag (now : Int64) (packet : Packet) :
    checkPacket now packet ≠ .error .tag := by
  unfold checkPacket
  intro h
  split at h
  next => cases h
  next => split at h <;> cases h

/-- An AEAD mismatch is found only where the tag is another one. -/
theorem not_carriesTag_of_tag {w : Bytes} {now : Int64} {nonce : UInt64}
    (hkey : key.length = 32)
    (h : readPacket now w nonce key = .ok (.error .tag)) :
    ¬CarriesTag key nonce w := by
  intro htag
  by_cases hcomplete : Complete w
  · rw [readPacket_complete hkey hcomplete] at h
    by_cases hcrypto : NoCrypto (packetOf w).header.flags
    · rw [decodePayload_noCrypto hcrypto] at h
      exact checkPacket_ne_tag now _ (Except.ok.inj h)
    · by_cases hsize : (packetOf w).payload.length
          = plainSize (packetOf w).header + 16
      · have hopen := (opened_isSome_iff key (nonce96 nonce)
          (serializedHeader (packetOf w).header) (packetOf w).payload).mpr htag
        obtain ⟨m, hm⟩ := Option.isSome_iff_exists.mp hopen
        rw [decodePayload_eq hkey hcrypto hsize, hm] at h
        exact checkPacket_ne_tag now _ (Except.ok.inj h)
      · rw [decodePayload_of_size_ne hkey hcrypto hsize] at h
        cases h
  · obtain ⟨e, he⟩ := readPacket_not_complete hkey hcomplete now nonce
    rw [he] at h
    cases h

namespace ReadCall

/-- The call returns a packet. -/
def Accepted (c : ReadCall) : Prop := ∃ p, c.outcome = .ok (.ok p)

/-- The call is for a packet with the `NoCrypto` bit clear. -/
def Encrypted (c : ReadCall) : Prop := ¬NoCrypto (headerOf c.buffer).flags

/-- The buffer carries its tag under the nonce of the call. -/
def Verifies (c : ReadCall) : Prop := CarriesTag c.key.val c.nonce c.buffer

/-- The two calls do not both accept one encrypted buffer. -/
def NotTwice (b c : ReadCall) : Prop :=
  b.buffer = c.buffer → b.Encrypted → ¬(b.Accepted ∧ c.Accepted)

/-- Where the first call has accepted the encrypted buffer of the second,
which is still fresh, the second has another counter, modulo 2^32. -/
def CounterMoved (b c : ReadCall) : Prop :=
  b.buffer = c.buffer → b.Encrypted → b.Accepted →
    Fresh c.now (headerOf c.buffer).timestamp →
      b.nonce.toNat % 2 ^ 32 ≠ c.nonce.toNat % 2 ^ 32

/-- A ciphertext whose tag verifies under the nonce of one call does not
verify under another nonce. -/
def TagsBind (log : List ReadCall) : Prop :=
  ∀ b ∈ log, ∀ c ∈ log, b.buffer = c.buffer → b.Encrypted →
    b.Verifies → c.Verifies → nonce96 b.nonce = nonce96 c.nonce

/-- Under one key, where tags bind the nonce, an encrypted buffer is not
accepted twice exactly if the counter has moved. -/
theorem notTwice_iff {b c : ReadCall} (hkey : b.key = c.key)
    (hbind : b.buffer = c.buffer → b.Encrypted → b.Verifies → c.Verifies →
      nonce96 b.nonce = nonce96 c.nonce) :
    NotTwice b c ↔ CounterMoved b c := by
  have h32 := b.key.property
  constructor
  · rintro hnot hbuffer hcrypto ⟨p, hp⟩ hfresh hcounter
    refine hnot hbuffer hcrypto ⟨⟨p, hp⟩, p, ?_⟩
    have hnonce := nonce96_eq_iff.mpr hcounter
    unfold outcome at hp ⊢
    rw [hbuffer] at hp
    rw [← hkey]
    exact accepted_again h32 hp hnonce hfresh
  · rintro hmoved hbuffer hcrypto ⟨⟨p, hp⟩, p', hp'⟩
    have hp₀ := hp
    unfold outcome at hp hp'
    rw [← hkey, ← hbuffer] at hp'
    have hfresh : Fresh c.now (headerOf c.buffer).timestamp := by
      rw [← hbuffer]
      exact accepted_fresh h32 hp'
    refine hmoved hbuffer hcrypto ⟨p, hp₀⟩ hfresh
      (nonce96_eq_iff.mp (hbind hbuffer hcrypto ?_ ?_))
    · exact (accepted_carriesTag h32 hp).1 hcrypto
    · unfold Verifies
      rw [← hkey, ← hbuffer]
      exact (accepted_carriesTag h32 hp').1 hcrypto

end ReadCall

-- =================================================================== runs

namespace Peer

open ReadCall

/-- The session holds this shared key. -/
def HasKey (K : Key) (p : Peer) : Prop := p.session.keys.sharedKey = K

theorem readCalls_length_le (p : Peer) (e : Event) :
    (p.readCalls e).length ≤ 1 := by
  unfold readCalls
  split
  next => split <;> simp
  next => exact Nat.zero_le 1

/-- A call reads with the key that the session holds. -/
theorem readCalls_key {p : Peer} {e : Event} {c : ReadCall}
    (hc : c ∈ p.readCalls e) : c.key = p.session.keys.sharedKey := by
  unfold readCalls at hc
  split at hc
  next =>
    split at hc
    next =>
      rw [List.mem_singleton.mp hc]
    next =>
      rw [List.mem_singleton.mp hc]
    next => cases hc
  next => cases hc

/-- In every run of a session that keeps its shared key, where the tags of
the ciphertexts it reads bind their nonces, no encrypted buffer is
accepted twice exactly if at every call of `ReadPacket` the counter
differs, modulo 2^32, from what it was when the same buffer, which is
still fresh, was accepted before. -/
theorem acceptedOnce_iff (sodium : Sodium) (role : Role) (privateKey K : Key)
    (now : Int64) (es : List Event) (q : Peer) (log : List ReadCall)
    (hbind : TagsBind log) :
    (Run (Logged (Into (Step sodium) (HasKey K)) readCalls)
          (start role ⟨privateKey, K⟩ now, []) es (q, log)
        ∧ log.Pairwise NotTwice)
      ↔ Run (When (Logged (Into (Step sodium) (HasKey K)) readCalls)
          fun s e => ∀ c ∈ s.1.readCalls e, ∀ b ∈ s.2, CounterMoved b c)
        (start role ⟨privateKey, K⟩ now, []) es (q, log) := by
  have hpairwise :
      (Run (Logged (Into (Step sodium) (HasKey K)) readCalls)
          (start role ⟨privateKey, K⟩ now, []) es (q, log)
        ∧ log.Pairwise CounterMoved)
      ↔ Run (When (Logged (Into (Step sodium) (HasKey K)) readCalls)
          fun s e => ∀ c ∈ s.1.readCalls e, ∀ b ∈ s.2, CounterMoved b c)
        (start role ⟨privateKey, K⟩ now, []) es (q, log) :=
    (Run.logged_pairwise readCalls_length_le).trans
      (and_iff_right List.Pairwise.nil)
  rw [← hpairwise]
  refine and_congr_right fun hrun => ?_
  have hkeys : HasKey K q ∧ ∀ c ∈ log, c.key = K := by
    refine Run.invariant (I := fun s : Peer × List ReadCall =>
      HasKey K s.1 ∧ ∀ c ∈ s.2, c.key = K) ?_ hrun
      ⟨rfl, fun c hc => by cases hc⟩
    rintro s e t ⟨hs, hlog⟩ ⟨⟨-, ht⟩, hnew⟩
    refine ⟨ht, fun c hc => ?_⟩
    rw [hnew] at hc
    rcases List.mem_append.mp hc with hold | hcall
    · exact hlog c hold
    · exact (readCalls_key hcall).trans hs
  have hiff : ∀ b c, b ∈ log → c ∈ log → (NotTwice b c ↔ CounterMoved b c) :=
    fun b c hb hc => notTwice_iff ((hkeys.2 b hb).trans (hkeys.2 c hc).symm)
      (hbind b hb c hc)
  constructor
  · intro h
    exact h.imp_of_mem fun hb hc hnot => (hiff _ _ hb hc).mp hnot
  · intro h
    exact h.imp_of_mem fun hb hc hmoved => (hiff _ _ hb hc).mpr hmoved

-- ========================================================== two deliveries

/-- An empty packet under the zero key, as a server that has begun with a
counter of zero reads it. -/
def emptyPacket (nonce : UInt64) : Bytes :=
  created 0 [] 1 Flags.noFlags nonce 0 Key.zero.val

theorem emptyPacket_fits (nonce : UInt64) : Outbox.Fits (emptyPacket nonce) :=
  created_fits (Nat.zero_le _) _ _ _ _ _

/-- Under its own nonce it is accepted. -/
theorem readPacket_emptyPacket (nonce : UInt64) :
    readPacket 0 (readBuffer (emptyPacket nonce)) nonce Key.zero.val
      = .ok (.ok (sentPacket 0 [] 1 Flags.noFlags nonce 0)) := by
  unfold readBuffer emptyPacket
  rw [readPacket_created Key.zero.property (Nat.zero_le _) fun _ => rfl,
    checkPacket_sentPacket (Nat.zero_le _) (fresh_self 0)]

/-- The call that the task of read `k` makes for it at nonce `n`. -/
def emptyCall (k : Nat) (nonce n : UInt64) : ReadCall where
  position := k + 1
  now := 0
  buffer := readBuffer (emptyPacket nonce)
  nonce := n
  key := Key.zero

theorem emptyCall_accepted (k : Nat) (nonce : UInt64) :
    (emptyCall k nonce nonce).Accepted := ⟨_, readPacket_emptyPacket nonce⟩

theorem emptyCall_encrypted (k : Nat) (nonce n : UInt64) :
    (emptyCall k nonce n).Encrypted := by
  show ¬NoCrypto (headerOf (readBuffer (emptyPacket nonce))).flags
  rw [← accepted_flags Key.zero.property (readPacket_emptyPacket nonce)]
  show ¬NoCrypto Flags.noFlags
  decide

/-- A server session under the zero key reads the packet. -/
theorem read_empty (sodium : Sodium) {p : Peer} (hkey : HasKey Key.zero p)
    (nonce : UInt64) (log : List ReadCall) :
    Logged (Into (Step sodium) (HasKey Key.zero)) readCalls (p, log)
      (.read (emptyPacket nonce) 0)
      (p.completeRead 0 (emptyPacket nonce), log) := by
  obtain ⟨hne, hlen⟩ := emptyPacket_fits nonce
  exact ⟨⟨.read hne hlen, hkey⟩, (List.append_nil log).symm⟩

/-- The pool runs its task. -/
theorem run_empty (sodium : Sodium) {p : Peer} (hkey : HasKey Key.zero p)
    {k : Nat} {nonce n : UInt64} {result : Except PacketError Packet}
    (hτ : p.tasks[k]? = some (.serverRead (readBuffer (emptyPacket nonce))))
    (hnonce : SessionServer.readNonce p.session = n)
    (hread : readPacket 0 (readBuffer (emptyPacket nonce)) n Key.zero.val
      = .ok result) (log : List ReadCall) :
    ∃ q, Logged (Into (Step sodium) (HasKey Key.zero)) readCalls (p, log)
        (.task k 0) (q, log ++ [emptyCall k nonce n])
      ∧ q.session = p.session
      ∧ q.tasks = p.tasks.set k (SessionServer.afterRead p.session result).task
    := by
  have hrun : (Task.serverRead (readBuffer (emptyPacket nonce))).run sodium 0
      p.session = .ok (SessionServer.afterRead p.session result) := by
    refine SessionServer.callbackRead_eq ?_
    rw [hnonce, show p.session.keys.sharedKey = Key.zero from hkey]
    exact hread
  have hsession : (SessionServer.afterRead p.session result).session
      = p.session := by
    cases result <;> rfl
  refine ⟨_, ⟨⟨.task hτ hrun, ?_⟩, ?_⟩, hsession, rfl⟩
  · unfold HasKey
    dsimp only
    rw [hsession]
    exact hkey
  · unfold readCalls
    dsimp only
    rw [hτ]
    dsimp only
    rw [hnonce, show p.session.keys.sharedKey = Key.zero from hkey]
    rfl

/-- The tag of the packet with nonce 0 is not its tag under nonce 1. -/
theorem tagsBind_empty : TagsBind [emptyCall 0 0 0, emptyCall 1 0 1] := by
  have hother : ¬(emptyCall 1 0 1).Verifies :=
    not_carriesTag_of_tag Key.zero.property
      (System.emptySending_mismatch 0 _ : readPacket 0
        (readBuffer (emptyPacket 0)) 1 Key.zero.val = .ok (.error .tag))
  intro b hb c hc _ _ hb' hc'
  rw [List.mem_pair] at hb hc
  rcases hb with rfl | rfl
  · rcases hc with rfl | rfl
    · rfl
    · exact absurd hc' hother
  · exact absurd hb' hother

/-- A copy that is read after its packet was handled is rejected. -/
theorem copy_rejected :
    ∃ q, Run (Logged (Into (Step ⟨id, fun _ _ => none, id⟩)
          (HasKey Key.zero)) readCalls)
        (start .server ⟨Key.zero, Key.zero⟩ 0, [])
        [.read (emptyPacket 0) 0, .task 0 0, .read (emptyPacket 0) 0,
          .task 1 0] (q, [emptyCall 0 0 0, emptyCall 1 0 1])
      ∧ [emptyCall 0 0 0, emptyCall 1 0 1].Pairwise NotTwice := by
  let sodium : Sodium := ⟨id, fun _ _ => none, id⟩
  let p : Peer := start .server ⟨Key.zero, Key.zero⟩ 0
  have h₁ := read_empty sodium (p := p) rfl 0 []
  obtain ⟨p₂, h₂, hsession, htasks⟩ := run_empty sodium (k := 0) (n := 0)
    (p := p.completeRead 0 (emptyPacket 0)) rfl rfl (by decide)
    (readPacket_emptyPacket 0) []
  have hkey : HasKey Key.zero p₂ := h₂.1.2
  have hrole : p₂.role = .server := h₂.1.1.role_eq
  have h₃ := read_empty sodium hkey 0 ([] ++ [emptyCall 0 0 0])
  have hτ : (p₂.completeRead 0 (emptyPacket 0)).tasks[1]?
      = some (.serverRead (readBuffer (emptyPacket 0))) := by
    show (p₂.tasks ++ [p₂.role.task _])[1]? = _
    rw [htasks, hrole]
    rfl
  have hnonce : SessionServer.readNonce
      (p₂.completeRead 0 (emptyPacket 0)).session = 1 := by
    show (p₂.session.completeRead 0).messageCounter - 1 = 1
    rw [hsession]
    decide
  obtain ⟨p₄, h₄, -⟩ := run_empty sodium (k := 1)
    (p := p₂.completeRead 0 (emptyPacket 0)) hkey hτ hnonce
    (System.emptySending_mismatch 0 _) ([] ++ [emptyCall 0 0 0])
  have hcalls := List.append_cancel_left h₄.2
  refine ⟨p₄, (acceptedOnce_iff sodium .server Key.zero Key.zero 0 _ p₄ _
    tagsBind_empty).mpr (.cons ⟨h₁, ?_⟩ (.cons ⟨h₂, ?_⟩ (.cons ⟨h₃, ?_⟩
      (.cons ⟨h₄, ?_⟩ (.nil _)))))⟩
  · intro c hc
    cases hc
  · intro c _ b hb
    cases hb
  · intro c hc
    cases hc
  · intro c hc b hb
    rw [← hcalls] at hc
    rw [List.mem_singleton.mp hc, List.mem_singleton.mp hb]
    intro _ _ _ _
    decide

/-- Two copies of a packet arrive before the pool gets to the first, and
both are accepted. -/
theorem both_copies_accepted :
    ¬∀ (sodium : Sodium) (role : Role) (privateKey K : Key) (now : Int64)
        (es : List Event) (q : Peer) (log : List ReadCall), TagsBind log →
        Run (Logged (Into (Step sodium) (HasKey K)) readCalls)
          (start role ⟨privateKey, K⟩ now, []) es (q, log) →
        log.Pairwise NotTwice := by
  intro hall
  let sodium : Sodium := ⟨id, fun _ _ => none, id⟩
  let p : Peer := start .server ⟨Key.zero, Key.zero⟩ 0
  have h₁ := read_empty sodium (p := p) rfl 1 []
  have h₂ := read_empty sodium (p := p.completeRead 0 (emptyPacket 1)) rfl 1 []
  obtain ⟨p₃, h₃, hsession, htasks⟩ := run_empty sodium (k := 0) (n := 1)
    (p := (p.completeRead 0 (emptyPacket 1)).completeRead 0 (emptyPacket 1))
    rfl rfl (by decide) (readPacket_emptyPacket 1) []
  have hkey : HasKey Key.zero p₃ := h₃.1.2
  obtain ⟨p₄, h₄, -⟩ := run_empty sodium (k := 1) (n := 1) hkey
    (by rw [htasks]; rfl) (by rw [hsession]; decide) (readPacket_emptyPacket 1) _
  have hlog : TagsBind [emptyCall 0 1 1, emptyCall 1 1 1] := by
    intro b hb c hc _ _ _ _
    rw [List.mem_pair] at hb hc
    rcases hb with rfl | rfl <;> rcases hc with rfl | rfl <;> rfl
  have hnot := hall sodium .server Key.zero Key.zero 0 _ p₄ _ hlog
    (.cons h₁ (.cons h₂ (.cons h₃ (.cons h₄ (.nil _)))))
  exact List.pairwise_pair.mp hnot rfl (emptyCall_encrypted 0 1 1)
    ⟨emptyCall_accepted 0 1, emptyCall_accepted 1 1⟩

end Peer

end Remc.Net
