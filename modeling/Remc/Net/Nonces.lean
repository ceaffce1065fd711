/-
Which nonces the packets of a connection are encrypted with.

`CreatePacket` encrypts with `message_counter_`, which counts completed
reads. Two packets under one key have different nonces exactly if the
sides that created them had completed numbers of reads that differ
modulo 2^32 (`sealings_distinct_iff`); a side that writes twice between
two reads uses one nonce twice.
-/
import Remc.Net.System

namespace Remc.Net

open Crypto Runs

variable {sodium : Sodium}

/-- An encryption by `CreatePacket`: its key, its nonce, and how many
reads the side that made it had completed. -/
structure Sealing where
  key : Key
  nonce : Nonce96
  reads : Nat
deriving DecidableEq

/-- The encryption that an event makes: a posted closure encrypts unless
its flags have the `NoCrypto` bit. -/
def Peer.sealings (p : Peer) : Event → List Sealing
  | .handler _ _ =>
      match p.posted with
      | [] => []
      | w :: _ =>
          if NoCrypto w.flags then []
          else
            [{ key := p.session.keys.sharedKey
               nonce := nonce96 p.session.messageCounter
               reads := p.reads }]
  | _ => []

theorem Peer.sealings_handler {p : Peer} {w : PostedWrite}
    {rest : List PostedWrite} (hposted : p.posted = w :: rest)
    (hcrypto : ¬NoCrypto w.flags) (now : Int64) (drawn : UInt64) :
    p.sealings (.handler now drawn)
      = [{ key := p.session.keys.sharedKey
           nonce := nonce96 p.session.messageCounter
           reads := p.reads }] := by
  unfold sealings
  dsimp only
  rw [hposted]
  exact if_neg hcrypto

namespace System

/-- The encryption that an event makes at its side. -/
def sealings (S : System) (a : Role × Event) : List Sealing :=
  (S.peer a.1).sealings a.2

/-- The key and nonce of two encryptions are not both the same. -/
def KeyNonceDistinct (a b : Sealing) : Prop :=
  a.key = b.key → a.nonce ≠ b.nonce

/-- A closure that encrypts runs only while the number of reads its side
has completed differs, modulo 2^32, from that of every encryption made
under the same key before. -/
def FreshCount (S : System × List Sealing) (a : Role × Event) : Prop :=
  ∀ c ∈ S.1.sealings a, ∀ b ∈ S.2,
    b.key = c.key → b.reads % 2 ^ 32 ≠ c.reads % 2 ^ 32

/-- An encryption is made by a posted closure without the `NoCrypto` bit;
its nonce is the number of reads completed. -/
theorem mem_sealings {S : System} (hS : S.Sound) {r : Role} {e : Event}
    {c : Sealing} (hc : c ∈ S.sealings (r, e)) :
    ∃ w rest, (S.peer r).posted = w :: rest ∧ ¬NoCrypto w.flags
      ∧ c.key = (S.peer r).session.keys.sharedKey
      ∧ c.nonce = nonce96 (S.peer r).session.messageCounter
      ∧ c.nonce = nonce96 (UInt64.ofNat c.reads) := by
  unfold sealings Peer.sealings at hc
  dsimp only at hc
  split at hc
  next =>
    split at hc
    next => cases hc
    next w rest hposted =>
      split at hc
      next => cases hc
      next hcrypto =>
        cases List.mem_singleton.mp hc
        exact ⟨w, rest, hposted, hcrypto, rfl, rfl,
          congrArg nonce96 (hS r).1.counter⟩
  next => cases hc

theorem sealings_length_le (S : System) (a : Role × Event) :
    (S.sealings a).length ≤ 1 := by
  unfold sealings Peer.sealings
  split
  next =>
    split
    next => exact Nat.zero_le 1
    next =>
      split
      next => exact Nat.zero_le 1
      next => exact Nat.le_refl 1
  next => exact Nat.zero_le 1

/-- It is what the packet that goes out is sealed with. -/
theorem sealings_sent {S T : System} (hS : S.Sound) {r : Role} {now : Int64}
    {drawn : UInt64} (h : Step sodium S (r, .handler now drawn) T)
    {c : Sealing} (hc : c ∈ S.sealings (r, .handler now drawn)) :
    ∃ header payload, (T.peer r).view.sent = (S.peer r).view.sent
      ++ [wire header (sealed c.key.val c.nonce (serializedHeader header)
        payload)] := by
  obtain ⟨w, rest, hposted, hcrypto, hkey, hnonce, -⟩ := mem_sealings hS hc
  obtain ⟨w', rest', hposted', hview⟩ :=
    Peer.handler_view (hS r).1 h.peers.1
  rw [hposted] at hposted'
  cases hposted'
  rw [hview, hkey, hnonce]
  refine ⟨createHeader now w.payload 1 w.flags
    (S.peer r).session.messageCounter (w.messageId drawn), w.payload, ?_⟩
  have hbody : encodedPayload w.payload (createHeader now w.payload 1 w.flags
      (S.peer r).session.messageCounter (w.messageId drawn))
      (S.peer r).session.keys.sharedKey.val
      (S.peer r).session.messageCounter = _ := if_neg hcrypto
  dsimp only
  rw [PostedWrite.packet, created, hbody]

/-- In a run of two connected sessions, no two encryptions have the same
key and nonce exactly if every closure that encrypts runs at a fresh
count of reads. -/
theorem sealings_distinct_iff (sodium : Sodium) (keys : Role → KeysWrapper)
    (now : Int64) (es : List (Role × Event)) (T : System)
    (log : List Sealing) :
    (Run (Logged (Step sodium) sealings) (start keys now, []) es (T, log)
        ∧ log.Pairwise KeyNonceDistinct)
      ↔ Run (When (Logged (Step sodium) sealings) FreshCount)
        (start keys now, []) es (T, log) := by
  have hpres : ∀ s a t,
      (s.1.Sound ∧ ∀ c ∈ s.2, c.nonce = nonce96 (UInt64.ofNat c.reads)) →
      Logged (Step sodium) sealings s a t →
      t.1.Sound ∧ ∀ c ∈ t.2, c.nonce = nonce96 (UInt64.ofNat c.reads) := by
    rintro s a t ⟨hs, hlog⟩ h
    refine ⟨hs.step h.1, fun c hc => ?_⟩
    rw [h.2] at hc
    rcases List.mem_append.mp hc with hold | hnew
    · exact hlog c hold
    · obtain ⟨-, -, -, -, -, -, hnonce⟩ := mem_sealings (r := a.1) hs hnew
      exact hnonce
  have hiff : ∀ s a t,
      (s.1.Sound ∧ ∀ c ∈ s.2, c.nonce = nonce96 (UInt64.ofNat c.reads)) →
      Logged (Step sodium) sealings s a t →
      ((∀ c ∈ s.1.sealings a, ∀ b ∈ s.2, KeyNonceDistinct b c)
        ↔ FreshCount s a) := by
    rintro s a t ⟨hs, hlog⟩ -
    refine forall₂_congr fun c hc => forall₂_congr fun b hb => ?_
    refine imp_congr_right fun _ => not_congr ?_
    obtain ⟨-, -, -, -, -, -, hnonce⟩ := mem_sealings (r := a.1) hs hc
    rw [hlog b hb, hnonce]
    exact nonce96_ofNat_eq_iff b.reads c.reads
  rw [Run.logged_pairwise sealings_length_le, Run.when_congr hpres hiff
    ⟨start_sound keys now, fun c hc => by cases hc⟩]
  exact and_iff_right List.Pairwise.nil

/-- What one side logs on its own, both log. -/
theorem run_of_local {r : Role} {es : List Event}
    (hlocal : ∀ e ∈ es, ∀ chunk now, e ≠ .read chunk now) {S : System}
    {q : Peer} {log log' : List Sealing}
    (h : Run (Logged (Peer.Step sodium) Peer.sealings) (S.peer r, log) es
      (q, log')) :
    ∃ T, Run (Logged (Step sodium) sealings) (S, log) (es.map (r, ·))
      (T, log') := by
  induction es generalizing S log with
  | nil =>
      cases h
      exact ⟨S, .nil _⟩
  | cons e es ih =>
      cases h with
      | @cons _ mid _ _ _ hstep hrest =>
          obtain ⟨p, log₁⟩ := mid
          obtain ⟨hstep, hlog⟩ := hstep
          obtain ⟨T₁, hT₁, hpeer, -, -⟩ :=
            local_step (hlocal e (List.mem_cons_self ..)) hstep
          have hp : T₁.peer r = p := hpeer
          rw [← hp] at hrest
          obtain ⟨T, hT⟩ :=
            ih (fun e' he' => hlocal e' (List.mem_cons_of_mem _ he')) hrest
          exact ⟨T, .cons ⟨hT₁, hlog⟩ hT⟩

/-- A client that writes two messages, with different ids, before anything
is read. -/
theorem nonce_reused :
    ¬∀ (sodium : Sodium) (keys : Role → KeysWrapper) (now : Int64)
        (es : List (Role × Event)) (T : System) (log : List Sealing),
        Run (Logged (Step sodium) sealings) (start keys now, []) es (T, log) →
        log.Pairwise KeyNonceDistinct := by
  intro hall
  let sodium : Sodium := ⟨id, fun _ _ => none, id⟩
  let keys : KeysWrapper := ⟨Key.zero, Key.zero⟩
  let w : PostedWrite := .client Flags.noFlags [104, 105] none
  let w' : PostedWrite := .client Flags.noFlags [98, 121, 101] none
  let first : Sealing := ⟨Key.zero, nonce96 0, 0⟩
  let p : Peer := .start .client keys 0
  let p₁ : Peer := { p with posted := [w] }
  let p₂ : Peer := { p with posted := [w, w'] }
  have h₁ : Peer.Step sodium p (.write w) p₁ :=
    Peer.write_step rfl (by decide)
  have h₂ : Peer.Step sodium p₁ (.write w') p₂ :=
    Peer.write_step rfl (by decide)
  have hsound := ((Peer.start_sound .client keys 0).step h₁).step h₂
  obtain ⟨p₃, h₃, hposted, -, hkeys, htasks, -⟩ :=
    Peer.handler_enabled sodium hsound rfl 0 1
  obtain ⟨p₄, h₄, -⟩ :=
    Peer.handler_enabled sodium (hsound.step h₃) hposted 0 2
  have hcrypto : ¬NoCrypto w.flags := by decide
  have hcrypto' : ¬NoCrypto w'.flags := by decide
  have hfirst : p₂.sealings (.handler 0 1) = [first] :=
    Peer.sealings_handler rfl hcrypto 0 1
  have hsecond : p₃.sealings (.handler 0 2) = [first] := by
    have hcounter := (hsound.step h₃).counter
    unfold Peer.reads at hcounter
    rw [Peer.sealings_handler hposted hcrypto', Peer.reads, hkeys, hcounter,
      htasks]
    rfl
  have hrun : Run (Logged (Peer.Step sodium) Peer.sealings) (p, [])
      [.write w, .write w', .handler 0 1, .handler 0 2] (p₄, [first, first]) :=
    .cons (⟨h₁, rfl⟩ : Logged _ _ _ _ (p₁, []))
      (.cons (⟨h₂, rfl⟩ : Logged _ _ _ _ (p₂, []))
        (.cons (⟨h₃, hfirst.symm⟩ : Logged _ _ _ _ (p₃, [first]))
          (.cons ⟨h₄, congrArg ([first] ++ ·) hsecond.symm⟩ (.nil _))))
  obtain ⟨T, hT⟩ := run_of_local (S := start (fun _ => keys) 0) (r := .client)
    (by simp) hrun
  have hdistinct := hall sodium _ 0 _ T _ hT
  exact (List.pairwise_pair.mp hdistinct) rfl rfl

end System

end Remc.Net
