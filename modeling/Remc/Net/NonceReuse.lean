/-
What two packets under one nonce tell whoever listens.

`CreatePacket` takes the count of completed reads for the nonce, so a
side that writes twice between two reads enciphers two texts with one
keystream. Their XOR can then be read off the wire, without the key
(`texts_revealed`).
-/
import Remc.Net.Nonces

namespace Remc.Net

open Crypto Runs Keystream

variable {sodium : Sodium}

/-- An encryption by `CreatePacket`, with the text and the packet. -/
structure Encryption extends Sealing where
  text : Bytes
  packet : Bytes
deriving DecidableEq

/-- What stands before the tag in the payload of a buffer. -/
def cipherOf (w : Bytes) : Bytes :=
  (packetOf w).payload.take ((packetOf w).payload.length - 16)

/-- Before the tag of a packet stands its enciphered text. -/
theorem cipherOf_created {payload : Bytes}
    (hsize : payload.length ≤ tcpPayloadSizeMax) {flags : UInt32}
    (hcrypto : ¬NoCrypto flags) (now : Int64) (version : UInt16)
    (nonce messageId : UInt64) (key : Bytes) :
    cipherOf (created now payload version flags nonce messageId key)
      = cipherText key (nonce96 nonce) payload := by
  have hpacket : packetOf (created now payload version flags nonce messageId
      key ++ []) = _ :=
    (complete_created hsize now version flags nonce messageId []).2
  rw [List.append_nil] at hpacket
  have hbody : encodedPayload payload
      (createHeader now payload version flags nonce messageId) key nonce
      = sealed key (nonce96 nonce) _ payload := if_neg hcrypto
  have hlength : payload.length + 16 - 16
      = (cipherText key (nonce96 nonce) payload).length := by
    rw [cipherText_length, Nat.add_sub_cancel]
  rw [cipherOf, hpacket]
  dsimp only
  rw [hbody, sealed_length, hlength, sealed, List.take_left]

/-- What a posted closure encrypts, unless its flags have the `NoCrypto`
bit. -/
def Peer.encryptions (p : Peer) : Event → List Encryption
  | .handler now drawn =>
      match p.posted with
      | [] => []
      | w :: _ =>
          if NoCrypto w.flags then []
          else
            [{ key := p.session.keys.sharedKey
               nonce := nonce96 p.session.messageCounter
               reads := p.reads
               text := w.payload
               packet := w.packet now drawn p.session }]
  | _ => []

/-- The packet of an encryption is its text under its key and nonce. -/
def Encryption.Enciphers (c : Encryption) : Prop :=
  cipherOf c.packet = cipherText c.key.val c.nonce c.text
    ∧ c.nonce = nonce96 (UInt64.ofNat c.reads)

theorem Peer.encryptions_handler {p : Peer} {w : PostedWrite}
    {rest : List PostedWrite} (hposted : p.posted = w :: rest)
    (hcrypto : ¬NoCrypto w.flags) (now : Int64) (drawn : UInt64) :
    p.encryptions (.handler now drawn)
      = [{ key := p.session.keys.sharedKey
           nonce := nonce96 p.session.messageCounter
           reads := p.reads
           text := w.payload
           packet := w.packet now drawn p.session }] := by
  unfold encryptions
  dsimp only
  rw [hposted]
  exact if_neg hcrypto

theorem Peer.encryptions_plain {p : Peer} {w : PostedWrite}
    {rest : List PostedWrite} (hposted : p.posted = w :: rest)
    (hplain : NoCrypto w.flags) (now : Int64) (drawn : UInt64) :
    p.encryptions (.handler now drawn) = [] := by
  unfold encryptions
  dsimp only
  rw [hposted]
  exact if_pos hplain

/-- An encryption of a step goes out as a packet, under its nonce. -/
theorem Peer.encryptions_step {p q : Peer} {e : Event} (hp : p.Sound)
    (h : Step sodium p e q) {c : Encryption} (hc : c ∈ p.encryptions e) :
    c.Enciphers ∧ c.packet ∈ q.view.sent := by
  cases e with
  | handler now drawn =>
      obtain ⟨w, rest, hposted, hview⟩ := handler_view hp h
      by_cases hplain : NoCrypto w.flags
      · rw [encryptions_plain hposted hplain] at hc
        cases hc
      · rw [encryptions_handler hposted hplain] at hc
        cases List.mem_singleton.mp hc
        have hsize := hp.sizes w (by rw [hposted]; exact List.mem_cons_self ..)
        refine ⟨⟨?_, congrArg nonce96 hp.counter⟩, ?_⟩
        · exact cipherOf_created hsize hplain now 1 _ _ _
        · rw [hview]
          exact List.mem_append_right _ (List.mem_singleton_self _)
  | write w => cases hc
  | transfer i n => cases hc
  | written i ec now => cases hc
  | close => cases hc
  | read chunk now => cases hc
  | task k now => cases hc

namespace System

/-- What an event encrypts at its side. -/
def encryptions (S : System) (a : Role × Event) : List Encryption :=
  (S.peer a.1).encryptions a.2

/-- What is sent stays sent. -/
theorem Step.sent_mono {S T : System} {a : Role × Event} (hS : S.Sound)
    (h : Step sodium S a T) (r : Role) {w : Bytes}
    (hw : w ∈ (S.peer r).view.sent) : w ∈ (T.peer r).view.sent := by
  obtain ⟨r', e⟩ := a
  obtain ⟨hstep, hother⟩ := h.peers
  rcases Role.eq_or_other r' r with rfl | rfl
  · rcases Peer.sent_step (hS r).1 hstep with ⟨_, _, _, _, _, -, hsent⟩ | hsent
    · rw [hsent]
      exact List.mem_append_left _ hw
    · rwa [hsent]
  · rwa [hother]

/-- The texts that a log holds went out enciphered. -/
def Revealed (s : System × List Encryption) : Prop :=
  s.1.Sound ∧ ∀ c ∈ s.2,
    c.Enciphers ∧ ∃ r, c.packet ∈ (s.1.peer r).view.sent

theorem Revealed.step {s t : System × List Encryption} {a : Role × Event}
    (hs : Revealed s) (h : Logged (Step sodium) encryptions s a t) :
    Revealed t := by
  obtain ⟨hsound, hlog⟩ := hs
  obtain ⟨hstep, hnext⟩ := h
  refine ⟨hsound.step hstep, fun c hc => ?_⟩
  rw [hnext] at hc
  rcases List.mem_append.mp hc with hold | hnew
  · obtain ⟨hcipher, r, hsent⟩ := hlog c hold
    exact ⟨hcipher, r, hstep.sent_mono hsound r hsent⟩
  · obtain ⟨hcipher, hsent⟩ :=
      Peer.encryptions_step (hsound a.1).1 hstep.peers.1 hnew
    exact ⟨hcipher, a.1, hsent⟩

/-- Two encryptions under one key, by sides that had completed numbers of
reads that agree modulo 2^32, put on the wire two packets whose XOR is
that of the texts. -/
theorem texts_revealed (sodium : Sodium) {keys : Role → KeysWrapper}
    {now : Int64} {es : List (Role × Event)} {T : System}
    {log : List Encryption}
    (h : Run (Logged (Step sodium) encryptions) (start keys now, []) es
      (T, log)) {a b : Encryption} (ha : a ∈ log) (hb : b ∈ log)
    (hkey : a.key = b.key) (hreads : a.reads % 2 ^ 32 = b.reads % 2 ^ 32) :
    (∃ r, a.packet ∈ (T.peer r).view.sent)
      ∧ (∃ r, b.packet ∈ (T.peer r).view.sent)
      ∧ xor (cipherOf a.packet) (cipherOf b.packet) = xor a.text b.text := by
  have hstart : Revealed (start keys now, []) :=
    ⟨start_sound keys now, fun c hc => by cases hc⟩
  obtain ⟨-, hlog⟩ := h.invariant (fun _ _ _ hs hstep => hs.step hstep) hstart
  obtain ⟨⟨hcipherA, hnonceA⟩, hsentA⟩ := hlog a ha
  obtain ⟨⟨hcipherB, hnonceB⟩, hsentB⟩ := hlog b hb
  have hnonce : a.nonce = b.nonce := by
    rw [hnonceA, hnonceB]
    exact (nonce96_ofNat_eq_iff a.reads b.reads).mpr hreads
  refine ⟨hsentA, hsentB, ?_⟩
  rw [hcipherA, hcipherB, hkey, hnonce]
  exact xor_segments ChaCha20Aligned.generator (origin b.key.val b.nonce) 64
    a.text b.text

/-- A client that writes two texts before it reads anything. -/
theorem texts_revealed_twice : ∃ T log a b,
    Run (Logged (Step ⟨id, fun _ _ => none, id⟩) encryptions)
        (start (fun _ => ⟨Key.zero, Key.zero⟩) 0, [])
        [(.client, .write (.client Flags.noFlags [1] none)),
          (.client, .write (.client Flags.noFlags [2] none)),
          (.client, .handler 0 0), (.client, .handler 0 0)] (T, log)
      ∧ a ∈ log ∧ b ∈ log ∧ a.text = [1] ∧ b.text = [2]
      ∧ xor (cipherOf a.packet) (cipherOf b.packet) = [3] := by
  let sodium : Sodium := ⟨id, fun _ _ => none, id⟩
  let S : System := start (fun _ => ⟨Key.zero, Key.zero⟩) 0
  let w₁ : PostedWrite := .client Flags.noFlags [1] none
  let w₂ : PostedWrite := .client Flags.noFlags [2] none
  have hcrypto : ¬NoCrypto Flags.noFlags := by decide
  have hsize : 1 ≤ tcpPayloadSizeMax := by decide
  have hwrite₁ : Peer.Step sodium (S.peer .client) (.write w₁) _ :=
    Peer.write_step rfl hsize
  obtain ⟨S₁, h₁, hpeer₁, -, -⟩ :=
    local_step (fun _ _ he => by cases he) hwrite₁
  have hS₁ : S₁.Sound := (start_sound _ 0).step h₁
  have hwrite₂ : Peer.Step sodium (S₁.peer .client) (.write w₂) _ :=
    Peer.write_step (hS₁ .client).2.symm hsize
  obtain ⟨S₂, h₂, hpeer₂, -, -⟩ :=
    local_step (fun _ _ he => by cases he) hwrite₂
  have hS₂ : S₂.Sound := hS₁.step h₂
  have hposted₂ : (S₂.peer .client).posted = [w₁, w₂] := by
    rw [hpeer₂, hpeer₁]
    rfl
  have htasks₂ : (S₂.peer .client).tasks = [] := by
    rw [hpeer₂, hpeer₁]
    rfl
  obtain ⟨p₃, hp₃, hposted₃, -, hkeys₃, htasks₃, -⟩ :=
    Peer.handler_enabled sodium (hS₂ .client).1 hposted₂ 0 0
  obtain ⟨S₃, h₃, hpeer₃, -, -⟩ := local_step (fun _ _ he => by cases he) hp₃
  have hS₃ : S₃.Sound := hS₂.step h₃
  rw [← hpeer₃] at hposted₃ hkeys₃ htasks₃
  obtain ⟨p₄, hp₄, -⟩ :=
    Peer.handler_enabled sodium (hS₃ .client).1 hposted₃ 0 0
  obtain ⟨S₄, h₄, -, -, -⟩ := local_step (fun _ _ he => by cases he) hp₄
  have hfirst := Peer.encryptions_handler hposted₂ hcrypto 0 0
  have hsecond := Peer.encryptions_handler hposted₃ hcrypto 0 0
  rw [hkeys₃, Peer.reads, htasks₃] at hsecond
  have hrun : Run (Logged (Step sodium) encryptions) (S, []) _ (S₄, _) :=
    .logged_cons h₁ rfl <| .logged_cons h₂ rfl <| .logged_cons h₃ hfirst <|
    .logged_cons h₄ hsecond (.nil _)
  refine ⟨S₄, _, _, _, hrun, List.mem_cons_self ..,
    List.mem_cons_of_mem _ (List.mem_cons_self ..), rfl, rfl, ?_⟩
  obtain ⟨-, -, hxor⟩ := texts_revealed sodium hrun (List.mem_cons_self ..)
    (List.mem_cons_of_mem _ (List.mem_cons_self ..)) rfl rfl
  rw [hxor]
  rfl

end System

end Remc.Net
