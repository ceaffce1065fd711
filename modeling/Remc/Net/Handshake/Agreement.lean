/-
The handshake, under every interleaving.

`Write` only posts a closure, which reads the shared key when it runs, on
another thread than `DefaultReadCallback`; so the server's answer is
encrypted under the key the client still holds exactly if that closure
runs before the callback gets to `ComputeSharedKey`.

`Progress` is how far one side can be ahead of the other. Every step
keeps it as long as the answer goes first (`Progress.step`), and where
both sides have finished they hold the same key (`handshake_agrees`). If
the key goes first, the client cannot read the answer
(`late_answer_rejected`).
-/
import Remc.Net.Handshake.Schedules

namespace Remc.Net.System

open Crypto Runs

variable {sodium : Sodium} {a b : Key} {S T : System} {e : Event}

-- ============================================================== the progress

/-- Both sides are at one of their stages; the server has not read what
the client has not sent, nor the client what the server has not. -/
structure Progress (sodium : Sodium) (a b : Key) (S : System) : Prop where
  sound : S.Sound
  stages : ∃ t t' id m n,
    ClientAt sodium a b t t' id m (S.peer .client)
      ∧ ServerAt sodium a b t t' id n (S.peer .server)
      ∧ (1 ≤ n → 1 ≤ m) ∧ (2 ≤ m → 4 ≤ n)

theorem handshakeStart_progress (sodium : Sodium) (a b : Key) (now : Int64) :
    Progress sodium a b (handshakeStart sodium a b now) where
  sound := handshakeStart_sound sodium a b now
  stages := ⟨now, now, 0, 0, 0, handshakeStart_client sodium a b now, .idle rfl,
    fun h => h, fun h => absurd h (by decide)⟩

/-- A step of the client. -/
theorem Progress.step_client (hS : Progress sodium a b S)
    (h : Step sodium S (.client, e) T) (hsodium : sodium.Agrees)
    (hundisturbed : S.Undisturbed (.client, e)) : Progress sodium a b T := by
  refine ⟨hS.sound.step h, ?_⟩
  obtain ⟨hstep, hother⟩ := h.peers
  have hserver : T.peer .server = S.peer .server := hother
  obtain ⟨t, t', id, m, n, hclient, hserverAt, hrequest, hanswer⟩ := hS.stages
  obtain ⟨hp, hrole⟩ := hS.sound .client
  rw [hserver]
  cases e with
  | write w => exact hundisturbed.elim
  | handler now drawn =>
      obtain ⟨rfl, hclient'⟩ := hclient.handler hp hstep
      obtain rfl : n = 0 := by
        by_contra hn
        exact absurd (hrequest (by omega)) (by decide)
      exact ⟨now, t', drawn, 1, 0, hclient', hserverAt.restart now drawn,
        fun hn => absurd hn (by decide), fun hm => absurd hm (by decide)⟩
  | transfer i k =>
      exact ⟨t, t', id, m, n, hclient.of_view (Peer.transfer_view hstep),
        hserverAt, hrequest, hanswer⟩
  | written i ec now =>
      exact ⟨t, t', id, m, n, hclient.of_view (Peer.written_view hp hstep),
        hserverAt, hrequest, hanswer⟩
  | close =>
      exact ⟨t, t', id, m, n, hclient.of_view (Peer.close_view hp hstep),
        hserverAt, hrequest, hanswer⟩
  | read chunk now =>
      -- the read returns the server's packet of that number, the answer
      have hchunk : (S.peer .server).view.sent[(S.peer .client).reads]?
        = some chunk := hundisturbed
      rw [hserverAt.sent, hclient.reads] at hchunk
      split at hchunk
      next hn =>
        split at hchunk
        next => cases hchunk
        next hm =>
          cases hchunk
          obtain rfl : m = 1 := by
            have := hrequest (by omega)
            omega
          exact ⟨t, t', id, 2, n, hclient.read hrole hstep rfl, hserverAt,
            fun _ => by decide, fun _ => hn⟩
      next => cases hchunk
  | task k now =>
      obtain ⟨hm, hclient'⟩ := hclient.task hsodium hp hstep hundisturbed
      exact ⟨t, t', id, _, n, hclient', hserverAt, fun _ => by omega,
        fun _ => hanswer hm⟩

/-- A step of the server. -/
theorem Progress.step_server (hS : Progress sodium a b S)
    (h : Step sodium S (.server, e) T) (hsodium : sodium.Agrees)
    (hundisturbed : S.Undisturbed (.server, e))
    (hfirst : S.AnswerFirst (.server, e)) : Progress sodium a b T := by
  refine ⟨hS.sound.step h, ?_⟩
  obtain ⟨hstep, hother⟩ := h.peers
  have hclient : T.peer .client = S.peer .client := hother
  obtain ⟨t, t', id, m, n, hclientAt, hserver, hrequest, hanswer⟩ := hS.stages
  obtain ⟨hp, hrole⟩ := hS.sound .server
  rw [hclient]
  cases e with
  | write w => exact hundisturbed.elim
  | handler now drawn =>
      obtain ⟨rfl, hserver'⟩ := hserver.handler hp hstep
      have hm : m < 2 := by
        by_contra hm
        exact absurd (hanswer (by omega)) (by decide)
      exact ⟨t, now, id, m, 4, hclientAt.retime hm now, hserver',
        fun _ => hrequest (by decide), fun _ => by decide⟩
  | transfer i k =>
      exact ⟨t, t', id, m, n, hclientAt,
        hserver.of_view (Peer.transfer_view hstep), hrequest, hanswer⟩
  | written i ec now =>
      exact ⟨t, t', id, m, n, hclientAt,
        hserver.of_view (Peer.written_view hp hstep), hrequest, hanswer⟩
  | close =>
      exact ⟨t, t', id, m, n, hclientAt,
        hserver.of_view (Peer.close_view hp hstep), hrequest, hanswer⟩
  | read chunk now =>
      -- the read returns the client's packet of that number, the request
      have hchunk : (S.peer .client).view.sent[(S.peer .server).reads]?
        = some chunk := hundisturbed
      rw [hclientAt.sent, hserver.reads] at hchunk
      split at hchunk
      next hm =>
        split at hchunk
        next => cases hchunk
        next hn =>
          cases hchunk
          obtain rfl : n = 0 := by omega
          exact ⟨t, t', id, m, 1, hclientAt, hserver.read hrole hstep rfl,
            fun _ => hm, fun hm' => absurd (hanswer hm') (by decide)⟩
      next => cases hchunk
  | task k now =>
      obtain ⟨hn, hserver'⟩ :=
        hserver.task hsodium hp hstep hundisturbed hfirst
      refine ⟨t, t', id, m, _, hclientAt, hserver', fun _ => hrequest hn, ?_⟩
      intro hm
      have := hanswer hm
      omega

/-- Every step keeps the progress of the handshake. -/
theorem Progress.step {x : Role × Event} (hS : Progress sodium a b S)
    (h : Step sodium S x T) (hsodium : sodium.Agrees)
    (hundisturbed : S.Undisturbed x) (hfirst : S.AnswerFirst x) :
    Progress sodium a b T := by
  obtain ⟨r, e⟩ := x
  cases r with
  | client => exact hS.step_client h hsodium hundisturbed
  | server => exact hS.step_server h hsodium hundisturbed hfirst

-- ============================================================ the agreement

/-- What the handshake promises in every state. -/
structure Agreement (sodium : Sodium) (a b : Key) (S : System) : Prop where
  /-- While the server's answer is to be encrypted, both sides hold the
  same key. -/
  sameKey : (S.peer .server).posted ≠ [] →
    (S.peer .server).session.keys.sharedKey
      = (S.peer .client).session.keys.sharedKey
  /-- The client accepts what it has read, and finds its callback. -/
  accepts : ∀ (k : Nat) (τ : Task) (buffer : Bytes) (now : Int64),
    (S.peer .client).tasks[k]? = some τ → τ.unread = some buffer →
      Fresh now (headerOf buffer).timestamp →
    ∃ packet, readPacket now buffer
        (SessionClient.readNonce (S.peer .client).session)
        (S.peer .client).session.keys.sharedKey.val = .ok (.ok packet)
      ∧ (S.peer .client).session.taskQueue packet.header.messageId
        = some (handshakeCallback sodium)
  /-- In the end both sides hold the key of the two. -/
  agreed : S.Finished → ∀ r,
    (S.peer r).session.keys.sharedKey = KeysWrapper.agreedKey sodium a b

/-- Where the server has something posted, neither side has computed the
key. -/
theorem Progress.sameKey (hS : Progress sodium a b S)
    (hposted : (S.peer .server).posted ≠ []) :
    (S.peer .server).session.keys.sharedKey
      = (S.peer .client).session.keys.sharedKey := by
  obtain ⟨t, t', id, m, n, hclient, hserver, -, hanswer⟩ := hS.stages
  cases hserver with
  | answered hview =>
      rw [(Peer.view_fields hview).2.2.1]
      cases hclient with
      | calling hview' => rw [(Peer.view_fields hview').2.2.1]
      | waiting hview' => rw [(Peer.view_fields hview').2.2.1]
      | reading hview' => exact absurd (hanswer le_rfl) (by decide)
      | calledBack _ hview' => exact absurd (hanswer (by decide)) (by decide)
      | agreed _ hview' => exact absurd (hanswer (by decide)) (by decide)
  | idle hview => exact absurd (Peer.view_fields hview).1 hposted
  | reading hview => exact absurd (Peer.view_fields hview).1 hposted
  | answering hview => exact absurd (Peer.view_fields hview).1 hposted
  | sending hview => exact absurd (Peer.view_fields hview).1 hposted
  | agreed hview => exact absurd (Peer.view_fields hview).1 hposted

/-- The client accepts it, and its callback is there. -/
theorem Progress.accepts (hS : Progress sodium a b S) {k : Nat} {τ : Task}
    {buffer : Bytes} {now : Int64}
    (hτ : (S.peer .client).tasks[k]? = some τ)
    (hunread : τ.unread = some buffer)
    (hfresh : Fresh now (headerOf buffer).timestamp) :
    ∃ packet, readPacket now buffer
        (SessionClient.readNonce (S.peer .client).session)
        (S.peer .client).session.keys.sharedKey.val = .ok (.ok packet)
      ∧ (S.peer .client).session.taskQueue packet.header.messageId
        = some (handshakeCallback sodium) := by
  obtain ⟨t, t', id, m, n, hclient, -, -, -⟩ := hS.stages
  obtain ⟨rfl, rfl⟩ := hclient.unread hτ hunread
  exact ⟨_, hclient.accepts (hS.sound .client).1 hfresh⟩

/-- Where both are finished, both have computed the key. -/
theorem Progress.agreed (hS : Progress sodium a b S) (hfinished : S.Finished)
    (r : Role) :
    (S.peer r).session.keys.sharedKey = KeysWrapper.agreedKey sodium a b := by
  obtain ⟨t, t', id, m, n, hclient, hserver, -, -⟩ := hS.stages
  obtain ⟨hposted, hdone, hread⟩ := hfinished .client
  obtain ⟨-, hdone', hread'⟩ := hfinished .server
  have hanswer : (S.peer .client).reads
    = (S.peer .server).view.sent.length := hread
  have hrequest : (S.peer .server).reads
    = (S.peer .client).view.sent.length := hread'
  rw [hclient.reads, hserver.sent] at hanswer
  rw [hserver.reads, hclient.sent] at hrequest
  have hm := hclient.finished hposted hdone
  have hn : 1 ≤ n := by
    by_contra hn
    rw [if_neg hn, if_pos (by omega)] at hrequest
    cases hrequest
  obtain ⟨hserverKey, rfl⟩ := hserver.finished hn hdone'
  rcases hm with rfl | ⟨hclientKey, -⟩
  · cases hanswer
  · cases r with
    | client => exact hclientKey
    | server => exact hserverKey

/-- In every run of the handshake in which the answer goes first, the
answer is encrypted under the key both sides hold, the client accepts it
and finds its callback, and in the end both sides hold the same key. -/
theorem handshake_agrees {sodium : Sodium} (hsodium : sodium.Agrees)
    {a b : Key} {now : Int64} {es : List (Role × Event)} {T : System}
    (h : Run (When (Step sodium) fun S x => S.Undisturbed x ∧ S.AnswerFirst x)
      (handshakeStart sodium a b now) es T) : Agreement sodium a b T := by
  have hpres : ∀ S x T, Progress sodium a b S →
      When (Step sodium) (fun S x => S.Undisturbed x ∧ S.AnswerFirst x) S x T →
        Progress sodium a b T := by
    rintro S x T hS ⟨hstep, hundisturbed, hfirst⟩
    exact hS.step hstep hsodium hundisturbed hfirst
  have hT := h.invariant hpres (handshakeStart_progress sodium a b now)
  exact ⟨hT.sameKey, fun _ _ _ _ hτ hunread hfresh =>
    hT.accepts hτ hunread hfresh, hT.agreed⟩

-- ============================================================= one handshake

/-- The handshake of these two, to its end. -/
theorem handshake_agrees_tabulated :
    ∃ T : System, T.Finished
      ∧ ∀ r, (T.peer r).session.keys.sharedKey = commonKey := by
  obtain ⟨es, T, hrun, hfinished⟩ :=
    handshake_finishes tabulated_agrees clientKey serverKey 0
  exact ⟨T, hfinished,
    (handshake_agrees tabulated_agrees hrun).agreed hfinished⟩

/-- The server's public key, encrypted under the common key. -/
theorem cipherText_answer :
    cipherText commonKey.val (nonce96 1) serverPublicKey.val
      = [70, 42, 109, 134, 32, 254, 148, 168, 205, 133, 71, 212, 215, 102, 104,
        245, 150, 196, 115, 12, 106, 21, 134, 33, 104, 205, 27, 56, 192, 248,
        165, 139] := by
  rw [cipherText_eq_block _ _ (by decide)]
  decide +kernel

/-- Its tag there is not its tag under the zero key. -/
theorem tag_answer_ne (cipher : Bytes) (hcipher : cipher
      = [70, 42, 109, 134, 32, 254, 148, 168, 205, 133, 71, 212, 215, 102, 104,
        245, 150, 196, 115, 12, 106, 21, 134, 33, 104, 205, 27, 56, 192, 248,
        165, 139]) :
    tag commonKey.val (nonce96 1) (headerBytes (createHeader 0
        serverPublicKey.val 1 Flags.handshake 1 0) ++ List.replicate 94 0) cipher
      ≠ tag Key.zero.val (nonce96 1) (headerBytes (createHeader 0
        serverPublicKey.val 1 Flags.handshake 1 0) ++ List.replicate 94 0) cipher
    := by
  rw [hcipher, tag_eq_block, tag_eq_block]
  decide +kernel

/-- The client still holds the zero key, and cannot read the answer. -/
theorem answer_mismatch (extra : Bytes) :
    readPacket 0 ((answer tabulated serverKey 0 0).wire commonKey.val ++ extra)
      1 Key.zero.val = .ok (.error .tag) := by
  refine readPacket_created_mismatch Key.zero.property (key_size _) (by decide)
    ?_ 0 extra
  rw [serializedHeader_eq]
  exact tag_answer_ne _ cipherText_answer

/-- The server computes the key before the closure with its answer runs,
and the client rejects the answer. -/
theorem late_answer_rejected :
    ¬∀ (sodium : Sodium) (a b : Key) (now : Int64) (es : List (Role × Event))
        (T : System), sodium.Agrees →
        Run (When (Step sodium) Undisturbed) (handshakeStart sodium a b now)
          es T → Agreement sodium a b T := by
  intro hall
  obtain ⟨es, T, hrun, hsound, hkey, htasks⟩ :=
    late_answer tabulated_agrees clientKey serverKey 0
  have hagreement := hall _ _ _ _ _ _ tabulated_agrees hrun
  obtain ⟨packet, hread, -⟩ := hagreement.accepts 0 _ _ 0
    (by rw [htasks]; rfl) rfl (by
      rw [readBuffer, Sending.headerOf_wire (key_size _)]
      exact fresh_self 0)
  have hnonce : SessionClient.readNonce (T.peer .client).session = 1 := by
    rw [SessionClient.readNonce, (hsound .client).1.counter, Peer.reads, htasks]
    rfl
  rw [hnonce, hkey] at hread
  have hrejected := hread.symm.trans (answer_mismatch _)
  cases hrejected

end Remc.Net.System
