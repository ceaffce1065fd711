/-
What one message without an answer does to a connection.

A client encrypts with the number of reads it has completed, and it reads
nothing but answers; the server decrypts the n-th packet with n - 1. So a
packet has the nonce that the server expects only if every packet before
it has been answered, and the client has read all the answers
(`Paced`). The server answers two kinds of packets. A client that sends
one packet of any other kind is out of step from there on: no encrypted
packet that it sends afterwards is accepted (`unanswered_rejected`).
-/
import Remc.Net.Exchange

namespace Remc.Net

open Crypto Runs Ledger

variable {sodium : Sodium} {K : Key}

namespace ReadCall

/-- A buffer whose tag verifies under the nonce in its header does not
verify under the nonce of the call, if that is another one. -/
def BindsNonce (c : ReadCall) : Prop :=
  c.Verifies → CarriesTag c.key.val (headerOf c.buffer).nonce c.buffer →
    nonce96 (headerOf c.buffer).nonce = nonce96 c.nonce

end ReadCall

/-- An encrypted packet carries its tag, whatever follows it. -/
theorem Sending.carriesTag {s : Sending} {key : Bytes} (hkey : key.length = 32)
    (hsize : s.payload.length ≤ tcpPayloadSizeMax) (hcrypto : ¬NoCrypto s.flags)
    (extra : Bytes) : CarriesTag key s.nonce (s.wire key ++ extra) := by
  have hread := Sending.read_wire_fresh hkey hsize (fun _ => rfl)
    (fresh_self s.time) extra
  refine (accepted_carriesTag hkey hread).1 ?_
  rw [Sending.wire, headerOf_created]
  exact hcrypto

namespace Peer

/-- A call is for the buffer of a task that has not begun. -/
theorem readCalls_unread {p : Peer} {e : Event} {c : ReadCall}
    (hc : c ∈ p.readCalls e) :
    ∃ k τ, p.tasks[k]? = some τ ∧ τ.unread = some c.buffer
      ∧ c.position = k + 1 := by
  unfold readCalls at hc
  split at hc
  next k now =>
    split at hc
    next buffer hτ =>
      rw [List.mem_singleton.mp hc]
      exact ⟨k, _, hτ, rfl, rfl⟩
    next buffer hτ =>
      rw [List.mem_singleton.mp hc]
      exact ⟨k, _, hτ, rfl, rfl⟩
    next => cases hc
  next => cases hc

end Peer

namespace System

open Peer

variable {publicKey : Key} {S T : System} {log : List (Role × ReadCall)}

/-- How many of these packets the server answers. -/
def answerable (sent : List Bytes) : Nat :=
  sent.countP fun packet => Answered (requestOf packet)

/-- Every packet of the client was encrypted with a count of reads that is
at most the number of packets before it that are answered. -/
def Paced (K : Key) (sent : List Bytes) : Prop :=
  ∀ (j : Nat) (packet : Bytes), sent[j]? = some packet →
    ∃ (s : Sending) (n : Nat), packet = s.wire K.val
      ∧ s.payload.length ≤ tcpPayloadSizeMax ∧ s.nonce = UInt64.ofNat n
      ∧ n ≤ answerable (sent.take j)

/-- A call for the packet of its position, with the nonce of its
position. -/
def Placed (K : Key) (sent : List Bytes) (c : ReadCall) : Prop :=
  c.key = K ∧ c.nonce = Role.server.nonceAt c.position
    ∧ ∃ k packet, c.position = k + 1 ∧ sent[k]? = some packet
      ∧ c.buffer = readBuffer packet

/-- A client has read at most the answers to the packets it has sent. -/
theorem Exchanged.reads_le (hS : Exchanged sodium publicKey S log) :
    (S.peer .client).reads ≤ answerable (S.peer .client).view.sent := by
  have hsent : total (fun packet => {requestOf packet})
      (S.peer .server).view.sent
      ≤ (total (fun packet => {requestOf packet})
        (S.peer .client).view.sent).filter Answered :=
    calc total (fun packet => {requestOf packet}) (S.peer .server).view.sent
        ≤ _ := hS.sent_le
      _ ≤ (total (fun packet => {requestOf packet})
          ((S.peer .client).view.sent.take (S.peer .server).reads)).filter
            Answered := Multiset.filter_le_filter _ (hS.returned_le .server)
      _ ≤ _ := Multiset.filter_le_filter _
          (total_le_total (List.take_prefix _ _))
  have hcard := Multiset.card_le_card hsent
  rw [card_total_singleton, total_singleton, ← Multiset.countP_eq_card_filter,
    Multiset.coe_countP, List.countP_map] at hcard
  exact (hS.received .client).reads.trans hcard

theorem Paced.append {sent : List Bytes} (h : Paced K sent) {s : Sending}
    {n : Nat} (hsize : s.payload.length ≤ tcpPayloadSizeMax)
    (hnonce : s.nonce = UInt64.ofNat n) (hn : n ≤ answerable sent) :
    Paced K (sent ++ [s.wire K.val]) := by
  intro j packet hpacket
  rcases Nat.lt_trichotomy j sent.length with hj | rfl | hj
  · rw [List.getElem?_append_left hj] at hpacket
    rw [List.take_append_of_le_length hj.le]
    exact h j packet hpacket
  · rw [List.getElem?_concat_length] at hpacket
    cases hpacket
    rw [List.take_left]
    exact ⟨s, n, rfl, hsize, hnonce, hn⟩
  · rw [List.getElem?_eq_none] at hpacket
    · cases hpacket
    · rw [List.length_append]
      exact hj

/-- A task of the server begins before the next read completes. -/
def ServerPrompt (S : System) : Role × Event → Prop
  | (.server, e) => (S.peer .server).Prompt e
  | (.client, _) => True

/-- What holds in every run of the theorem below. -/
structure OutOfStep (sodium : Sodium) (K publicKey : Key) (S : System)
    (log : List (Role × ReadCall)) : Prop where
  exchanged : Exchanged sodium publicKey S log
  share : S.Share K
  paced : Paced K (S.peer .client).view.sent
  placed : ∀ c ∈ callsOf .server log, Placed K (S.peer .client).view.sent c

/-- A call that the server makes now is in its place. -/
theorem OutOfStep.placed_now {e : Event}
    (hS : OutOfStep sodium K publicKey S log)
    (hprompt : (S.peer .server).Prompt e) {c : ReadCall}
    (hc : c ∈ (S.peer .server).readCalls e) :
    Placed K (S.peer .client).view.sent c := by
  have hp := (hS.exchanged.sound .server).1
  have hrole := (hS.exchanged.sound .server).2
  obtain ⟨hone, hle, hnonce⟩ := readCalls_spec hp hc
  obtain ⟨k, τ, hτ, hunread, hposition⟩ := readCalls_unread hc
  obtain ⟨packet, hpacket, hbuffer⟩ :=
    (hS.exchanged.received .server).arrived k τ c.buffer hτ hunread
  refine ⟨(readCalls_key hc).trans (hS.share .server), ?_, k, packet, hposition,
    hpacket, hbuffer⟩
  rw [hnonce, hrole]
  exact (Role.readNonce_eq_iff hp.counter hone hle).mpr (hprompt c hc)

/-- Packets that are sent later change no place. -/
theorem Placed.append {sent : List Bytes} {c : ReadCall}
    (h : Placed K sent c) (packet : Bytes) : Placed K (sent ++ [packet]) c := by
  obtain ⟨hkey, hnonce, k, packet', hposition, hpacket, hbuffer⟩ := h
  refine ⟨hkey, hnonce, k, packet', hposition, ?_, hbuffer⟩
  rw [List.getElem?_append_left (List.getElem?_eq_some_iff.mp hpacket).1]
  exact hpacket

/-- A step of the client. -/
theorem OutOfStep.client {e : Event} (hS : OutOfStep sodium K publicKey S log)
    (h : Step sodium S (.client, e) T)
    (hT : Exchanged sodium publicKey T (log ++ S.calls (.client, e)))
    (hshare : T.Share K) :
    OutOfStep sodium K publicKey T (log ++ S.calls (.client, e)) := by
  obtain ⟨hstep, -⟩ := h.peers
  have hp := (hS.exchanged.sound .client).1
  have hcalls : callsOf .server (log ++ S.calls (.client, e))
      = callsOf .server log := callsOf_other S log .client e
  rcases Peer.sent_step hp hstep with
    ⟨now, drawn, w, rest, -, hposted, hsent⟩ | hsent
  · have hsize : w.payload.length ≤ tcpPayloadSizeMax :=
      hp.sizes w (by rw [hposted]; exact List.mem_cons_self ..)
    have hpacket : w.packet now drawn (S.peer .client).session
        = (sending now drawn (S.peer .client).session w).wire K.val := by
      rw [← hS.share .client]
      rfl
    rw [hpacket] at hsent
    refine ⟨hT, hshare, ?_, ?_⟩
    · rw [hsent]
      exact hS.paced.append hsize hp.counter hS.exchanged.reads_le
    · rw [hcalls, hsent]
      exact fun c hc => (hS.placed c hc).append _
  · refine ⟨hT, hshare, ?_, ?_⟩
    · rw [hsent]
      exact hS.paced
    · rw [hcalls, hsent]
      exact hS.placed

/-- A step of the server. -/
theorem OutOfStep.server {e : Event} (hS : OutOfStep sodium K publicKey S log)
    (h : Step sodium S (.server, e) T)
    (hT : Exchanged sodium publicKey T (log ++ S.calls (.server, e)))
    (hshare : T.Share K) (hprompt : (S.peer .server).Prompt e) :
    OutOfStep sodium K publicKey T (log ++ S.calls (.server, e)) := by
  have hclient : T.peer .client = S.peer .client := h.peers.2
  refine ⟨hT, hshare, ?_, ?_⟩
  · rw [hclient]
    exact hS.paced
  · rw [hclient, callsOf_self]
    intro c hc
    rcases List.mem_append.mp hc with hold | hnew
    · exact hS.placed c hold
    · exact hS.placed_now hprompt hnew

theorem OutOfStep.step {a : Role × Event}
    (hS : OutOfStep sodium K publicKey S log) (h : Step sodium S a T)
    (hshare : T.Share K) (hintact : S.Intact a) (hleft : ServerLeft a)
    (hprompt : S.ServerPrompt a) :
    OutOfStep sodium K publicKey T (log ++ S.calls a) := by
  have hT := hS.exchanged.step h hintact hleft
  obtain ⟨r, e⟩ := a
  cases r with
  | client => exact hS.client h hT hshare
  | server => exact hS.server h hT hshare hprompt

/-- Behind a packet that is not answered, a count of reads is below the
position. -/
theorem Paced.lt {sent : List Bytes} (h : Paced K sent) {i k : Nat}
    (hik : i < k) {packet packet' : Bytes} (hi : sent[i]? = some packet)
    (hunanswered : ¬Answered (requestOf packet))
    (hk : sent[k]? = some packet') :
    ∃ (s : Sending) (n : Nat), packet' = s.wire K.val
      ∧ s.payload.length ≤ tcpPayloadSizeMax ∧ s.nonce = UInt64.ofNat n
      ∧ n < k := by
  obtain ⟨s, n, hwire, hsize, hnonce, hn⟩ := h k packet' hk
  refine ⟨s, n, hwire, hsize, hnonce, lt_of_le_of_lt hn ?_⟩
  have hlength : (sent.take k).length ≤ k := List.length_take_le k sent
  have hmem : packet ∈ sent.take k := by
    refine List.mem_of_getElem? (i := i) ?_
    rw [List.getElem?_take_of_lt hik]
    exact hi
  refine lt_of_lt_of_le (List.countP_lt_length_iff.mpr ⟨packet, hmem, ?_⟩)
    hlength
  exact decide_eq_false hunanswered

/-- In every run of two sessions that hold one key, over a connection that
delivers one packet per read, with a server that is left to its callback
and whose tasks are prompt, and with fewer than 2^32 packets: once the
client has sent a packet that is not answered, the server accepts no
encrypted packet that the client sends after it. -/
theorem unanswered_rejected (sodium : Sodium) {keys : Role → KeysWrapper}
    (hkeys : ∀ r, (keys r).sharedKey = K) {now : Int64}
    {es : List (Role × Event)} {T : System} {log : List (Role × ReadCall)}
    (h : Run (When (Logged (Into (Step sodium) (Share K)) calls) fun S a =>
      S.1.Intact a ∧ ServerLeft a ∧ S.1.ServerPrompt a)
      (start keys now, []) es (T, log))
    (hcount : (T.peer .client).view.sent.length ≤ 2 ^ 32)
    (hbind : ∀ c ∈ callsOf .server log, c.BindsNonce)
    {i : Nat} {packet : Bytes}
    (hi : (T.peer .client).view.sent[i]? = some packet)
    (hunanswered : ¬Answered (requestOf packet)) :
    ∀ c ∈ callsOf .server log, i + 1 < c.position → c.Encrypted →
      ¬c.Accepted := by
  have hT : OutOfStep sodium K ((keys .server).getPublicKey sodium) T log := by
    refine Run.invariant (I := fun s : System × List (Role × ReadCall) =>
      OutOfStep sodium K ((keys .server).getPublicKey sodium) s.1 s.2) ?_ h
      ⟨start_exchanged sodium keys now, hkeys, ?_, ?_⟩
    · rintro s a t hs ⟨⟨⟨hstep, hshare⟩, hlog⟩, hintact, hleft, hprompt⟩
      rw [hlog]
      exact hs.step hstep hshare hintact hleft hprompt
    · intro j packet hpacket
      cases hpacket
    · intro c hc
      cases hc
  rintro c hc hlater hcrypto ⟨p, hp⟩
  obtain ⟨hkey, hnonce, k, packet', hposition, hpacket, hbuffer⟩ :=
    hT.placed c hc
  obtain ⟨s, n, rfl, hsize, hn, hlt⟩ :=
    hT.paced.lt (by omega : i < k) hi hunanswered hpacket
  have hheader : headerOf c.buffer = createHeader s.time s.payload s.version
      s.flags s.nonce s.messageId := by
    rw [hbuffer, readBuffer, Sending.wire, headerOf_created]
  have hflags : ¬NoCrypto s.flags := by
    unfold ReadCall.Encrypted at hcrypto
    rw [hheader] at hcrypto
    exact hcrypto
  -- it carries its tag under its own nonce, and under the call's
  have hown : CarriesTag c.key.val (headerOf c.buffer).nonce c.buffer := by
    rw [hheader, hkey, hbuffer]
    exact Sending.carriesTag K.property hsize hflags _
  have hverifies : c.Verifies :=
    (accepted_carriesTag c.key.property hp).1 hcrypto
  have hsame := hbind c hc hverifies hown
  rw [hheader, hnonce, hposition] at hsame
  have hmod : nonce96 (UInt64.ofNat n) = nonce96 (UInt64.ofNat k) := by
    rw [← hn]
    exact hsame
  have hk : k < (T.peer .client).view.sent.length :=
    (List.getElem?_eq_some_iff.mp hpacket).1
  rw [nonce96_ofNat_eq_iff, Nat.mod_eq_of_lt (by omega),
    Nat.mod_eq_of_lt (by omega)] at hmod
  omega

-- ============================================ two messages in a row

/-- A step of the witness below, with the calls it makes. -/
theorem rejected_step {a : Role × Event} (h : Step sodium S a T)
    (hshare : T.Share K) (hintact : S.Intact a) (hleft : ServerLeft a)
    (hprompt : S.ServerPrompt a) {more : List (Role × ReadCall)}
    (hcalls : S.calls a = more) (log : List (Role × ReadCall)) :
    When (Logged (Into (Step sodium) (Share K)) calls) (fun S a =>
      S.1.Intact a ∧ ServerLeft a ∧ S.1.ServerPrompt a) (S, log) a
      (T, log ++ more) := by
  subst hcalls
  exact ⟨⟨⟨h, hshare⟩, rfl⟩, hintact, hleft, hprompt⟩

/-- The first two calls for an empty message bind their nonces. -/
theorem emptyCall_binds (k : Nat) {n : UInt64} (hn : n = 0 ∨ n = 1) :
    (emptyCall k 0 n).BindsNonce := by
  intro hverifies _
  rcases hn with rfl | rfl
  · have hheader : headerOf (emptyCall k 0 0).buffer
        = createHeader 0 [] 1 Flags.noFlags 0 0 :=
      headerOf_created _ _ _ _ _ _ _ _
    rw [hheader]
    rfl
  · exact absurd hverifies (not_carriesTag_of_tag Key.zero.property
      (emptySending_mismatch 0 _))

/-- A task that has gone on makes no call any more. -/
theorem calls_again {k : Nat} {now now' : Int64} (hS : S.Sound)
    (h : Step sodium S (.server, .task k now) T) :
    T.calls (.server, .task k now') = [] := by
  obtain ⟨τ, r, hτ, htasks, hbegun, -⟩ :=
    task_returned (hS .server).1 h.peers.1
  have hlt : k < (S.peer .server).view.tasks.length :=
    (List.getElem?_eq_some_iff.mp hτ).1
  have hr : (T.peer .server).tasks[k]? = some r := by
    show (T.peer .server).view.tasks[k]? = some r
    rw [htasks]
    exact List.getElem?_set_self hlt
  show ((T.peer .server).readCalls _).map _ = []
  rw [readCalls_begun hr hbegun]
  rfl

/-- The server's calls at a task that has not begun. -/
theorem calls_empty {k : Nat} {n : UInt64} (hshare : S.Share Key.zero)
    (hτ : (S.peer .server).tasks[k]?
      = some (.serverRead (readBuffer (emptySending.wire Key.zero.val))))
    (hn : SessionServer.readNonce (S.peer .server).session = n) :
    S.calls (.server, .task k 0) = [(.server, emptyCall k 0 n)] := by
  subst hn
  unfold calls readCalls
  dsimp only
  rw [hτ]
  rw [hshare .server]
  rfl

/-- A client that sends two empty messages, which are not answered: the
server calls `ReadPacket` for both, and rejects the second. -/
theorem unanswered_rejected_second :
    ∃ (es : List (Role × Event)) (T : System)
        (log : List (Role × ReadCall)) (c : ReadCall),
      Run (When (Logged (Into (Step ⟨id, fun _ _ => none, id⟩)
            (Share Key.zero)) calls) fun S a =>
          S.1.Intact a ∧ ServerLeft a ∧ S.1.ServerPrompt a)
          (start (fun _ => ⟨Key.zero, Key.zero⟩) 0, []) es (T, log)
        ∧ (T.peer .client).view.sent
          = [emptySending.wire Key.zero.val, emptySending.wire Key.zero.val]
        ∧ c ∈ callsOf .server log ∧ c.position = 2 ∧ c.Encrypted
        ∧ ¬c.Accepted := by
  let sodium : Sodium := ⟨id, fun _ _ => none, id⟩
  -- two calls of `Write`, and both packets go out
  have hw₁ := zeroStart_write sodium []
  have hw₂ := zeroStart_write sodium [emptyWrite]
  rw [zeroStart_nil] at hw₁
  obtain ⟨S₁, S₂, h₁, h₂, hshare₁, hshare₂, hsound₂, hposted₂, htasks₂, hsent₂,
    hstream₂, hserver₂, hreceived₂⟩ := send_empty sodium
      (((start_sound _ 0).step hw₁).step hw₂) (zeroStart_share _) [emptyWrite]
      rfl rfl
  obtain ⟨S₃, S₄, h₃, h₄, hshare₃, hshare₄, hsound₄, -, -, hsent₄, hstream₄,
    hserver₄, hreceived₄⟩ := send_empty sodium hsound₂ hshare₂ []
      hposted₂ htasks₂
  rw [hsent₂] at hsent₄
  rw [hstream₂] at hstream₄
  have hserver : S₄.peer .server
      = .start .server ⟨Key.zero, Key.zero⟩ 0 := hserver₄.trans hserver₂
  have hreceived : S₄.received .server = 0 :=
    congrFun (hreceived₄.trans hreceived₂) .server
  -- the server reads the first and finishes with it
  obtain ⟨S₅, h₅, hshare₅, hintact₅, -, hserver₅, hclient₅, hreceived₅, -⟩ :=
    receive_empty sodium hshare₄ [] _ hstream₄ hreceived
      (by rw [hsent₄, hserver]; rfl) (by rw [hserver]; intro τ hτ; cases hτ)
  rw [hserver] at hserver₅
  have htasks₅ : (S₅.peer .server).tasks[0]?
      = some (.serverRead (readBuffer (emptySending.wire Key.zero.val))) := by
    rw [hserver₅]
    rfl
  obtain ⟨S₆, S₇, h₆, h₇, hshare₆, hshare₇, hserver₇, hclient₇, hreceived₇⟩ :=
    finish_empty sodium (k := 0) (hsound₄.step h₅) hshare₅
      (by rw [hserver₅]; rfl) htasks₅ rfl
  have hdone : (S₇.peer .server).tasks = [.done] := by
    rw [hserver₇, hserver₅]
    rfl
  have hsound₅ := hsound₄.step h₅
  have hsound₆ := hsound₅.step h₆
  have hsound₇ := hsound₆.step h₇
  have hreads₅ : (S₅.peer .server).reads = 1 := by
    rw [hserver₅]
    rfl
  have hreads₆ : (S₆.peer .server).reads = 1 := by
    obtain ⟨-, r, -, htasks, -⟩ :=
      task_returned (hsound₅ .server).1 h₆.peers.1
    show (S₆.peer .server).view.tasks.length = 1
    rw [htasks, List.length_set]
    exact hreads₅
  -- it reads the second, and its counter is 2
  obtain ⟨S₈, h₈, hshare₈, hintact₈, -, hserver₈, hclient₈, -⟩ :=
    receive_empty sodium hshare₇
      (emptySending.wire Key.zero.val) []
      (by rw [hclient₇, hclient₅, hstream₄, List.append_nil]; rfl)
      (by rw [hreceived₇, hreceived₅, hreceived, Nat.zero_add])
      (by rw [hclient₇, hclient₅, hsent₄, Peer.reads, hdone]; rfl)
      (by rw [hdone]; intro τ hτ; exact List.mem_singleton.mp hτ)
  have htasks₈ : (S₈.peer .server).tasks = [.done, .serverRead
      (readBuffer (emptySending.wire Key.zero.val))] := by
    rw [hserver₈]
    show (S₇.peer .server).tasks ++ [(S₇.peer .server).role.task _] = _
    rw [hdone, (hsound₇ .server).2]
    rfl
  have hreads₈ : (S₈.peer .server).reads = 2 := congrArg List.length htasks₈
  have hnonce₈ : SessionServer.readNonce (S₈.peer .server).session = 1 := by
    have hcounter := ((hsound₇.step h₈) .server).1.counter
    rw [hreads₈] at hcounter
    exact Role.readNonce_reads .server hcounter (by decide)
  have hτ₈ : (S₈.peer .server).tasks[1]?
      = some (.serverRead (readBuffer (emptySending.wire Key.zero.val))) := by
    rw [htasks₈]
    rfl
  have hreturns : readPacket 0 (readBuffer (emptySending.wire Key.zero.val))
      (SessionServer.readNonce (S₈.peer .server).session)
      (S₈.peer .server).session.keys.sharedKey.val = .ok (.error .tag) := by
    rw [hnonce₈, hshare₈ .server]
    exact emptySending_mismatch 0 _
  have hlast : Peer.Step sodium (S₈.peer .server) (.task 1 0) _ :=
    .task hτ₈ (SessionServer.callbackRead_eq hreturns)
  obtain ⟨S₉, h₉, hpeer₉, hother₉, -⟩ :=
    local_step (fun _ _ he => by cases he) hlast
  have hshare₉ : S₉.Share Key.zero := hshare₈.step (by rw [hpeer₉]; rfl) hother₉
  have hsent₉ : (S₉.peer .client).view.sent
      = [emptySending.wire Key.zero.val, emptySending.wire Key.zero.val] := by
    have hclient₉ : S₉.peer .client = S₄.peer .client :=
      ((hother₉.trans hclient₈).trans hclient₇).trans hclient₅
    rw [hclient₉, hsent₄]
    rfl
  have hcalls₅ := calls_empty hshare₅ htasks₅ (n := 0) (by rw [hserver₅]; rfl)
  have hcalls₈ := calls_empty hshare₈ hτ₈ hnonce₈
  have hrun : Run (When (Logged (Into (Step sodium) (Share Key.zero)) calls)
      fun S a => S.1.Intact a ∧ ServerLeft a ∧ S.1.ServerPrompt a)
      (start (fun _ => ⟨Key.zero, Key.zero⟩) 0, []) _ (S₉,
        [(.server, emptyCall 0 0 0), (.server, emptyCall 1 0 1)]) :=
    .cons (rejected_step hw₁ (zeroStart_share _) trivial trivial trivial rfl [])
      (.cons (rejected_step hw₂ (zeroStart_share _) trivial trivial trivial
        rfl [])
      (.cons (rejected_step h₁ hshare₁ trivial trivial trivial rfl [])
      (.cons (rejected_step h₂ hshare₂ trivial trivial trivial rfl [])
      (.cons (rejected_step h₃ hshare₃ trivial trivial trivial rfl [])
      (.cons (rejected_step h₄ hshare₄ trivial trivial trivial rfl [])
      (.cons (rejected_step h₅ hshare₅ hintact₅ (fun _ he => by cases he)
        (fun _ hc => by cases hc) rfl [])
      (.cons (rejected_step h₆ hshare₆ trivial (fun _ he => by cases he)
        (prompt_newest hreads₅ 0) hcalls₅ [])
      (.cons (rejected_step h₇ hshare₇ trivial (fun _ he => by cases he)
        (prompt_newest hreads₆ 0) (calls_again hsound₅ h₆) _)
      (.cons (rejected_step h₈ hshare₈ hintact₈ (fun _ he => by cases he)
        (fun _ hc => by cases hc) rfl _)
      (.cons (rejected_step h₉ hshare₉ trivial (fun _ he => by cases he)
        (prompt_newest hreads₈ 0) hcalls₈ _) (.nil _)))))))))))
  have hbind : ∀ c ∈ [emptyCall 0 0 0, emptyCall 1 0 1], c.BindsNonce := by
    rw [List.forall_mem_cons, List.forall_mem_singleton]
    exact ⟨emptyCall_binds 0 (Or.inl rfl), emptyCall_binds 1 (Or.inr rfl)⟩
  have hunanswered : ¬Answered
      (requestOf (emptySending.wire Key.zero.val)) := by
    have hheader : headerOf (emptySending.wire Key.zero.val ++ [])
        = createHeader 0 [] 1 Flags.noFlags 0 0 :=
      headerOf_created _ _ _ _ _ _ _ _
    rw [List.append_nil] at hheader
    rw [requestOf, hheader]
    decide
  have hkeys : ∀ r : Role, ((fun _ => ⟨Key.zero, Key.zero⟩ :
      Role → KeysWrapper) r).sharedKey = Key.zero := fun _ => rfl
  have hsecond : emptyCall 1 0 1 ∈ callsOf .server
      [(.server, emptyCall 0 0 0), (.server, emptyCall 1 0 1)] :=
    List.mem_cons_of_mem _ (List.mem_singleton_self _)
  exact ⟨_, S₉, _, emptyCall 1 0 1, hrun, hsent₉, hsecond, rfl,
    emptyCall_encrypted 1 0 1, unanswered_rejected sodium hkeys hrun (by rw [hsent₉]; decide) hbind
      (i := 0) (by rw [hsent₉]; rfl) hunanswered _ hsecond (by decide)
      (emptyCall_encrypted 1 0 1)⟩

end System

end Remc.Net
