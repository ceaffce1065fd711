/-
The callbacks of a client's requests.

A posted `Write` registers its callback in `task_queue_` under the message
id it has drawn, unless an entry is there; the task of a read moves the
callback for the id of an accepted packet out and calls it. That is a
registry of replies (`replyStep`), whatever the order of writes, reads and
pool tasks and whatever ids are drawn: so a callback is called at most
once, for a packet with its own id, and if its id is drawn once, for the
first of those (`callbacks_once`).
-/
import Remc.Lib.Replies
import Remc.Net.Replay
import Remc.Net.SendQueue

namespace Remc.Net

open Crypto Runs Replies

variable {sodium : Sodium}

/-- The id by which a packet is matched with a request. -/
def Packet.messageId (packet : Packet) : UInt64 := packet.header.messageId

/-- `emplace` puts a callback under a free id. -/
theorem SessionClient.emplace_eq (taskQueue : UInt64 → Option WriteCallback)
    (messageId : UInt64) (cb : Option WriteCallback) :
    emplace taskQueue messageId cb = enqueue taskQueue messageId cb := by
  unfold emplace enqueue
  cases cb with
  | none =>
      dsimp only
      split
      next hfree =>
        funext messageId'
        by_cases heq : messageId' = messageId
        · rw [heq, Function.update_self, hfree]
        · rw [Function.update_of_ne heq]
      next => rfl
  | some cb =>
      cases hqueue : taskQueue messageId with
      | none => rfl
      | some cb' => rfl

/-- A packet for whose id nothing is queued calls nothing. -/
theorem SessionClient.afterRead_unclaimed {s : Session} {packet : Packet}
    (h : s.taskQueue packet.header.messageId = none) :
    afterRead s (.ok packet) = { session := s } := by
  unfold afterRead
  dsimp only
  rw [h]

/-- Any other takes what is queued. -/
theorem SessionClient.afterRead_claimed {s : Session} {packet : Packet}
    {cb : WriteCallback} (h : s.taskQueue packet.header.messageId = some cb) :
    afterRead s (.ok packet)
      = { session :=
            { s with taskQueue :=
              Function.update s.taskQueue packet.header.messageId none }
          task := .clientCallback cb packet } := by
  unfold afterRead
  dsimp only
  rw [h]

/-- The callback that a task has moved out of `task_queue_` and not yet
called, with the packet to call it with. -/
def Task.taken : Task → Option (WriteCallback × Packet)
  | .clientCallback cb packet => some (cb, packet)
  | _ => none

/-- What the task of read `k` has taken. -/
def takenBy (ts : List Task) (k : Nat) : Option (WriteCallback × Packet) :=
  ts[k]?.bind Task.taken

/-- Replacing a task replaces what it has taken. -/
theorem takenBy_set {ts : List Task} {k : Nat} (hk : k < ts.length) (τ : Task) :
    takenBy (ts.set k τ) = Function.update (takenBy ts) k τ.taken := by
  funext j
  unfold takenBy
  by_cases hj : j = k
  · subst hj
    rw [List.getElem?_set_self hk, Function.update_self]
    rfl
  · rw [List.getElem?_set_ne (Ne.symm hj), Function.update_of_ne hj]

/-- Two tasks that have taken nothing replace each other. -/
theorem takenBy_set_none {ts : List Task} {k : Nat} {t τ : Task}
    (hk : ts[k]? = some t) (ht : t.taken = none) (hτ : τ.taken = none) :
    takenBy (ts.set k τ) = takenBy ts := by
  rw [takenBy_set (List.getElem?_eq_some_iff.mp hk).1, hτ]
  refine Function.update_eq_self_iff.mpr ?_
  rw [takenBy, hk]
  exact ht.symm

/-- A new task has taken nothing. -/
theorem takenBy_append {ts : List Task} {τ : Task} (hτ : τ.taken = none) :
    takenBy (ts ++ [τ]) = takenBy ts := by
  funext j
  unfold takenBy
  rcases Nat.lt_trichotomy j ts.length with hlt | rfl | hgt
  · rw [List.getElem?_append_left hlt]
  · rw [List.getElem?_concat_length, List.getElem?_eq_none le_rfl]
    exact hτ
  · rw [List.getElem?_eq_none (by rw [List.length_append]; exact hgt),
      List.getElem?_eq_none hgt.le]

namespace Peer

/-- Where a client's callbacks are. -/
def registry (p : Peer) : Registry UInt64 WriteCallback Packet where
  queue := p.session.taskQueue
  taken := takenBy p.tasks

/-- What an event does for a request: its closure has created a packet, a
task has accepted a packet, or a task calls the callback it has taken. -/
def replyEntries (p : Peer) : Event → List (Entry UInt64 WriteCallback Packet)
  | .handler now drawn =>
      match p.posted with
      | .client flags payload cb :: _ =>
          match PostedWrite.createdPacket now drawn p.session
            (.client flags payload cb) with
          | some _ => [.request drawn cb]
          | none => []
      | _ => []
  | .task k now =>
      match p.tasks[k]? with
      | some (.clientRead buffer) =>
          match readPacket now buffer (SessionClient.readNonce p.session)
            p.session.keys.sharedKey.val with
          | .ok (.ok packet) => [.accepted k packet]
          | _ => []
      | some (.clientCallback cb packet) => [.called k packet cb]
      | _ => []
  | _ => []

theorem replyEntries_request {p : Peer} {now : Int64} {drawn : UInt64}
    {flags : UInt32} {payload : Bytes} {cb : Option WriteCallback}
    {rest : List PostedWrite}
    (hposted : p.posted = .client flags payload cb :: rest)
    (hsize : payload.length ≤ tcpPayloadSizeMax) :
    p.replyEntries (.handler now drawn) = [.request drawn cb] := by
  have hsize' : (PostedWrite.client flags payload cb).payload.length
      ≤ tcpPayloadSizeMax := hsize
  unfold replyEntries
  dsimp only
  rw [hposted]
  dsimp only
  rw [PostedWrite.createdPacket_eq hsize']

theorem replyEntries_accepted {p : Peer} {k : Nat} {now : Int64}
    {buffer : Bytes} {packet : Packet}
    (hτ : p.tasks[k]? = some (.clientRead buffer))
    (hread : readPacket now buffer (SessionClient.readNonce p.session)
      p.session.keys.sharedKey.val = .ok (.ok packet)) :
    p.replyEntries (.task k now) = [.accepted k packet] := by
  unfold replyEntries
  dsimp only
  rw [hτ]
  dsimp only
  rw [hread]

theorem replyEntries_called {p : Peer} {k : Nat} {now : Int64}
    {cb : WriteCallback} {packet : Packet}
    (hτ : p.tasks[k]? = some (.clientCallback cb packet)) :
    p.replyEntries (.task k now) = [.called k packet cb] := by
  unfold replyEntries
  dsimp only
  rw [hτ]

/-- A step that leaves the queue and what tasks have taken alone, and of
which nothing is recorded, is one of the registry. -/
theorem replyStep_quiet {p q : Peer} {e : Event} (hnone : p.replyEntries e = [])
    (hqueue : q.session.taskQueue = p.session.taskQueue)
    (htaken : takenBy q.tasks = takenBy p.tasks) :
    Replies.Step Packet.messageId p.registry (p.replyEntries e) q.registry := by
  have hregistry : q.registry = p.registry := by
    unfold registry
    rw [Registry.mk.injEq]
    exact ⟨hqueue, htaken⟩
  rw [hnone, hregistry]
  exact .quiet

/-- A posted closure of a client makes a request under the id it draws. -/
theorem replyStep_handler {p q : Peer} {now : Int64} {drawn : UInt64}
    (hp : p.Sound) (hw : ∀ w ∈ p.posted, w.role = .client)
    (h : Step sodium p (.handler now drawn) q) :
    Replies.Step Packet.messageId p.registry
      (p.replyEntries (.handler now drawn)) q.registry := by
  obtain ⟨w, rest, messageQueue, hposted, -, rfl⟩ := handler_step hp h
  have hmem : w ∈ p.posted := by
    rw [hposted]
    exact List.mem_cons_self ..
  cases w with
  | server flags messageId payload => cases hw _ hmem
  | client flags payload cb =>
      have hqueue : PostedWrite.taskQueue drawn p.session (.client flags payload cb)
          = enqueue p.session.taskQueue drawn cb :=
        SessionClient.emplace_eq _ _ _
      rw [replyEntries_request hposted (hp.sizes _ hmem)]
      unfold registry
      dsimp only
      rw [hqueue]
      exact .request drawn cb

/-- A packet that a task of a client accepts takes the callback that is
queued for its id, if there is one. -/
theorem replyStep_accepted {p : Peer} {k : Nat} {buffer : Bytes}
    (hτ : p.tasks[k]? = some (.clientRead buffer)) (packet : Packet) :
    Replies.Step Packet.messageId p.registry [.accepted k packet]
      { queue := (SessionClient.afterRead p.session
          (.ok packet)).session.taskQueue
        taken := takenBy (p.tasks.set k
          (SessionClient.afterRead p.session (.ok packet)).task) } := by
  cases hqueue : p.session.taskQueue packet.header.messageId with
  | none =>
      rw [SessionClient.afterRead_unclaimed hqueue, takenBy_set_none hτ rfl rfl]
      exact .unclaimed k packet hqueue
  | some cb =>
      have hlt := (List.getElem?_eq_some_iff.mp hτ).1
      have hidle : p.registry.taken k = none := by
        show takenBy p.tasks k = none
        rw [takenBy, hτ]
        rfl
      rw [SessionClient.afterRead_claimed hqueue, takenBy_set hlt]
      exact .claimed k packet cb hqueue hidle

/-- A task of a client goes on. -/
theorem replyStep_task {p q : Peer} {k : Nat} {now : Int64} (hp : p.Sound)
    (hrole : p.role = .client) (h : Step sodium p (.task k now) q) :
    Replies.Step Packet.messageId p.registry (p.replyEntries (.task k now))
      q.registry := by
  cases h with
  | @task _ _ τ r hτ hrun =>
      have hkind := hp.kinds τ (List.mem_of_getElem? hτ)
      rw [hrole] at hkind
      have hlt := (List.getElem?_eq_some_iff.mp hτ).1
      cases τ with
      | serverRead buffer => cases hkind
      | serverAnswer packet => cases hkind
      | serverKey payload => cases hkind
      | done =>
          cases hrun
          refine replyStep_quiet ?_ rfl (takenBy_set_none hτ rfl rfl)
          unfold replyEntries
          dsimp only
          rw [hτ]
      | clientRead buffer =>
          obtain ⟨result, hread, hr⟩ := bind_eq_ok hrun
          cases hr
          cases result with
          | error e =>
              refine replyStep_quiet ?_ rfl (takenBy_set_none hτ rfl rfl)
              unfold replyEntries
              dsimp only
              rw [hτ]
              dsimp only
              rw [hread]
          | ok packet =>
              rw [replyEntries_accepted hτ hread]
              exact replyStep_accepted hτ packet
      | clientCallback cb packet =>
          obtain ⟨keys, -, hr⟩ := bind_eq_ok hrun
          cases hr
          rw [replyEntries_called hτ]
          unfold registry
          dsimp only
          rw [takenBy_set hlt]
          refine .called k packet cb ?_
          show takenBy p.tasks k = some (cb, packet)
          rw [takenBy, hτ]
          rfl

/-- A client posts closures of its own class. -/
def PostsClient (p : Peer) : Prop := ∀ w ∈ p.posted, w.role = .client

theorem PostsClient.step {p q : Peer} {e : Event} (hp : p.Sound)
    (hrole : p.role = .client) (hposts : p.PostsClient)
    (h : Step sodium p e q) : q.PostsClient := by
  cases e with
  | write w =>
      cases h with
      | write hw =>
          intro w' hw'
          rcases List.mem_append.mp hw' with hold | hnew
          · exact hposts w' hold
          · unfold PostedWrite.post at hnew
            split at hnew
            next => cases hnew
            next =>
              rw [List.mem_singleton.mp hnew]
              exact hw.trans hrole
  | handler now drawn =>
      obtain ⟨w, rest, hposted, hview⟩ := handler_view hp h
      intro w' hw'
      rw [(view_fields hview).1] at hw'
      exact hposts w' (by rw [hposted]; exact List.mem_cons_of_mem _ hw')
  | transfer i n =>
      cases h
      exact hposts
  | written i ec now =>
      cases h
      exact hposts
  | close =>
      cases h
      exact hposts
  | read chunk now =>
      cases h
      exact hposts
  | task k now =>
      cases h with
      | @task _ _ τ r hτ hrun =>
          have hkind := hp.kinds τ (List.mem_of_getElem? hτ)
          rw [hrole] at hkind
          have hnone : r.posted = [] := by
            cases τ with
            | serverRead buffer => cases hkind
            | serverAnswer packet => cases hkind
            | serverKey payload => cases hkind
            | done =>
                cases hrun
                rfl
            | clientRead buffer =>
                obtain ⟨result, -, hr⟩ := bind_eq_ok hrun
                cases hr
                exact (Role.afterRead_frame _ result .client).2
            | clientCallback cb packet =>
                obtain ⟨keys, -, hr⟩ := bind_eq_ok hrun
                cases hr
                rfl
          intro w' hw'
          rw [hnone, List.append_nil] at hw'
          exact hposts w' hw'

/-- Every step of a client is a step of its registry. -/
theorem replyStep {p q : Peer} {e : Event} (hp : p.Sound)
    (hrole : p.role = .client) (hposts : p.PostsClient)
    (h : Step sodium p e q) :
    Replies.Step Packet.messageId p.registry (p.replyEntries e) q.registry := by
  cases e with
  | write w =>
      cases h
      exact .quiet
  | handler now drawn => exact replyStep_handler hp hposts h
  | transfer i n =>
      cases h
      exact .quiet
  | written i ec now =>
      obtain ⟨w, -, -, rfl⟩ := written_step hp h
      exact .quiet
  | close =>
      obtain ⟨isOpen, messageQueue, -, rfl⟩ := close_step hp h
      exact .quiet
  | read chunk now =>
      cases h
      refine replyStep_quiet rfl rfl (takenBy_append ?_)
      rw [hrole]
      rfl
  | task k now => exact replyStep_task hp hrole h

/-- What a run of a client records is a history of its registry. -/
theorem replies_reaches {keys : KeysWrapper} {now : Int64} {es : List Event}
    {q : Peer} {log : List (Entry UInt64 WriteCallback Packet)}
    (h : Run (Logged (Step sodium) replyEntries)
      (start .client keys now, []) es (q, log)) :
    Reaches Packet.messageId log q.registry := by
  have hpres : ∀ s e t,
      (Sound s.1 ∧ s.1.role = .client ∧ PostsClient s.1
        ∧ Reaches Packet.messageId s.2 s.1.registry) →
      Logged (Step sodium) replyEntries s e t →
      Sound t.1 ∧ t.1.role = .client ∧ PostsClient t.1
        ∧ Reaches Packet.messageId t.2 t.1.registry := by
    rintro s e t ⟨hs, hrole, hposts, hreach⟩ ⟨hstep, hlog⟩
    refine ⟨hs.step hstep, hstep.role_eq.trans hrole,
      hposts.step hs hrole hstep, ?_⟩
    rw [hlog]
    exact .step hreach (replyStep hs hrole hposts hstep)
  exact (h.invariant hpres ⟨start_sound .client keys now, rfl,
    (fun w hw => by cases hw), .start⟩).2.2.2

/-- In every run of a client, whatever ids are drawn: every call of a
callback is that of an earlier request, with a packet that `ReadPacket`
accepted after the request and that has the id drawn for it, and no two
calls are of one request. The callback of a request whose id is drawn once
waits in `task_queue_` for the first accepted packet with the id; from then
on nothing is there, and the callback is called with that packet. And where
`CreatePacket` fails, `Write` leaves `task_queue_` alone. -/
theorem callbacks_once {keys : KeysWrapper} {now : Int64} {es : List Event}
    {q : Peer} {log : List (Entry UInt64 WriteCallback Packet)}
    (h : Run (Logged (Step sodium) replyEntries)
      (start .client keys now, []) es (q, log)) :
    (∃ request : Nat → Nat,
      (∀ j k packet cb, log[j]? = some (.called k packet cb) →
        request j < j
          ∧ Answers Packet.messageId log (request j) k packet cb)
      ∧ ∀ j j' k k' packet packet' cb cb',
        log[j]? = some (.called k packet cb) →
        log[j']? = some (.called k' packet' cb') →
          request j = request j' → j = j')
    ∧ (∀ i messageId cb, Only log i messageId cb →
      (Waiting Packet.messageId log i messageId →
        q.session.taskQueue messageId = some cb)
      ∧ ∀ a k packet, FirstReply Packet.messageId log i messageId a k packet →
        q.session.taskQueue messageId = none
          ∧ (q.tasks[k]? = some (.clientCallback cb packet)
            ∨ ∃ j : Nat, log[j]? = some (Entry.called k packet cb)))
    ∧ ∀ now drawn s flags payload cb e s',
      Session.createPacket now s flags drawn payload = .ok (.error e) →
        SessionClient.writeHandler now drawn s flags payload cb = .ok s' →
          s'.taskQueue = s.taskQueue := by
  have hreach := replies_reaches h
  refine ⟨hreach.matched, ?_, ?_⟩
  · intro i messageId cb honly
    have hserved := hreach.served honly
    refine ⟨hserved.waiting, fun a k packet hreply => ?_⟩
    obtain ⟨hqueue, htaken⟩ := hserved.answered a k packet hreply
    refine ⟨hqueue, htaken.imp_left fun htaken => ?_⟩
    obtain ⟨τ, hτ, htask⟩ := Option.bind_eq_some_iff.mp htaken
    cases τ with
    | clientCallback cb' packet' =>
        cases htask
        exact hτ
    | _ => cases htask
  · intro now drawn s flags payload cb e s' hcreate hwrite
    unfold SessionClient.writeHandler at hwrite
    rw [hcreate, ok_bind] at hwrite
    cases hwrite
    rfl

/-- The packet with which `emptyPacket 1` answers. -/
def emptyAnswer : Packet := sentPacket 0 [] 1 Flags.noFlags 1 0

/-- A client that asks with a callback under the id 0 and gets one answer:
the request, the packet accepted, and the call. -/
def oneAnswer (cb : WriteCallback) : List (Entry UInt64 WriteCallback Packet) :=
  [.request 0 (some cb), .accepted 0 emptyAnswer, .called 0 emptyAnswer cb]

/-- A client without reads gets the answer, which calls the callback that is
queued. -/
theorem run_answered (sodium : Sodium) {cb : WriteCallback} {p : Peer}
    (hp : p.Sound) (hrole : p.role = .client) (htasks : p.tasks = [])
    (hkeys : p.session.keys = ⟨Key.zero, Key.zero⟩)
    (hqueue : p.session.taskQueue 0 = some cb)
    (hcb : ∃ keys, cb emptyAnswer ⟨Key.zero, Key.zero⟩ = .ok keys)
    (log : List (Entry UInt64 WriteCallback Packet)) :
    ∃ q, Run (Logged (Step sodium) replyEntries) (p, log)
      [.read (emptyPacket 1) 0, .task 0 0, .task 0 0]
      (q, log ++ [] ++ [.accepted 0 emptyAnswer]
        ++ [.called 0 emptyAnswer cb]) := by
  obtain ⟨hne, hlen⟩ := emptyPacket_fits 1
  let p₁ : Peer := p.completeRead 0 (emptyPacket 1)
  have h₁ : Step sodium p (.read (emptyPacket 1) 0) p₁ := .read hne hlen
  have hτ₁ : p₁.tasks[0]? = some (.clientRead (readBuffer (emptyPacket 1))) := by
    show (p.tasks ++ [p.role.task _])[0]? = _
    rw [htasks, hrole]
    rfl
  have hkeys₁ : p₁.session.keys = ⟨Key.zero, Key.zero⟩ := hkeys
  have hnonce : SessionClient.readNonce p₁.session = 1 := by
    have hcounter := (hp.step h₁).counter
    have hreads : p₁.reads = 1 := by
      show (p.tasks ++ [_]).length = 1
      rw [htasks]
      rfl
    rw [hreads] at hcounter
    exact hcounter
  have hread : readPacket 0 (readBuffer (emptyPacket 1))
      (SessionClient.readNonce p₁.session) p₁.session.keys.sharedKey.val
      = .ok (.ok emptyAnswer) := by
    rw [hnonce, hkeys₁]
    exact readPacket_emptyPacket 1
  have hrun₁ : (Task.clientRead (readBuffer (emptyPacket 1))).run sodium 0
      p₁.session = .ok _ := SessionClient.taskRead_eq hread
  have hqueue₁ : p₁.session.taskQueue emptyAnswer.header.messageId = some cb :=
    hqueue
  rw [SessionClient.afterRead_claimed hqueue₁] at hrun₁
  let s₂ : Session := { p₁.session with
    taskQueue :=
      Function.update p₁.session.taskQueue emptyAnswer.header.messageId none }
  let p₂ : Peer := { p₁ with
    session := s₂
    posted := p₁.posted ++ []
    tasks := p₁.tasks.set 0 (.clientCallback cb emptyAnswer) }
  have h₂ : Step sodium p₁ (.task 0 0) p₂ := .task hτ₁ hrun₁
  have hτ₂ : p₂.tasks[0]? = some (.clientCallback cb emptyAnswer) :=
    List.getElem?_set_self (List.getElem?_eq_some_iff.mp hτ₁).1
  obtain ⟨keys, hcalled⟩ := hcb
  have hrun₂ : (Task.clientCallback cb emptyAnswer).run sodium 0 p₂.session
      = .ok { session := { s₂ with keys } } := by
    show SessionClient.taskCallback s₂ cb emptyAnswer = _
    unfold SessionClient.taskCallback
    rw [show s₂.keys = _ from hkeys₁, hcalled]
    rfl
  have h₃ : Step sodium p₂ (.task 0 0) _ := .task hτ₂ hrun₂
  exact ⟨_, .logged_cons h₁ rfl (.logged_cons h₂ (replyEntries_accepted hτ₁
    hread) (.logged_cons h₃ (replyEntries_called hτ₂) (.nil _)))⟩

/-- A run of it. -/
theorem run_oneAnswer (sodium : Sodium) (cb : WriteCallback)
    (hcb : ∃ keys, cb emptyAnswer ⟨Key.zero, Key.zero⟩ = .ok keys) :
    ∃ es q, Run (Logged (Step sodium) replyEntries)
      (start .client ⟨Key.zero, Key.zero⟩ 0, []) es (q, oneAnswer cb) := by
  let p : Peer := start .client ⟨Key.zero, Key.zero⟩ 0
  let w : PostedWrite := .client Flags.noFlags [] (some cb)
  let p₁ : Peer := { p with posted := [w] }
  have h₁ : Step sodium p (.write w) p₁ := write_step rfl (Nat.zero_le _)
  have hp₁ := (start_sound .client ⟨Key.zero, Key.zero⟩ 0).step h₁
  obtain ⟨p₂, h₂, -⟩ := handler_enabled sodium hp₁ rfl 0 0
  obtain ⟨w', rest, hposted, hview⟩ := handler_view hp₁ h₂
  cases hposted
  obtain ⟨-, htasks, hkeys, hqueue⟩ := view_fields hview
  have hrequest : p₁.replyEntries (.handler 0 0) = [.request 0 (some cb)] :=
    replyEntries_request rfl (Nat.zero_le _)
  have hqueued : p₂.session.taskQueue 0 = some cb := by
    rw [hqueue]
    rfl
  obtain ⟨q, hanswered⟩ := run_answered sodium (hp₁.step h₂) h₂.role_eq htasks
    hkeys hqueued hcb [.request 0 (some cb)]
  exact ⟨_, q, .logged_cons h₁ rfl (.logged_cons h₂ hrequest hanswered)⟩

/-- The callback of that client is called once, with the one answer. -/
theorem callbacks_once_one :
    ∃ (q : Peer) (request : Nat → Nat),
      request 2 < 2
        ∧ Answers Packet.messageId (oneAnswer fun _ keys => .ok keys)
          (request 2) 0 emptyAnswer (fun _ keys => .ok keys)
        ∧ q.session.taskQueue 0 = none := by
  let sodium : Sodium := ⟨id, fun _ _ => none, id⟩
  let cb : WriteCallback := fun _ keys => .ok keys
  obtain ⟨es, q, hrun⟩ := run_oneAnswer sodium cb ⟨_, rfl⟩
  obtain ⟨⟨request, hcalled, -⟩, hlate, -⟩ := callbacks_once hrun
  obtain ⟨hbefore, hanswers⟩ := hcalled 2 0 emptyAnswer cb rfl
  have honly : Only (oneAnswer cb) 0 0 cb := by
    refine ⟨rfl, fun i cb' hi => ?_⟩
    rcases i with _ | _ | _ | i
    · rfl
    · cases hi
    · cases hi
    · cases hi
  have hfirst : FirstReply Packet.messageId (oneAnswer cb) 0 0 1 0 emptyAnswer :=
    ⟨Nat.one_pos, rfl, rfl, fun a _ _ hlt hlt' => by omega⟩
  exact ⟨q, request, hbefore, hanswers,
    ((hlate 0 0 cb honly).2 1 0 emptyAnswer hfirst).1⟩

end Peer

end Remc.Net
