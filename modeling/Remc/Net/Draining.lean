/-
No request is left behind.

The closures that wait for the executor of a server session, and the tasks
that may still call `Write`, come to an end by themselves: each step leaves
less to do (`effort_lt`), and while anything is left to do there is a next
step (`answering_step`). So however the executor and the pool go on, they
get through, and then every request that was accepted has been answered
(`Peer.answers_drained`).
-/
import Remc.Net.Answers

namespace Remc.Net

open Crypto Runs Ledger

variable {sodium : Sodium}

-- ================================================================= the effort

/-- The parts of a task up to its call of `Write`, and the closure that the
call posts. -/
def Task.effort : Task → Nat
  | .serverRead _ => 3
  | .serverAnswer _ => 2
  | _ => 0

/-- A part of a task leaves less of it. -/
theorem Task.run_effort {now : Int64} {s : Session} {τ : Task} {r : TaskResult}
    (h : τ.run sodium now s = .ok r) (hpos : τ.effort ≠ 0) :
    r.posted.length + r.task.effort < τ.effort := by
  cases τ with
  | serverRead buffer =>
      obtain ⟨result, -, hr⟩ := bind_eq_ok h
      cases hr
      cases result with
      | error e =>
          show 0 + 0 < 3
          omega
      | ok packet =>
          show 0 + 2 < 3
          omega
  | serverAnswer packet =>
      cases h
      show _ < 2
      by_cases hhandshake : packet.header.flags = Flags.handshake
      · rw [SessionServer.callbackAnswer_handshake sodium s hhandshake]
        show 1 + 0 < 2
        omega
      · by_cases htest : packet.header.flags = Flags.testMessage
        · rw [SessionServer.callbackAnswer_testMessage sodium s htest]
          show 1 + 0 < 2
          omega
        · have hnot : ¬Answered packet.request := by
            rintro (h | h)
            · exact hhandshake h
            · exact htest h
          rw [SessionServer.callbackAnswer_other sodium s hnot]
          show 0 + 0 < 2
          omega
  | serverKey payload => exact absurd rfl hpos
  | clientRead buffer => exact absurd rfl hpos
  | clientCallback cb packet => exact absurd rfl hpos
  | done => exact absurd rfl hpos

/-- A task from which nothing more is to be expected owes nothing. -/
theorem Task.owes_of_effort {τ : Task} (h : τ.effort = 0) : τ.owes = 0 := by
  cases τ with
  | serverAnswer packet => cases h
  | _ => rfl

namespace Peer

/-- What is left to do for the answers. -/
def effort (p : Peer) : Nat :=
  p.posted.length + (p.tasks.map Task.effort).sum

/-- The executor runs a posted closure, or the pool goes on with a task that
may still call `Write`. -/
def Answering (p : Peer) : Event → Prop
  | .handler _ _ => True
  | .task k _ => ∃ τ, p.tasks[k]? = some τ ∧ τ.effort ≠ 0
  | _ => False

/-- `ReadPacket` keeps to its preconditions in every task that has not
begun. -/
def ReadsSafe (p : Peer) : Prop :=
  ∀ τ ∈ p.tasks, ∀ buffer, τ.unread = some buffer → SafeWire buffer

variable {p q : Peer} {e : Event}

/-- Each of these steps leaves less to do. -/
theorem effort_lt (hp : p.Sound) (h : Step sodium p e q)
    (he : p.Answering e) : q.effort < p.effort := by
  cases e with
  | handler now drawn =>
      obtain ⟨w, rest, hposted, hview⟩ := handler_view hp h
      have hrest : q.posted = rest := (view_fields hview).1
      have htasks : q.tasks = p.tasks := (view_fields hview).2.1
      rw [effort, effort, hrest, htasks, hposted, List.length_cons]
      omega
  | task k now =>
      obtain ⟨τ, hτ, hpos⟩ := he
      obtain ⟨τ', r, hτ', hrun, hview⟩ := task_view h
      rw [hτ] at hτ'
      cases hτ'
      have hposted : q.posted = p.posted ++ r.posted := (view_fields hview).1
      have htasks : q.tasks = p.tasks.set k r.task := (view_fields hview).2.1
      have hless := Task.run_effort hrun hpos
      have hset := sum_map_set hτ Task.effort r.task
      rw [effort, effort, hposted, htasks, List.length_append]
      omega
  | _ => exact he.elim

/-- They read nothing. -/
theorem ReadsSafe.step (hp : p.Sound) (hsafe : p.ReadsSafe)
    (h : Step sodium p e q) (he : p.Answering e) : q.ReadsSafe := by
  intro τ hτ buffer hunread
  obtain ⟨k, hk⟩ := List.mem_iff_getElem?.mp hτ
  rcases unread_step hp h hk hunread with
    ⟨hold, -⟩ | ⟨chunk, now, rfl, -⟩
  · exact hsafe τ (List.mem_of_getElem? hold) buffer hunread
  · exact he.elim

/-- While anything is left to do, there is a next step. -/
theorem answering_step (sodium : Sodium) (hp : p.Sound) (hsafe : p.ReadsSafe)
    (hpos : 0 < p.effort) : ∃ e q, Step sodium p e q ∧ p.Answering e := by
  by_cases hposted : p.posted = []
  · obtain ⟨n, hn, hne⟩ : ∃ n ∈ p.tasks.map Task.effort, n ≠ 0 := by
      by_contra hnone
      push Not at hnone
      have hzero := List.sum_eq_zero hnone
      rw [effort, hposted, hzero] at hpos
      exact absurd hpos (lt_irrefl 0)
    obtain ⟨τ, hτ, rfl⟩ := List.mem_map.mp hn
    obtain ⟨k, hk⟩ := List.mem_iff_getElem?.mp hτ
    have hbegins : ∃ r, τ.run sodium 0 p.session = .ok r := by
      cases τ with
      | serverRead buffer =>
          obtain ⟨result, hresult⟩ := (readsSafely_of_safeWire
            p.session.keys.sharedKey.property (hsafe _ hτ buffer rfl) 0
            (SessionServer.readNonce p.session)).1
          exact ⟨_, SessionServer.callbackRead_eq hresult⟩
      | serverAnswer packet => exact ⟨_, rfl⟩
      | _ => exact absurd rfl hne
    obtain ⟨r, hr⟩ := hbegins
    exact ⟨.task k 0, _, .task hk hr, τ, hk, hne⟩
  · obtain ⟨w, rest, hw⟩ := List.exists_cons_of_ne_nil hposted
    obtain ⟨q, hq, -⟩ := handler_enabled sodium hp hw 0 0
    exact ⟨.handler 0 0, q, hq, trivial⟩

-- ============================================================== the answers

/-- Nothing is left to do: nothing is posted, and no task owes an answer. -/
theorem Accounts.drained {publicKey : Key} {log : List ReadCall}
    (hp : Accounts sodium publicKey p log) (hnone : p.effort = 0) :
    (total ReadCall.returned log).filter Answered
      = (p.view.sent.map requestOf : Multiset Request) := by
  obtain ⟨hposted, htasks⟩ := Nat.add_eq_zero_iff.mp hnone
  have hempty : p.view.posted = [] := List.eq_nil_of_length_eq_zero hposted
  have howes : total Task.owes p.view.tasks = 0 := total_eq_zero fun τ hτ =>
    Task.owes_of_effort (Nat.eq_zero_of_le_zero
      (htasks ▸ le_sum_map hτ Task.effort))
  rw [hp.account, hempty, howes, total_nil, add_zero, add_zero, total_singleton]

/-- The account, and buffers that are read safely. -/
structure Draining (sodium : Sodium) (publicKey : Key)
    (s : Peer × List ReadCall) : Prop where
  accounts : Accounts sodium publicKey s.1 s.2
  reads : s.1.ReadsSafe

/-- What is done for the answers keeps both. -/
theorem Draining.step {publicKey : Key} {s t : Peer × List ReadCall}
    (hs : Draining sodium publicKey s)
    (h : When (Logged (Step sodium) readCalls) (fun s e => s.1.Answering e)
      s e t) : Draining sodium publicKey t := by
  obtain ⟨⟨hstep, hlog⟩, he⟩ := h
  refine ⟨?_, hs.reads.step hs.accounts.sound hstep he⟩
  rw [hlog]
  refine hs.accounts.step hstep fun w hw => ?_
  subst hw
  exact he

/-- In every state that a server session left to its callback can reach,
with buffers in which `ReadPacket` keeps to its preconditions: however the
executor and the pool go on with what is posted and with the tasks that may
still call `Write`, they come to an end after a bounded number of steps; and
where there is no such step, each packet that was accepted with the flags
`Handshake` or `TestMessage` has been answered, once, with its flags and its
message id. -/
theorem answers_drained (sodium : Sodium) (keys : KeysWrapper) (now : Int64)
    {es : List Event} {p : Peer} {log : List ReadCall}
    (h : Run (When (Logged (Step sodium) readCalls) fun _ => LeftToCallback)
      (start .server keys now, []) es (p, log))
    (hsafe : p.ReadsSafe) {fs : List Event} {q : Peer} {log' : List ReadCall}
    (hq : Run (When (Logged (Step sodium) readCalls) fun s e =>
      s.1.Answering e) (p, log) fs (q, log')) :
    fs.length ≤ p.effort
      ∧ ((∀ e t, Step sodium q e t → ¬q.Answering e) →
        (total ReadCall.returned log').filter Answered
          = (q.view.sent.map requestOf : Multiset Request)) := by
  have hstart : Draining sodium (keys.getPublicKey sodium) (p, log) :=
    ⟨accounts_of_run h, hsafe⟩
  constructor
  · have hle := hq.length_add_le (f := fun s => s.1.effort)
      (fun s e t hs hstep => Draining.step hs hstep)
      (fun s e t hs hstep => effort_lt hs.accounts.sound hstep.1.1 hstep.2)
      hstart
    exact (Nat.le_add_right _ _).trans hle
  · intro hstuck
    obtain ⟨haccounts, hreads⟩ :=
      hq.invariant (fun s e t hs hstep => Draining.step hs hstep) hstart
    refine haccounts.drained (Nat.eq_zero_of_not_pos fun hpos => ?_)
    obtain ⟨e, t, hstep, he⟩ :=
      answering_step sodium haccounts.sound hreads hpos
    exact hstuck e t hstep he

/-- A step of these, with the calls it makes. -/
theorem logged_answering (h : Step sodium p e q) (he : p.Answering e)
    (log : List ReadCall) :
    When (Logged (Step sodium) readCalls) (fun s e => s.1.Answering e) (p, log)
      e (q, log ++ p.readCalls e) := ⟨⟨h, rfl⟩, he⟩

/-- A test message that has just been read is answered in three steps. -/
theorem answers_drained_one : ∃ (p q : Peer) (fs : List Event)
    (log : List ReadCall), p.view.sent = [] ∧ fs.length = 3 ∧ 3 ≤ p.effort
      ∧ q.view.sent.map requestOf = [(Flags.testMessage, 4)]
      ∧ (total ReadCall.returned log).filter Answered
        = (q.view.sent.map requestOf : Multiset Request) := by
  let sodium : Sodium := ⟨id, fun _ _ => none, id⟩
  let p : Peer := start .server ⟨Key.zero, Key.zero⟩ 0
  let chunk : Bytes := created 0 [] 1 Flags.testMessage 0 4 []
  have hsize : ([] : Bytes).length ≤ tcpPayloadSizeMax := Nat.zero_le _
  have hfits : Outbox.Fits chunk := created_fits hsize _ _ _ _ _
  obtain ⟨p₂, h₁, h₂, rfl⟩ := accept_steps sodium (p := p) rfl hfits
    (readPacket_created_noCrypto Key.zero.property hsize (by decide) _
      (fresh_self 0) 1 0 4 [] _)
  have hanswer : (Task.serverAnswer {
      header := createHeader 0 [] 1 Flags.testMessage 0 4
      payload := [] }).run sodium 0 (p.session.completeRead 0) = .ok {
        session := p.session.completeRead 0
        posted := [.server Flags.testMessage 4
          (SessionServer.answerText 1)] } :=
    congrArg Except.ok (SessionServer.callbackAnswer_testMessage sodium _ rfl)
  have h₃ : Step sodium { p with
      session := p.session.completeRead 0
      tasks := [.serverAnswer {
        header := createHeader 0 [] 1 Flags.testMessage 0 4
        payload := [] }] } (.task 0 0) _ :=
    newest_task (show _ = [] ++ [Task.serverAnswer _] from rfl) hanswer
  have hsound := (((start_sound .server _ 0).step h₁).step h₂).step h₃
  obtain ⟨q, h₄, -⟩ := handler_enabled sodium hsound rfl 0 0
  obtain ⟨w, rest, hw, hview⟩ := handler_view hsound h₄
  cases hw
  -- the buffer has the `NoCrypto` bit
  have hsafe : (p.completeRead 0 chunk).ReadsSafe := by
    intro τ hτ buffer hunread
    rw [List.mem_singleton.mp hτ] at hunread
    cases hunread
    refine Or.inr (Or.inl ?_)
    rw [readBuffer, headerOf_created]
    decide
  have hdone : q.effort = 0 := by
    have hnone : q.posted = [] := (view_fields hview).1
    have hsame : q.tasks = [.done] := (view_fields hview).2.1
    rw [effort, hnone, hsame]
    rfl
  have hsent : q.view.sent.map requestOf = [(Flags.testMessage, 4)] := by
    rw [hview, List.map_append, List.map_singleton, requestOf_packet]
    rfl
  obtain ⟨hlength, hanswered⟩ := answers_drained sodium _ 0
    (.cons (logged_left h₁ (fun _ he => by cases he) []) (.nil _)) hsafe
    (.cons (logged_answering h₂ ⟨_, rfl, by decide⟩ _)
      (.cons (logged_answering h₃ ⟨_, rfl, by decide⟩ _)
        (.cons (logged_answering h₄ trivial _) (.nil _))))
  refine ⟨p.completeRead 0 chunk, q, [.task 0 0, .task 0 0, .handler 0 0], _,
    rfl, rfl, hlength, hsent, hanswered fun e t h he => ?_⟩
  have hless := effort_lt (hsound.step h₄) h he
  omega

end Peer

end Remc.Net
