/-
The heartbeat of a worker (server.cpp).

The timer's handler posts a `RemoveSession` for every session that has been
idle for more than `WORKER_HEARTBEAT_TIMEOUT` seconds. The posted handler
does not look at the session again: whatever it finds under the id it
closes. What may come between the two are the completions of a read or of
a write of that session, which refresh it, and a new session under the
same id; where neither does, no session is removed too early
(`heartbeat_iff`).
-/
import Remc.Net.SessionTable

namespace Remc.Net

open Crypto Runs

variable {sodium : Sodium}

-- ========================================================== the last timestamp

/-- The completion refreshes its session. -/
def Event.refreshes : Event → Bool
  | .read _ _ => true
  | .written _ ec _ => !ec
  | _ => false

theorem Session.close_lastTimestamp (s : Session) :
    s.close.lastTimestamp = s.lastTimestamp := by
  unfold Session.close
  split <;> rfl

/-- The completions that refresh set the last timestamp, and nothing else
does. -/
theorem Peer.Step.lastTimestamp {p q : Peer} {e : Event}
    (h : Peer.Step sodium p e q) :
    (e.refreshes = true → e.now? = some q.session.lastTimestamp)
      ∧ (e.refreshes = false →
        q.session.lastTimestamp = p.session.lastTimestamp) := by
  cases h with
  | write hrole => exact ⟨fun hr => (by cases hr), fun _ => rfl⟩
  | @handler w rest now drawn s hposted hrun =>
      refine ⟨fun hr => (by cases hr), fun _ => ?_⟩
      show s.lastTimestamp = _
      rw [PostedWrite.run_session hrun]
  | transfer hw hopen hpos hn => exact ⟨fun hr => (by cases hr), fun _ => rfl⟩
  | @written i ec now w s hw hopen hall hrun =>
      obtain ⟨outbox, -, hs⟩ := bind_eq_ok hrun
      cases hs
      cases ec with
      | true => exact ⟨fun hr => (by cases hr), fun _ => rfl⟩
      | false => exact ⟨fun _ => rfl, fun hr => by cases hr⟩
  | close hrole =>
      refine ⟨fun hr => (by cases hr), fun _ => ?_⟩
      exact Session.close_lastTimestamp p.session
  | read hpos hlen => exact ⟨fun _ => rfl, fun hr => by cases hr⟩
  | @task k now τ r hτ hrun =>
      refine ⟨fun hr => (by cases hr), fun _ => ?_⟩
      show r.session.lastTimestamp = _
      rw [Task.run_session hrun]

namespace Worker

/-- What `RemoveSession` finds when it closes a session for the heartbeat. -/
structure Removal where
  id : UInt64
  lastTimestamp : Int64
  now : Int64

/-- The session has been idle for too long. -/
def Removal.Idle (r : Removal) : Prop :=
  workerHeartbeatTimeout < age r.now r.lastTimestamp

/-- The removals of a step. -/
def removals (w : Worker) : WorkerEvent → List Removal
  | .remove k =>
      match w.queue[k]? with
      | some (.removeSession id .heartbeat) =>
          match (w.sessionList.lookup id).join.bind fun ref => w.sessions[ref]?
            with
          | some s => [⟨id, s.peer.session.lastTimestamp, w.clock⟩]
          | none => []
      | _ => []
  | _ => []

/-- The heartbeat has posted a removal of this id, which has not run. -/
def Doomed (w : Worker) (id : UInt64) : Prop :=
  .removeSession id .heartbeat ∈ w.queue

/-- As long as `io_` is not stopped: no completion refreshes a session that
is to be removed, and no session is created under its id. -/
def SparesDoomed (w : Worker) : WorkerEvent → Prop
  | .session ref e => w.stopped = false → e.refreshes = true →
      ∀ id, w.sessionList.lookup id = some (some ref) → ¬w.Doomed id
  | .create _ _ id => id ∉ w.sessionList →
      w.sessionList.size < workerMaxClientCount → ¬w.Doomed id
  | _ => True

-- ============================================================ the invariant

theorem age_mono {now now' : Int64} (h : now ≤ now') (ts : Int64) :
    age now ts ≤ age now' ts := by
  have hle := Int64.le_iff_toInt_le.mp h
  unfold age
  omega

/-- A session refreshed now is not idle. -/
theorem not_idle_self (now : Int64) :
    ¬workerHeartbeatTimeout < age now now := by
  unfold age
  rw [Int.sub_self]
  decide

/-- A removal is that of what the table has under its id. -/
theorem mem_removals {w : Worker} {e : WorkerEvent} {r : Removal}
    (h : r ∈ w.removals e) :
    ∃ (k : Nat) (id : UInt64) (ref : Nat) (s : SessionObject),
      e = .remove k ∧ w.queue[k]? = some (.removeSession id .heartbeat)
        ∧ w.sessionList.lookup id = some (some ref)
        ∧ w.sessions[ref]? = some s
        ∧ r = ⟨id, s.peer.session.lastTimestamp, w.clock⟩ := by
  unfold removals at h
  split at h
  next k =>
    split at h
    next id hk =>
      split at h
      next s hs =>
        obtain ⟨ref, hptr, href⟩ := Option.bind_eq_some_iff.mp hs
        exact ⟨k, id, ref, s, rfl, hk, Option.join_eq_some_iff.mp hptr, href,
          List.mem_singleton.mp h⟩
      next => cases h
    next => cases h
  next => cases h

/-- What holds as long as doomed sessions are spared. -/
structure Watched (w : Worker) (log : List Removal) : Prop where
  table : w.TableOk
  flags : w.FlagsOk
  alive : ∀ id, w.Doomed id → w.stopped = false → w.running = true
  idle : w.stopped = false → ∀ id ref s, w.Doomed id →
    w.sessionList.lookup id = some (some ref) → w.sessions[ref]? = some s →
      workerHeartbeatTimeout < age w.clock s.peer.session.lastTimestamp
  removed : ∀ r ∈ log, r.Idle

theorem start_watched (clock : Int64) : (start clock).Watched [] where
  table := start_tableOk clock
  flags := start_flagsOk clock
  alive id h := by cases h
  idle _ id ref s h := by cases h
  removed r h := by cases h

variable {executor : SocketExecutor} {w t : Worker} {e : WorkerEvent}
  {log : List Removal}

/-- A session that is doomed now has been idle before the step. -/
theorem Watched.doomed_before (hw : w.Watched log)
    (h : Step sodium executor w e t) (hstopped : w.stopped = false)
    {id : UInt64} {ref : Nat} {s : SessionObject} (hdoomed : t.Doomed id)
    (hid : w.sessionList.lookup id = some (some ref))
    (hs : w.sessions[ref]? = some s) :
    workerHeartbeatTimeout < age w.clock s.peer.session.lastTimestamp := by
  rcases queue_cases hw.table h hdoomed with
    hold | ⟨-, heq⟩ | ⟨id', -, heq⟩
      | ⟨ec, order, id', ref', s', -, -, heq, hid', hs', hage⟩
  · exact hw.idle hstopped id ref s hold hid hs
  · cases heq
  · cases heq
  · cases heq
    rw [hid] at hid'
    cases hid'
    rw [hs] at hs'
    cases hs'
    exact hage

/-- Only the heartbeat dooms a session, and it runs on the worker's
thread. -/
theorem doomed_cases (hw : w.TableOk) (h : Step sodium executor w e t)
    {id : UInt64} (hdoomed : t.Doomed id) :
    w.Doomed id ∨ (∃ ec order, e = .heartbeat ec order) ∧ w.Executes := by
  rcases queue_cases hw h hdoomed with
    hold | ⟨-, heq⟩ | ⟨id', -, heq⟩
      | ⟨ec, order, id', ref', s', he, hlive, -, -, -, -⟩
  · exact Or.inl hold
  · cases heq
  · cases heq
  · exact Or.inr ⟨⟨ec, order, he⟩, hlive⟩

/-- The last timestamp of a session that is spared stays. -/
theorem Fate.lastTimestamp {ref : Nat} {p q : Peer}
    (h : Fate sodium executor w e ref p q)
    (hspared : ∀ e', e = .session ref e' → e'.refreshes = false) :
    q.session.lastTimestamp = p.session.lastTimestamp := by
  cases h with
  | same => rfl
  | closed hcloses => exact Session.close_lastTimestamp p.session
  | step he hne hpeer hnow hlive =>
      exact hpeer.lastTimestamp.2 (hspared _ he)

/-- A step that spares the doomed keeps them idle. -/
theorem Watched.idle_step (hw : w.Watched log)
    (h : Step sodium executor w e t) (hspares : w.SparesDoomed e)
    (hstopped : t.stopped = false) {id : UInt64} {ref : Nat}
    {s : SessionObject} (hdoomed : t.Doomed id)
    (hid : t.sessionList.lookup id = some (some ref))
    (hs : t.sessions[ref]? = some s) :
    workerHeartbeatTimeout < age t.clock s.peer.session.lastTimestamp := by
  obtain ⟨hlive, -⟩ := hw.flags.live hw.table h hstopped
  rcases lookup_cases hw.table h hid with
    hold | ⟨k, keys, rfl, hfree, hlt, -, -⟩
  · obtain ⟨ref', s', hptr, hs', -⟩ := hw.table.keyed id _ hold
    cases hptr
    have hage := hw.doomed_before h hlive hdoomed hold hs'
    obtain ⟨s'', hs'', -, hfate⟩ := session_cases hw.table h hs'
    rw [hs] at hs''
    cases hs''
    have hsame : s.peer.session.lastTimestamp
        = s'.peer.session.lastTimestamp := by
      refine hfate.lastTimestamp fun e' he => ?_
      subst he
      have hdoomed' : w.Doomed id := by
        rcases doomed_cases hw.table h hdoomed with hold | ⟨⟨_, _, he⟩, -⟩
        · exact hold
        · cases he
      cases hrefreshes : e'.refreshes with
      | false => rfl
      | true => exact absurd hdoomed' (hspares hlive hrefreshes id hold)
    rw [hsame]
    rcases clock_cases hw.table h with ⟨now, -, hclock⟩ | hclock
    · exact hage.trans_le (age_mono hclock _)
    · rw [hclock]
      exact hage
  · have hdoomed' : w.Doomed id := by
      rcases doomed_cases hw.table h hdoomed with hold | ⟨⟨_, _, he⟩, -⟩
      · exact hold
      · cases he
    exact absurd hdoomed' (hspares hfree hlt)

/-- A step that spares the doomed keeps all of it. -/
theorem Watched.step (hw : w.Watched log) (h : Step sodium executor w e t)
    (hspares : w.SparesDoomed e) : t.Watched (log ++ w.removals e) := by
  refine ⟨hw.table.step h, hw.flags.step hw.table h, ?_, ?_, ?_⟩
  · intro id hdoomed hstopped
    obtain ⟨hlive, hrunning⟩ := hw.flags.live hw.table h hstopped
    rcases doomed_cases hw.table h hdoomed with hold | ⟨-, hexecutes⟩
    · exact hrunning (hw.alive id hold hlive)
    · exact hrunning hexecutes.1
  · intro hstopped id ref s hdoomed hid hs
    exact hw.idle_step h hspares hstopped hdoomed hid hs
  · intro r hr
    rcases List.mem_append.mp hr with hold | hnew
    · exact hw.removed r hold
    · obtain ⟨k, id, ref, s, rfl, hk, hid, hs, rfl⟩ := mem_removals hnew
      obtain ⟨-, -, hexecutes, -⟩ := remove_step hw.table h
      exact hw.idle hexecutes.2 id ref s (List.mem_of_getElem? hk) hid hs

-- ====================================================== a removal too early

/-- Every removal so far was of an idle session. -/
def AllIdle (s : Worker × List Removal) : Prop := ∀ r ∈ s.2, r.Idle

/-- `SparesDoomed`, of a worker with its log. -/
def Spares (s : Worker × List Removal) (e : WorkerEvent) : Prop :=
  s.1.SparesDoomed e

/-- A doomed session that has been refreshed may be removed next. -/
theorem removed_early (hw : w.TableOk) (hlive : w.Executes) {id : UInt64}
    {ref : Nat} {s : SessionObject} (hdoomed : w.Doomed id)
    (hid : w.sessionList.lookup id = some (some ref))
    (hs : w.sessions[ref]? = some s)
    (hfresh : s.peer.session.lastTimestamp = w.clock)
    (log : List Removal) :
    ¬Safely (Logged (Step sodium executor) removals) Spares AllIdle (w, log)
    := by
  intro hsafe
  obtain ⟨k, hk⟩ := List.mem_iff_getElem?.mp hdoomed
  obtain ⟨t, ht, -⟩ := TableOk.removeSession (w := w.dequeue k)
    ⟨hw.size, hw.keyed⟩ executor id
  have hstep : Step sodium executor w (.remove k) t := .remove hlive hk ht
  have hremoval : w.removals (.remove k) = [⟨id, w.clock, w.clock⟩] := by
    unfold removals
    simp only [hk, hid, Option.join_some, Option.bind_some, hs, hfresh]
  have hspares : Spares (w, log) (.remove k) := trivial
  have hlogged : Logged (Step sodium executor) removals (w, log) (.remove k)
      (t, log ++ [⟨id, w.clock, w.clock⟩]) := by
    refine ⟨hstep, ?_⟩
    rw [hremoval]
  have hidle := hsafe _ _ (.cons ⟨hlogged, hspares⟩ (.nil _))
    ⟨id, w.clock, w.clock⟩ (List.mem_append_right _ (List.mem_singleton.mpr rfl))
  exact not_idle_self w.clock hidle

/-- A step that does not spare the doomed makes such a removal possible. -/
theorem Watched.lost (hw : w.Watched log) (h : Step sodium executor w e t)
    (hspares : ¬w.SparesDoomed e) (log' : List Removal) :
    ¬Safely (Logged (Step sodium executor) removals) Spares AllIdle (t, log')
    := by
  have htable := hw.table.step h
  cases e with
  | session ref e' =>
      simp only [SparesDoomed, Classical.not_forall, Classical.not_not]
        at hspares
      obtain ⟨hlive, hrefreshes, id, hid, hdoomed⟩ := hspares
      cases h with
      | @session _ _ s q hs hpeer hclose hnow hserves =>
          have hrefreshed := hpeer.lastTimestamp.1 hrefreshes
          have hlt := (List.getElem?_eq_some_iff.mp hs).1
          exact removed_early htable ⟨hw.alive id hdoomed hlive, hlive⟩ hdoomed
            hid (List.getElem?_set_self hlt) (hnow _ hrefreshed) log'
  | create k keys id =>
      simp only [SparesDoomed, Classical.not_forall, Classical.not_not]
        at hspares
      obtain ⟨hfree, hlt, hdoomed⟩ := hspares
      obtain ⟨hlive, hk, hcases⟩ := create_step hw.table h
      rcases hcases with ⟨hfull, -⟩ | ⟨-, -, rfl⟩ | ⟨ref, -, htaken, -⟩
      · omega
      · have hdoomed' : ((w.dequeue k).created keys id).Doomed id := by
          obtain ⟨j, hj⟩ := List.mem_iff_getElem?.mp hdoomed
          refine List.mem_eraseIdx_iff_getElem?.mpr ⟨j, fun heq => ?_, hj⟩
          subst heq
          rw [hk] at hj
          cases hj
        exact removed_early htable hlive hdoomed' (AList.lookup_insert _)
          List.getElem?_concat_length rfl log'
      · exact absurd (FlatHashMap.mem_of_lookup htaken) hfree
  | _ => exact absurd trivial hspares

/-- A worker whose doomed sessions are spared removes none that has not been
idle for too long; and the runs in which they are spared are exactly those
after whose every step that is bound to stay so while they are. -/
theorem heartbeat_iff {executor : SocketExecutor} {clock : Int64}
    {es : List WorkerEvent} {s : Worker × List Removal} :
    (Run (When (Logged (Step sodium executor) removals) Spares)
        (start clock, []) es s → AllIdle s)
      ∧ (Run (Into (Logged (Step sodium executor) removals)
          (Safely (Logged (Step sodium executor) removals) Spares AllIdle))
          (start clock, []) es s
        ↔ Run (When (Logged (Step sodium executor) removals) Spares)
          (start clock, []) es s) := by
  have hkeep : ∀ s e t, s.1.Watched s.2 →
      Logged (Step sodium executor) removals s e t → Spares s e →
      t.1.Watched t.2 := by
    intro s e t hs hstep hspares
    rw [hstep.2]
    exact hs.step hstep.1 hspares
  constructor
  · intro h
    have hwatched : s.1.Watched s.2 :=
      h.when_invariant hkeep (start_watched clock)
    exact hwatched.removed
  · refine Run.safely_iff_when hkeep ?_ ?_ ?_ ?_
    · exact fun s e hspares => hspares
    · exact fun s hs => hs.removed
    · exact fun s e t hs hstep hspares => hs.lost hstep.1 hspares t.2
    · exact start_watched clock

/-- A session idle for 31 seconds completes a read after the heartbeat has
posted its removal: it is removed with a last timestamp of now. -/
theorem removed_after_read :
    ∃ s, Run (Logged (Step ⟨id, fun _ _ => none, id⟩ .worker) removals)
        (start 0, [])
        [.run, .createSession, .create 0 ⟨Key.zero, Key.zero⟩ 7, .tick 31,
          .heartbeat false [7], .session 0 (.read [1] 31), .remove 0] s
      ∧ ⟨7, 31, 31⟩ ∈ s.2 ∧ ¬Removal.Idle ⟨7, 31, 31⟩ := by
  let sodium : Sodium := ⟨id, fun _ _ => none, id⟩
  let keys : KeysWrapper := ⟨Key.zero, Key.zero⟩
  let w₁ := oneSession 0 keys 7
  let w₂ : Worker := { w₁ with clock := 31 }
  let w₃ := w₂.heartbeatHandler false [7]
  let peer : Peer := (Peer.start .server keys 0).completeRead 31 [1]
  let w₄ : Worker := { w₃ with sessions := [⟨7, peer, 1⟩] }
  have hstale : w₂.stale = .ok [7] := rfl
  have hid : (w₄.dequeue 0).sessionList.lookup 7 = some (some 0) := rfl
  obtain ⟨t, hremove⟩ : ∃ t, (w₄.dequeue 0).removeSessionHandler .worker 7
      = .ok t := ⟨_, removeSessionHandler_taken hid .worker⟩
  obtain ⟨log, hfirst⟩ := (run_oneSession sodium .worker 0 keys 7).exists_log
    removals []
  have hread : Peer.Step sodium (Peer.start .server keys 0) (.read [1] 31) peer :=
    .read (by decide) (by decide)
  have hrefresh : Step sodium .worker w₃ (.session 0 (.read [1] 31)) w₄ := by
    refine .session (s := ⟨7, .start .server keys 0, 1⟩) rfl hread ?_ ?_ ?_
    · exact fun h => by cases h
    · exact fun now h => (Option.some.inj h).symm
    · exact fun _ => ⟨rfl, rfl⟩
  have hlast : Run (Logged (Step sodium .worker) removals) (w₁, log)
      [.tick 31, .heartbeat false [7], .session 0 (.read [1] 31), .remove 0]
      (t, log ++ [] ++ [] ++ [] ++ [⟨7, 31, 31⟩]) := by
    apply Run.logged_cons (.tick (by decide) : Step sodium _ w₁ _ w₂) rfl
    apply Run.logged_cons (.heartbeat ⟨rfl, rfl⟩ (by decide)
      (fun _ => ⟨[7], hstale, .refl _⟩) : Step sodium _ w₂ _ w₃) rfl
    apply Run.logged_cons hrefresh rfl
    exact .logged_cons (.remove ⟨rfl, rfl⟩ rfl hremove) rfl (.nil _)
  exact ⟨_, hfirst.append hlast,
    List.mem_append_right _ (List.mem_singleton.mpr rfl), not_idle_self 31⟩

end Worker

end Remc.Net
