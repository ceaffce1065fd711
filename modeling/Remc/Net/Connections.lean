/-
What becomes of the connections that a server accepts.

Until the `CreateSession` handler of a connection has run the connection is
pending; then it has been dropped for lack of space, or lost to a session
with the same id, or become a session, which stays in its worker's table
until it is removed. Each is in exactly one of these places, in every run
(`connections_account`).

Where each connection's handler has run before the next one is accepted, and
as long as no session is removed, the workers' client counts never differ by
more than one, and a connection is dropped only when all are full
(`connections_balanced`).
-/
import Remc.Lib.Ledger
import Remc.Net.Acceptor

namespace Remc.Net

open Crypto Runs Ledger

variable {sodium : Sodium} {executor : SocketExecutor}

/-- What happens to a connection. -/
inductive Passage where
  /-- It was given to a worker. -/
  | accepted
  /-- There was no worker for it. -/
  | refused
  /-- Its worker was full. -/
  | dropped
  /-- Its session got the id of another one. -/
  | collided
  /-- It has a session. -/
  | created
  /-- Its session was removed. -/
  | removed
deriving DecidableEq, Repr

namespace Worker

/-- What a worker's step does to a connection. -/
def passages (w : Worker) : WorkerEvent → List Passage
  | .create _ _ id =>
      if workerMaxClientCount < w.sessionList.size + 1 then [.dropped]
      else if id ∈ w.sessionList then [.collided]
      else [.created]
  | .remove k =>
      match w.queue[k]? with
      | some (.removeSession id _) =>
          if id ∈ w.sessionList then [.removed] else []
      | _ => []
  | _ => []

end Worker

namespace Server

/-- What a step does to a connection. -/
def passages (S : Server) : ServerEvent → List Passage
  | .accept true => []
  | .accept false =>
      match peekWorker S.workers with
      | some _ => [.accepted]
      | none => [.refused]
  | .worker i e =>
      match S.workers[i]? with
      | some w => w.passages e
      | none => []

/-- The connections pending at all workers. -/
def pending (S : Server) : Nat := (S.workers.map Worker.pending).sum

end Server

-- ================================================================ a worker

namespace Worker

variable {w t : Worker} {e : WorkerEvent}

/-- Nothing but a call and a run of `CreateSession` changes what is
pending. -/
theorem pending_eq (hw : w.TableOk) (h : Step sodium executor w e t)
    (hcall : e ≠ .createSession) (hcreate : ∀ k keys id, e ≠ .create k keys id) :
    t.pending = w.pending := by
  cases e with
  | create k keys id => exact absurd rfl (hcreate k keys id)
  | remove k =>
      obtain ⟨id, poster, -, hk, hcases⟩ := remove_step hw h
      have hpending := dequeue_pending hk
      rw [if_neg (fun heq => by cases heq), Nat.add_zero] at hpending
      rcases hcases with ⟨-, rfl⟩ | ⟨ref, -, rfl⟩
      · exact hpending
      · cases executor <;> exact hpending
  | heartbeat ec order =>
      cases h
      cases ec with
      | true => rfl
      | false =>
          have hnone : Handler.createSession
              ∉ order.map fun id => Handler.removeSession id .heartbeat := by
            simp
          show (w.queue ++ _).count _ = _
          rw [List.count_append, List.count_eq_zero.mpr hnone]
          rfl
  | run =>
      cases h
      unfold Worker.run
      split <;> rfl
  | stop =>
      cases h with
      | stop hidle hstop =>
          rcases hw.stop_cases hstop with ⟨-, rfl⟩ | ⟨refs, -, -, rfl⟩
          all_goals rfl
  | createSession => exact absurd rfl hcall
  | removeSession id =>
      cases h
      simp [Worker.removeSession, pending]
  | _ =>
      cases h
      rfl

/-- A worker's table only changes by `CreateSession` and `RemoveSession`. -/
theorem table_eq (hw : w.TableOk) (h : Step sodium executor w e t)
    (hremove : ∀ k, e ≠ .remove k) (hcreate : ∀ k keys id, e ≠ .create k keys id) :
    t.sessionList = w.sessionList := by
  rcases table_cases hw h with
    htable | ⟨k, keys, id, he, -⟩ | ⟨k, id, poster, ref, he, -⟩
  · exact htable
  · exact absurd he (hcreate k keys id)
  · exact absurd he (hremove k)

/-- What leaves the pending connections is dropped, lost or a session; and
what leaves the table is removed. -/
structure Account (w : Worker) (ps : List Passage) (t : Worker) : Prop where
  pending : w.pending = t.pending + ps.count .dropped + ps.count .collided
    + ps.count .created
  table : w.sessionList.size + ps.count .created
    = t.sessionList.size + ps.count .removed
  accepted : ps.count .accepted = 0

/-- A step that does nothing to a connection. -/
theorem Account.nil (hpending : t.pending = w.pending)
    (htable : t.sessionList = w.sessionList) : Account w [] t where
  pending := hpending.symm
  table := by rw [htable]; rfl
  accepted := rfl

theorem passages_create (hw : w.TableOk) {k : Nat} {keys : KeysWrapper}
    {id : UInt64} (h : Step sodium executor w (.create k keys id) t) :
    Account w (w.passages (.create k keys id)) t := by
  have hpending := create_pending hw h
  obtain ⟨-, -, hcases⟩ := create_step hw h
  unfold passages
  dsimp only
  rcases hcases with ⟨hfull, rfl⟩ | ⟨hlt, hfree, rfl⟩ | ⟨ref, hlt, hid, rfl⟩
  · rw [if_pos (by omega)]
    exact ⟨hpending.symm, rfl, rfl⟩
  · rw [if_neg (by omega), if_neg hfree]
    exact ⟨hpending.symm, (FlatHashMap.size_insert hfree
      (v := some w.sessions.length)).symm, rfl⟩
  · rw [if_neg (by omega), if_pos (FlatHashMap.mem_of_lookup hid)]
    exact ⟨hpending.symm, rfl, rfl⟩

theorem passages_remove (hw : w.TableOk) {k : Nat}
    (h : Step sodium executor w (.remove k) t) :
    Account w (w.passages (.remove k)) t := by
  have hpending := pending_eq hw h (fun he => by cases he)
    (fun _ _ _ he => by cases he)
  obtain ⟨id, poster, -, hk, hcases⟩ := remove_step hw h
  unfold passages
  dsimp only
  rw [hk]
  dsimp only
  rcases hcases with ⟨hfree, rfl⟩ | ⟨ref, hid, rfl⟩
  · rw [if_neg hfree]
    exact .nil hpending rfl
  · have hmem := FlatHashMap.mem_of_lookup hid
    have hsize := FlatHashMap.size_erase hmem
    rw [if_pos hmem]
    refine ⟨hpending.symm, ?_, rfl⟩
    show w.sessionList.size = FlatHashMap.size (w.sessionList.erase id) + 1
    omega

/-- Every step of a worker's own. -/
theorem passages_account (hw : w.TableOk) (h : Step sodium executor w e t)
    (hown : Server.OwnEvent e) : Account w (w.passages e) t := by
  cases e with
  | create k keys id => exact passages_create hw h
  | remove k => exact passages_remove hw h
  | createSession => exact hown.elim
  | run => exact hown.elim
  | stop => exact hown.elim
  | join => exact hown.elim
  | _ =>
      refine .nil (pending_eq hw h ?_ ?_) (table_eq hw h ?_ ?_)
      all_goals intros; exact fun he => by cases he

end Worker

-- ================================================================ the server

namespace Server

/-- Where the connections of a server are. -/
structure Accounts (S : Server) (log : List Passage) : Prop where
  tables : ∀ w ∈ S.workers, w.TableOk
  pending : log.count .accepted = S.pending + log.count .dropped
    + log.count .collided + log.count .created
  table : log.count .created = S.counts.sum + log.count .removed

theorem start_accounts (n : Nat) (clock : Int64) : (start n clock).Accounts []
    where
  tables w hw := by
    rw [List.eq_of_mem_replicate hw]
    exact (Worker.start_roomy clock).table
  pending := by
    have hpending : (Worker.start clock).run.pending = 0 := rfl
    simp [pending, start, hpending]
  table := by
    have hcount : (Worker.start clock).run.getClientCount = 0 := rfl
    simp [counts, start, hcount]

/-- `PeekWorker` returns one of the workers. -/
theorem peekWorker_mem {ws : List Worker} {i : Nat}
    (h : peekWorker ws = some i) : ∃ w, ws[i]? = some w := by
  match ws, h with
  | [w], h =>
      by_cases hfull : workerMaxClientCount ≤ w.getClientCount
      · have hnone : peekWorker [w] = none := if_pos hfull
        rw [hnone] at h
        cases h
      · have hsome : peekWorker [w] = some 0 := if_neg hfull
        rw [hsome] at h
        cases h
        exact ⟨w, rfl⟩
  | w₀ :: w₁ :: rest, h =>
      have hmany : 2 ≤ (w₀ :: w₁ :: rest).length := by simp
      obtain ⟨j, w, hj, hleast⟩ := peekWorker_spec hmany
      rw [h] at hj
      cases hj
      exact ⟨w, hleast.here⟩

/-- A connection that is accepted, as a change of one worker. -/
theorem accept_eq {S : Server} {i : Nat} {w : Worker}
    (hpeek : peekWorker S.workers = some i) (hi : S.workers[i]? = some w) :
    S.accept false = { S with workers := S.workers.set i w.createSession } := by
  have hmodify : S.workers.modify i Worker.createSession
      = S.workers.set i w.createSession := by
    rw [List.modify_eq_set_getElem?, hi]
    rfl
  simp [Server.accept, hpeek, hmodify]

theorem Accounts.accept {S : Server} {log : List Passage}
    (hS : S.Accounts log) :
    (S.accept false).Accounts (log ++ S.passages (.accept false)) := by
  cases hpeek : peekWorker S.workers with
  | none =>
      have haccept : S.accept false = S := by simp [Server.accept, hpeek]
      have hpassages : S.passages (.accept false) = [.refused] := by
        simp [passages, hpeek]
      rw [haccept, hpassages]
      refine ⟨hS.tables, ?_, ?_⟩
      · simpa using hS.pending
      · simpa using hS.table
  | some i =>
      obtain ⟨w, hi⟩ := peekWorker_mem hpeek
      have hpassages : S.passages (.accept false) = [.accepted] := by
        simp [passages, hpeek]
      have hw := hS.tables w (List.mem_of_getElem? hi)
      have hpending := sum_map_set hi Worker.pending w.createSession
      have hcounts := sum_map_set hi Worker.getClientCount w.createSession
      have hsame : w.createSession.getClientCount = w.getClientCount := rfl
      rw [Worker.createSession_pending] at hpending
      rw [hsame] at hcounts
      rw [accept_eq hpeek hi, hpassages]
      refine ⟨fun v hv => ?_, ?_, ?_⟩
      · rcases List.mem_or_eq_of_mem_set hv with hold | rfl
        · exact hS.tables v hold
        · exact ⟨hw.size, hw.keyed⟩
      · have hbefore := hS.pending
        simp [Server.pending] at hbefore hpending ⊢
        omega
      · have hbefore := hS.table
        simp [Server.counts] at hbefore hcounts ⊢
        omega

theorem Accounts.worker {S : Server} {log : List Passage}
    (hS : S.Accounts log) {i : Nat} {w t : Worker} {e : WorkerEvent}
    (hi : S.workers[i]? = some w) (hown : OwnEvent e)
    (h : Worker.Step sodium executor w e t) :
    Accounts { S with workers := S.workers.set i t }
      (log ++ S.passages (.worker i e)) := by
  have hw := hS.tables w (List.mem_of_getElem? hi)
  have hpassages : S.passages (.worker i e) = w.passages e := by
    simp [passages, hi]
  obtain ⟨hwp, hwt, hnone⟩ := Worker.passages_account hw h hown
  have hpending := sum_map_set hi Worker.pending t
  have hcounts := sum_map_set hi Worker.getClientCount t
  rw [hpassages]
  refine ⟨fun v hv => ?_, ?_, ?_⟩
  · rcases List.mem_or_eq_of_mem_set hv with hold | rfl
    · exact hS.tables v hold
    · exact hw.step h
  · have hbefore := hS.pending
    simp only [Server.pending, List.count_append] at hbefore hpending ⊢
    omega
  · have hbefore := hS.table
    simp only [Server.counts, Worker.getClientCount, List.count_append]
      at hbefore hcounts ⊢
    omega

theorem Accounts.step {S T : Server} {log : List Passage} {e : ServerEvent}
    (hS : S.Accounts log) (h : Step sodium executor S e T) :
    T.Accounts (log ++ S.passages e) := by
  cases h with
  | @accept ec =>
      cases ec with
      | true =>
          show S.Accounts (log ++ [])
          rw [List.append_nil]
          exact hS
      | false => exact hS.accept
  | worker hi hown hstep => exact hS.worker hi hown hstep

/-- In every run of a server that is running, with no `Run` or `Stop` in it,
the totals agree: each connection that was accepted is pending, was dropped,
was lost to a session with the same id, or has become a session; and each
session is in its worker's table or was removed from it. -/
theorem connections_account {n : Nat} {clock : Int64} {es : List ServerEvent}
    {S : Server} {log : List Passage}
    (h : Run (Logged (Step sodium executor) passages) (start n clock, []) es
      (S, log)) :
    log.count .accepted = S.pending + log.count .dropped
        + log.count .collided + log.count .created
      ∧ log.count .created = S.counts.sum + log.count .removed := by
  have haccounts : S.Accounts log := by
    refine h.invariant (I := fun s : Server × List Passage => s.1.Accounts s.2)
      ?_ (start_accounts n clock)
    rintro s e t hs ⟨hstep, hlog⟩
    rw [hlog]
    exact hs.step hstep
  exact ⟨haccounts.pending, haccounts.table⟩

/-- Two workers, the first with a connection pending, and with a session. -/
def onePending : Server where
  workers := [(Worker.start 0).run.createSession, (Worker.start 0).run]

def oneCreated : Server where
  workers := [((Worker.start 0).run.createSession.dequeue 0).created
    ⟨Key.zero, Key.zero⟩ 7, (Worker.start 0).run]

/-- A connection is accepted and becomes a session. -/
theorem steps_oneCreated (sodium : Sodium) (executor : SocketExecutor) :
    Step sodium executor (start 2 0) (.accept false) onePending
      ∧ Step sodium executor onePending
        (.worker 0 (.create 0 ⟨Key.zero, Key.zero⟩ 7)) oneCreated := by
  let w : Worker := (Worker.start 0).run.createSession
  have hempty : (w.dequeue 0).sessionList.size < workerMaxClientCount := by
    show 0 < workerMaxClientCount
    decide
  have hcreate : Worker.Step sodium executor w
      (.create 0 ⟨Key.zero, Key.zero⟩ 7) _ :=
    .create ⟨rfl, rfl⟩ rfl (Worker.createSessionHandler_free hempty
      (fun hmem => by cases hmem) _)
  exact ⟨.accept, .worker rfl trivial hcreate⟩

/-- A connection that has become a session. -/
theorem connections_account_one : ∃ S log,
    Run (Logged (Step ⟨id, fun _ _ => none, id⟩ .worker) passages)
        (start 2 0, [])
        [.accept false, .worker 0 (.create 0 ⟨Key.zero, Key.zero⟩ 7)] (S, log)
      ∧ log = [.accepted, .created]
      ∧ log.count .accepted = S.pending + log.count .dropped
        + log.count .collided + log.count .created
      ∧ log.count .created = S.counts.sum + log.count .removed := by
  obtain ⟨h₁, h₂⟩ := steps_oneCreated ⟨id, fun _ _ => none, id⟩ .worker
  have hrun : Run (Logged (Step ⟨id, fun _ _ => none, id⟩ .worker) passages)
      (start 2 0, []) _ (oneCreated, [.accepted, .created]) :=
    .logged_cons h₁ rfl (.logged_cons h₂ rfl (.nil _))
  exact ⟨_, _, hrun, rfl, connections_account hrun⟩

-- ================================================================ the balance

/-- A connection is accepted only while none is pending, and no session is
removed. -/
def Prompt (s : Server × List Decision) : ServerEvent → Prop
  | .accept false => s.1.pending = 0
  | .worker _ (.remove _) => False
  | _ => True

/-- What then holds: a worker with a connection pending has the fewest
sessions. -/
structure Balanced (S : Server) (log : List Decision) : Prop where
  many : 2 ≤ S.workers.length
  tables : ∀ w ∈ S.workers, w.TableOk
  close : ∀ v ∈ S.workers, ∀ w ∈ S.workers,
    v.getClientCount ≤ w.getClientCount + 1
  one : S.pending ≤ 1
  least : ∀ w ∈ S.workers, 0 < w.pending →
    ∀ v ∈ S.workers, w.getClientCount ≤ v.getClientCount
  full : ∀ counts, .dropped counts ∈ log → Full counts

theorem start_balanced {n : Nat} (hn : 2 ≤ n) (clock : Int64) :
    (start n clock).Balanced [] := by
  have hworker : ∀ w ∈ (start n clock).workers, w = (Worker.start clock).run :=
    fun w hw => List.eq_of_mem_replicate hw
  have hpending : (Worker.start clock).run.pending = 0 := rfl
  refine ⟨?_, fun w hw => ?_, fun v hv w hw => ?_, ?_, fun w hw hpos => ?_,
    fun counts h => by cases h⟩
  · simpa [start] using hn
  · rw [hworker w hw]
    exact (Worker.start_roomy clock).table
  · rw [hworker v hv, hworker w hw]
    exact Nat.le_succ _
  · simp [Server.pending, start, hpending]
  · rw [hworker w hw, hpending] at hpos
    cases hpos

/-- No worker has more pending than all together. -/
theorem pending_le {S : Server} {w : Worker} (hw : w ∈ S.workers) :
    w.pending ≤ S.pending :=
  le_sum_map hw Worker.pending

/-- A worker changes: the pending connections of the server change as its
own. -/
theorem set_pending {S : Server} {i : Nat} {w : Worker}
    (hi : S.workers[i]? = some w) (t : Worker) :
    Server.pending { S with workers := S.workers.set i t } + w.pending
      = S.pending + t.pending := sum_map_set hi Worker.pending t

/-- The worker that is picked has the fewest sessions. -/
theorem Balanced.accept {S : Server} {log : List Decision}
    (hS : S.Balanced log) (hnone : S.pending = 0) :
    (S.accept false).Balanced
      (log ++ [.picked S.counts (peekWorker S.workers)]) := by
  obtain ⟨i, w, hpeek, hleast⟩ := peekWorker_spec hS.many
  have hi := hleast.here
  have hw := List.mem_of_getElem? hi
  have hpending := set_pending hi w.createSession
  rw [Worker.createSession_pending, hnone] at hpending
  rw [accept_eq hpeek hi]
  constructor
  · simpa using hS.many
  · intro v hv
    rcases List.mem_or_eq_of_mem_set hv with hold | rfl
    · exact hS.tables v hold
    · exact ⟨(hS.tables w hw).size, (hS.tables w hw).keyed⟩
  · intro v hv u hu
    rcases List.mem_or_eq_of_mem_set hv with hv | rfl
    · rcases List.mem_or_eq_of_mem_set hu with hu | rfl
      · exact hS.close v hv u hu
      · exact hS.close v hv w hw
    · rcases List.mem_or_eq_of_mem_set hu with hu | rfl
      · exact hS.close w hw u hu
      · exact Nat.le_succ _
  · omega
  · intro v hv hpos u hu
    rcases List.mem_or_eq_of_mem_set hv with hold | rfl
    · have hle := pending_le hold
      omega
    · rcases List.mem_or_eq_of_mem_set hu with hu | rfl
      · exact hleast.least u hu
      · exact le_rfl
  · intro counts hmem
    rcases List.mem_append.mp hmem with hold | hnew
    · exact hS.full counts hold
    · cases List.mem_singleton.mp hnew

/-- A connection is dropped by a handler that finds its worker full. -/
theorem decisions_dropped {S : Server} {i : Nat} {w : Worker} {e : WorkerEvent}
    (hi : S.workers[i]? = some w) {counts : List Nat}
    (h : .dropped counts ∈ S.decisions (.worker i e)) :
    (∃ k keys id, e = .create k keys id) ∧ counts = S.counts
      ∧ workerMaxClientCount ≤ w.getClientCount := by
  cases e with
  | create k keys id =>
      simp only [decisions, hi] at h
      split at h
      next hfull =>
        cases List.mem_singleton.mp h
        exact ⟨⟨k, keys, id, rfl⟩, rfl, Nat.le_of_lt_succ hfull⟩
      next => cases h
  | _ => cases h

/-- A step that removes no session leaves the worker as it was, or makes a
session of a pending connection. -/
theorem stay_cases {w t : Worker} {e : WorkerEvent} (hw : w.TableOk)
    (h : Worker.Step sodium executor w e t) (hown : OwnEvent e)
    (hstay : ∀ k, e ≠ .remove k) :
    (t.getClientCount = w.getClientCount ∧ t.pending ≤ w.pending)
      ∨ t.getClientCount = w.getClientCount + 1 ∧ t.pending + 1 = w.pending
    := by
  by_cases hcreate : ∃ k keys id, e = .create k keys id
  · obtain ⟨k, keys, id, rfl⟩ := hcreate
    have hless := Worker.create_pending hw h
    obtain ⟨-, -, ⟨-, rfl⟩ | ⟨-, hfree, rfl⟩ | ⟨ref, -, -, rfl⟩⟩ :=
      Worker.create_step hw h
    · exact Or.inl ⟨rfl, by omega⟩
    · exact Or.inr ⟨FlatHashMap.size_insert hfree, hless⟩
    · exact Or.inl ⟨rfl, by omega⟩
  · have hnot : ∀ k keys id, e ≠ .create k keys id :=
      fun k keys id he => hcreate ⟨k, keys, id, he⟩
    have hcall : e ≠ .createSession := by
      rintro rfl
      exact hown
    have hlist := Worker.table_eq hw h hstay hnot
    exact Or.inl ⟨congrArg FlatHashMap.size hlist,
      (Worker.pending_eq hw h hcall hnot).le⟩

/-- A worker goes on by itself, and removes no session. -/
theorem Balanced.worker {S : Server} {log : List Decision}
    (hS : S.Balanced log) {i : Nat} {w t : Worker} {e : WorkerEvent}
    (hi : S.workers[i]? = some w) (hown : OwnEvent e)
    (h : Worker.Step sodium executor w e t) (hstay : ∀ k, e ≠ .remove k) :
    Balanced { S with workers := S.workers.set i t }
      (log ++ S.decisions (.worker i e)) := by
  have hw := List.mem_of_getElem? hi
  have htable := hS.tables w hw
  have hpending := set_pending hi t
  have hone := hS.one
  have hchange := stay_cases htable h hown hstay
  constructor
  · simpa using hS.many
  · intro v hv
    rcases List.mem_or_eq_of_mem_set hv with hold | rfl
    · exact hS.tables v hold
    · exact htable.step h
  · intro v hv u hu
    rcases List.mem_or_eq_of_mem_set hv with hv' | rfl
    · rcases List.mem_or_eq_of_mem_set hu with hu' | rfl
      · exact hS.close v hv' u hu'
      · have hclose := hS.close v hv' w hw
        omega
    · rcases List.mem_or_eq_of_mem_set hu with hu' | rfl
      · have hclose := hS.close w hw u hu'
        rcases hchange with ⟨hsame, -⟩ | ⟨hmore, hless⟩
        · omega
        · have hleast := hS.least w hw (by omega) u hu'
          omega
      · exact Nat.le_succ _
  · omega
  · intro v hv hpos u hu
    have hle := pending_le hv
    rcases hchange with ⟨hsame, hfewer⟩ | ⟨-, hless⟩
    · rcases List.mem_or_eq_of_mem_set hv with hv' | rfl
      · rcases List.mem_or_eq_of_mem_set hu with hu' | rfl
        · exact hS.least v hv' hpos u hu'
        · rw [hsame]
          exact hS.least v hv' hpos w hw
      · rcases List.mem_or_eq_of_mem_set hu with hu' | rfl
        · rw [hsame]
          exact hS.least w hw (hpos.trans_le hfewer) u hu'
        · exact le_rfl
    · omega
  · intro counts hmem
    rcases List.mem_append.mp hmem with hold | hnew
    · exact hS.full counts hold
    · obtain ⟨⟨k, keys, id, rfl⟩, rfl, hfull⟩ := decisions_dropped hi hnew
      have hless := Worker.create_pending htable h
      intro c hc
      obtain ⟨v, hv, rfl⟩ := List.mem_map.mp hc
      have hleast := hS.least w hw (by omega) v hv
      exact le_antisymm (hS.tables v hv).size (hfull.trans hleast)

theorem Balanced.step {S T : Server} {log : List Decision} {e : ServerEvent}
    (hS : S.Balanced log) (h : Step sodium executor S e T)
    (hprompt : Prompt (S, log) e) : T.Balanced (log ++ S.decisions e) := by
  cases h with
  | @accept ec =>
      cases ec with
      | true =>
          show S.Balanced (log ++ [])
          rw [List.append_nil]
          exact hS
      | false => exact hS.accept hprompt
  | worker hi hown hstep =>
      refine hS.worker hi hown hstep fun k he => ?_
      subst he
      exact hprompt

/-- With two workers or more, as long as every connection's handler has run
before the next connection is accepted and no session is removed: the client
counts of any two workers differ by at most one, and a connection is dropped
only when every worker is full. -/
theorem connections_balanced {n : Nat} (hn : 2 ≤ n) {clock : Int64}
    {es : List ServerEvent} {S : Server} {log : List Decision}
    (h : Run (When (Logged (Step sodium executor) decisions) Prompt)
      (start n clock, []) es (S, log)) :
    (∀ c ∈ S.counts, ∀ c' ∈ S.counts, c ≤ c' + 1)
      ∧ ∀ counts, .dropped counts ∈ log → Full counts := by
  have hbalanced : S.Balanced log := by
    refine h.when_invariant (I := fun s : Server × List Decision =>
      s.1.Balanced s.2) ?_ (start_balanced hn clock)
    rintro s e t hs ⟨hstep, hlog⟩ hprompt
    rw [hlog]
    exact hs.step hstep hprompt
  refine ⟨fun c hc c' hc' => ?_, hbalanced.full⟩
  obtain ⟨v, hv, rfl⟩ := List.mem_map.mp hc
  obtain ⟨w, hw, rfl⟩ := List.mem_map.mp hc'
  exact hbalanced.close v hv w hw

/-- Two workers, of which the first has got a session. -/
theorem connections_balanced_one : ∃ S log,
    Run (When (Logged (Step ⟨id, fun _ _ => none, id⟩ .worker) decisions)
        Prompt) (start 2 0, [])
        [.accept false, .worker 0 (.create 0 ⟨Key.zero, Key.zero⟩ 7)] (S, log)
      ∧ S.counts = [1, 0] ∧ ∀ c ∈ S.counts, ∀ c' ∈ S.counts, c ≤ c' + 1 := by
  obtain ⟨h₁, h₂⟩ := steps_oneCreated ⟨id, fun _ _ => none, id⟩ .worker
  have hfirst : When (Logged (Step ⟨id, fun _ _ => none, id⟩ .worker)
      decisions) Prompt (start 2 0, []) (.accept false)
      (onePending, [.picked [0, 0] (some 0)]) := ⟨⟨h₁, rfl⟩, rfl⟩
  have hsecond : When (Logged (Step ⟨id, fun _ _ => none, id⟩ .worker)
      decisions) Prompt (onePending, [.picked [0, 0] (some 0)])
      (.worker 0 (.create 0 ⟨Key.zero, Key.zero⟩ 7))
      (oneCreated, [.picked [0, 0] (some 0)]) := ⟨⟨h₂, rfl⟩, trivial⟩
  have hrun := Run.cons hfirst (.cons hsecond (.nil _))
  exact ⟨_, _, hrun, rfl, (connections_balanced (Nat.le_refl 2) hrun).1⟩

end Server

end Remc.Net
