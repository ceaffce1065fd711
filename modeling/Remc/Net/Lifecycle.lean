/-
`Run` and `Stop` of a worker (server.cpp).

`Stop` stops `io_` first and dispatches the `Close` of every session then,
from a thread that runs no context; so where that is the executor of the
sockets, what it dispatches is queued for good. And `Run` does not restart
`io_`: after a `Stop` it sets the flag and starts a thread that returns at
once. What is left is a worker that is run once, and stopped with an empty
table (`lifecycle_iff`).
-/
import Remc.Net.SessionTable

namespace Remc.Net

open Crypto Runs

variable {sodium : Sodium}

/-- Nothing but `Close` closes a session. -/
theorem Peer.Step.isOpen {p q : Peer} {e : Event} (h : Peer.Step sodium p e q)
    (hclose : e ≠ .close) : q.session.isOpen = p.session.isOpen := by
  cases h with
  | write hrole => rfl
  | @handler w rest now drawn s hposted hrun =>
      show s.isOpen = _
      rw [PostedWrite.run_session hrun]
  | transfer hw hopen hpos hn => rfl
  | written hw hopen hall hrun =>
      obtain ⟨outbox, -, hs⟩ := bind_eq_ok hrun
      cases hs
      rfl
  | close hrole => exact absurd rfl hclose
  | read hpos hlen => rfl
  | @task k now τ r hτ hrun =>
      show r.session.isOpen = _
      rw [Task.run_session hrun]

/-- Its `Close` has run: the socket is closed and the queue is clear. -/
def SessionObject.Closed (s : SessionObject) : Prop :=
  s.peer.session.isOpen = false
    ∧ s.peer.session.outbox.messageQueue.isEmpty = true

namespace Worker

/-- With the flag set, handlers are run; and after a `Stop` the sessions of
the table are closed. The table of a stopped worker does not change, so
these are the sessions that were there. -/
structure LifecycleOk (w : Worker) : Prop where
  runs : w.threadFlag = true → w.Executes
  closed : w.stopped = true → w.stopping = false → ∀ id ref s,
    w.sessionList.lookup id = some (some ref) → w.sessions[ref]? = some s →
      s.Closed

/-- A worker that is not running is run only where `io_` is not stopped, and
one that is running is stopped only with an empty table. -/
def RunsOnce (w : Worker) : WorkerEvent → Prop
  | .run => w.threadFlag = false → w.stopped = false
  | .stop => w.threadFlag = true → w.sessionList.size = 0
  | _ => True

/-- No further call of `Run` or `Stop`. -/
def NoCalls (_ : Worker) : WorkerEvent → Prop
  | .run => False
  | .stop => False
  | _ => True

-- ============================================================ the invariant

/-- What holds of a worker that is run once. -/
structure RunOnce (w : Worker) : Prop where
  table : w.TableOk
  flags : w.FlagsOk
  stopped : w.stopped = true → w.threadFlag = false ∧ w.sessionList.size = 0
  opened : ∀ id ref s, w.sessionList.lookup id = some (some ref) →
    w.sessions[ref]? = some s → s.peer.session.isOpen = true
  closes : ∀ ref ∈ w.closes, ref < w.sessions.length
    ∧ ∀ id, w.sessionList.lookup id ≠ some (some ref)

theorem start_runOnce (clock : Int64) : (start clock).RunOnce where
  table := start_tableOk clock
  flags := start_flagsOk clock
  stopped h := by cases h
  opened id ref s h := by cases h
  closes ref h := by cases h

/-- An empty table has no session. -/
theorem lookup_of_size {w : Worker} (h : w.sessionList.size = 0)
    (id : UInt64) : w.sessionList.lookup id = none := by
  refine AList.lookup_eq_none.mpr fun hid => ?_
  have hpos := List.length_pos_of_mem (AList.mem_keys.mp hid)
  rw [← FlatHashMap.size_eq_keys] at hpos
  omega

theorem RunOnce.lifecycleOk {w : Worker} (h : w.RunOnce) : w.LifecycleOk where
  runs hflag := by
    cases hstopped : w.stopped with
    | false => exact ⟨(h.flags.running hstopped).trans hflag, hstopped⟩
    | true =>
        rw [(h.stopped hstopped).1] at hflag
        cases hflag
  closed hstopped _ id ref s hid _ := by
    rw [lookup_of_size (h.stopped hstopped).2] at hid
    cases hid

variable {executor : SocketExecutor} {w t : Worker} {e : WorkerEvent}

/-- The objects made stay. -/
theorem sessions_length (hw : w.TableOk) (h : Step sodium executor w e t) :
    w.sessions.length ≤ t.sessions.length := by
  by_contra hlt
  obtain ⟨s, hs⟩ : ∃ s, w.sessions[t.sessions.length]? = some s :=
    ⟨_, List.getElem?_eq_getElem (by omega)⟩
  obtain ⟨s', hs', -, -⟩ := session_cases hw h hs
  have hlt' := (List.getElem?_eq_some_iff.mp hs').1
  omega

/-- A `Close` is dispatched by the removal of its session, or by `Stop`. -/
theorem closes_cases (hw : w.TableOk) (h : Step sodium executor w e t)
    {ref : Nat} (href : ref ∈ t.closes) :
    ref ∈ w.closes
      ∨ (∃ id, w.sessionList.lookup id = some (some ref)
        ∧ t.sessionList.lookup id = none)
      ∨ (e = .stop ∧ w.threadFlag = true
        ∧ ∃ id, w.sessionList.lookup id = some (some ref)) := by
  cases e with
  | create k keys id =>
      obtain ⟨-, -, ⟨-, rfl⟩ | ⟨-, -, rfl⟩ | ⟨ref', -, -, rfl⟩⟩ :=
        create_step hw h
      all_goals exact Or.inl href
  | remove k =>
      obtain ⟨id, poster, -, -, ⟨-, rfl⟩ | ⟨ref', hid, rfl⟩⟩ := remove_step hw h
      · exact Or.inl href
      · cases executor with
        | worker => exact Or.inl href
        | other =>
            rcases List.mem_append.mp href with hold | hnew
            · exact Or.inl hold
            · rw [List.mem_singleton.mp hnew]
              exact Or.inr (Or.inl ⟨id, hid, AList.lookup_erase _ _⟩)
  | heartbeat ec order =>
      cases h
      cases ec <;> exact Or.inl href
  | run =>
      cases h
      unfold Worker.run at href
      split at href <;> exact Or.inl href
  | stop =>
      cases h with
      | stop hidle hstop =>
          rcases hw.stop_cases hstop with ⟨-, rfl⟩ | ⟨refs, hflag, hrefs, rfl⟩
          · exact Or.inl href
          · rcases List.mem_append.mp href with hold | hnew
            · exact Or.inl hold
            · exact Or.inr (Or.inr ⟨rfl, hflag, (hrefs ref).mp hnew⟩)
  | close ref' =>
      cases h
      exact Or.inl (List.mem_of_mem_erase href)
  | _ =>
      cases h
      exact Or.inl href

/-- A session of the table that is open stays open. -/
theorem RunOnce.opened_step (hw : w.RunOnce) (h : Step sodium executor w e t)
    {id : UInt64} {ref : Nat} {s : SessionObject}
    (hid : t.sessionList.lookup id = some (some ref))
    (hs : t.sessions[ref]? = some s) : s.peer.session.isOpen = true := by
  rcases lookup_cases hw.table h hid with
    hold | ⟨k, keys, -, -, -, hptr, hnew⟩
  · obtain ⟨ref', s', hptr, hs', -⟩ := hw.table.keyed id _ hold
    cases hptr
    have hopen := hw.opened id ref s' hold hs'
    obtain ⟨s'', hs'', -, hfate⟩ := session_cases hw.table h hs'
    rw [hs] at hs''
    cases hs''
    generalize hp : s'.peer = p at hfate hopen
    generalize hq : s.peer = q at hfate
    cases hfate with
    | same => exact hopen
    | step he hne hpeer hnow hlive => exact (hpeer.isOpen hne).trans hopen
    | closed hcloses =>
        cases e with
        | close ref' =>
            obtain ⟨rfl, hmem⟩ := hcloses
            exact absurd hold ((hw.closes _ hmem).2 id)
        | remove k =>
            obtain ⟨-, id', poster, hk, hid'⟩ := hcloses
            obtain ⟨id'', poster', -, hk', ⟨hfree, -⟩ | ⟨ref', -, rfl⟩⟩ :=
              remove_step hw.table h
            · rw [hk] at hk'
              cases hk'
              exact absurd (FlatHashMap.mem_of_lookup hid') hfree
            · rw [hk] at hk'
              cases hk'
              rw [hw.table.key_eq hold hid'] at hid
              change (w.sessionList.erase id').lookup id' = _ at hid
              rw [AList.lookup_erase] at hid
              cases hid
        | _ => cases hcloses
  · cases hptr
    rw [hnew] at hs
    cases hs
    rfl

/-- A stopped worker was stopped with an empty table. -/
theorem RunOnce.stopped_step (hw : w.RunOnce) (h : Step sodium executor w e t)
    (honce : w.RunsOnce e) (ht : t.stopped = true) :
    t.threadFlag = false ∧ t.sessionList.size = 0 := by
  rcases flags_cases hw.table h with
    (rfl | rfl | rfl) | ⟨hflag, hstopped, -, -⟩
  · cases h with
    | run hidle =>
        unfold Worker.run at ht ⊢
        split at ht
        next hflag =>
          rw [if_pos hflag]
          exact hw.stopped ht
        next hflag =>
          have hfalse := honce (by simpa using hflag)
          rw [show w.stopped = true from ht] at hfalse
          cases hfalse
  · cases h with
    | stop hidle hstop =>
        rcases hw.table.stop_cases hstop with ⟨-, rfl⟩ | ⟨refs, hflag, -, rfl⟩
        · exact hw.stopped ht
        · exact ⟨rfl, honce hflag⟩
  · cases h with
    | join hstopping => exact hw.stopped ht
  · rw [hstopped] at ht
    obtain ⟨hidle, hsize⟩ := hw.stopped ht
    refine ⟨hflag.trans hidle, ?_⟩
    rcases table_cases hw.table h with
      htable | ⟨k, keys, id, rfl, -⟩ | ⟨k, id, poster, ref, -, -, -, htable⟩
    · rw [htable]
      exact hsize
    · obtain ⟨⟨-, hfalse⟩, -⟩ := create_step hw.table h
      rw [ht] at hfalse
      cases hfalse
    · rw [htable]
      exact Nat.eq_zero_of_le_zero (FlatHashMap.size_erase_le.trans hsize.le)

/-- A session whose `Close` is dispatched is not in the table. -/
theorem RunOnce.closes_step (hw : w.RunOnce) (h : Step sodium executor w e t)
    (honce : w.RunsOnce e) {ref : Nat} (href : ref ∈ t.closes) :
    ref < t.sessions.length
      ∧ ∀ id, t.sessionList.lookup id ≠ some (some ref) := by
  have hold : ref < w.sessions.length
      ∧ ∀ id, t.sessionList.lookup id = some (some ref) →
        w.sessionList.lookup id ≠ some (some ref) := by
    rcases closes_cases hw.table h href with
      hmem | ⟨id, hid, hgone⟩ | ⟨rfl, hflag, id, hid⟩
    · obtain ⟨hlt, hnone⟩ := hw.closes ref hmem
      exact ⟨hlt, fun id _ => hnone id⟩
    · obtain ⟨ref', s, hptr, hs, -⟩ := hw.table.keyed id _ hid
      cases hptr
      refine ⟨(List.getElem?_eq_some_iff.mp hs).1, fun id' hid' hid'' => ?_⟩
      rw [hw.table.key_eq hid'' hid, hgone] at hid'
      cases hid'
    · rw [lookup_of_size (honce hflag)] at hid
      cases hid
  obtain ⟨hlt, hnone⟩ := hold
  refine ⟨hlt.trans_le (sessions_length hw.table h), fun id hid => ?_⟩
  rcases lookup_cases hw.table h hid with
    hsame | ⟨k, keys, -, -, -, hptr, -⟩
  · exact hnone id hid hsame
  · cases hptr
    omega

/-- Every step of a worker that is run once. -/
theorem RunOnce.step (hw : w.RunOnce) (h : Step sodium executor w e t)
    (honce : w.RunsOnce e) : t.RunOnce where
  table := hw.table.step h
  flags := hw.flags.step hw.table h
  stopped ht := hw.stopped_step h honce ht
  opened _ _ _ hid hs := hw.opened_step h hid hs
  closes _ href := hw.closes_step h honce href

/-- Any other call of `Run` leaves a worker that runs nothing, and any other
call of `Stop` one that may return with open sessions. -/
theorem RunOnce.lost (hw : w.RunOnce) (h : Step sodium executor w e t)
    (honce : ¬w.RunsOnce e) :
    ¬Safely (Step sodium executor) NoCalls LifecycleOk t := by
  intro hsafe
  cases e with
  | run =>
      simp only [RunsOnce, Classical.not_imp] at honce
      obtain ⟨hflag, hstopped⟩ := honce
      cases h with
      | run hidle =>
          have hruns := hsafe.now.runs
          unfold Worker.run at hruns
          rw [if_neg (by simp [hflag])] at hruns
          exact hstopped (hruns rfl).2
  | stop =>
      simp only [RunsOnce, Classical.not_imp] at honce
      obtain ⟨hflag, hsize⟩ := honce
      cases h with
      | stop hidle hstop =>
          rcases hw.table.stop_cases hstop with ⟨hfalse, -⟩ | ⟨refs, -, -, rfl⟩
          · rw [hflag] at hfalse
            cases hfalse
          · obtain ⟨id, ptr, hid⟩ := FlatHashMap.exists_lookup_of_size hsize
            obtain ⟨ref, s, rfl, hs, -⟩ := hw.table.keyed id ptr hid
            have hjoined := hsafe [.join] _ (.cons ⟨.join rfl, trivial⟩ (.nil _))
            obtain ⟨hclosed, -⟩ := hjoined.closed rfl rfl id ref s hid hs
            rw [hw.opened id ref s hid hs] at hclosed
            cases hclosed
  | _ => exact honce trivial

/-- A worker that is run once, and stopped with an empty table, runs its
handlers whenever its flag is set and has no open session once it is
stopped; and these are exactly the runs after whose every step that is bound
to stay so until `Run` or `Stop` is called again. -/
theorem lifecycle_iff {executor : SocketExecutor} {clock : Int64}
    {es : List WorkerEvent} {w : Worker} :
    (Run (When (Step sodium executor) RunsOnce) (start clock) es w →
        w.LifecycleOk)
      ∧ (Run (Into (Step sodium executor)
          (Safely (Step sodium executor) NoCalls LifecycleOk))
          (start clock) es w
        ↔ Run (When (Step sodium executor) RunsOnce) (start clock) es w) := by
  have hkeep : ∀ w e t, RunOnce w → Step sodium executor w e t →
      w.RunsOnce e → RunOnce t := fun w e t hw h honce => hw.step h honce
  constructor
  · intro h
    exact (h.when_invariant hkeep (start_runOnce clock)).lifecycleOk
  · refine Run.safely_iff_when hkeep ?_ ?_ ?_ ?_
    · intro w e hquiet
      cases e with
      | run => cases hquiet
      | stop => cases hquiet
      | _ => trivial
    · exact fun w hw => hw.lifecycleOk
    · exact fun w e t hw h honce => hw.lost h honce
    · exact start_runOnce clock

/-- After a `Stop` a second `Run` sets the flag over a stopped context; and
a `Stop` that has returned has left the one session open. -/
theorem stopped_for_good :
    (∃ w, Run (Step ⟨id, fun _ _ => none, id⟩ .worker) (start 0)
        [.run, .stop, .join, .run] w
      ∧ w.threadFlag = true ∧ w.stopped = true)
      ∧ ∃ w s, Run (Step ⟨id, fun _ _ => none, id⟩ .worker) (start 0)
        [.run, .createSession, .create 0 ⟨Key.zero, Key.zero⟩ 7, .stop, .join] w
        ∧ w.stopping = false ∧ w.sessionList.lookup 7 = some (some 0)
        ∧ w.sessions[0]? = some s ∧ s.peer.session.isOpen = true := by
  let sodium : Sodium := ⟨id, fun _ _ => none, id⟩
  constructor
  · let w : Worker := { (start 0).run with
      threadFlag := false, stopped := true, running := false }
    refine ⟨w.run, ?_, rfl, rfl⟩
    apply Run.cons (.run rfl)
    apply Run.cons (.stop rfl rfl)
    apply Run.cons (.join rfl : Step sodium .worker _ .join w)
    exact .cons (.run rfl) (.nil _)
  · let keys : KeysWrapper := ⟨Key.zero, Key.zero⟩
    have hlast : Run (Step sodium .worker) (oneSession 0 keys 7) [.stop, .join]
        { oneSession 0 keys 7 with
          threadFlag := false, stopped := true, running := false
          closes := [0] } :=
      .cons (.stop rfl rfl) (.cons (.join rfl) (.nil _))
    have hrun := (run_oneSession sodium .worker 0 keys 7).append hlast
    exact ⟨_, _, hrun, rfl, rfl, rfl, rfl⟩

end Worker

end Remc.Net
