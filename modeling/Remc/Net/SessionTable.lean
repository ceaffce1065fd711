/-
The session table of a worker.

`TableOk` is what every handler keeps, whatever ids are drawn and however
often a removal is posted: at most `WORKER_MAX_CLIENT_COUNT` entries, and
under each key a session with that id. So the handlers never follow a null
pointer and their `operator[]` never inserts one (`sessionTable`), and each
step does one of few things to the table and to a session object
(`table_cases`, `session_cases`).
-/
import Remc.Net.Worker

namespace Remc.Net

open Crypto Runs

variable {sodium : Sodium}

namespace Worker

-- =============================================================== the table

/-- What holds of the session table in every state. -/
structure TableOk (w : Worker) : Prop where
  size : w.sessionList.size ≤ workerMaxClientCount
  keyed : ∀ (id : UInt64) (ptr : SessionPtr),
    w.sessionList.lookup id = some ptr →
    ∃ (ref : Nat) (s : SessionObject), ptr = some ref
      ∧ w.sessions[ref]? = some s ∧ s.sessionId = id

/-- What the handler leaves. -/
def created (w : Worker) (keys : KeysWrapper) (id : UInt64) : Worker :=
  { w with
    sessionList := w.sessionList.insert id (some w.sessions.length)
    sessions := w.sessions ++ [{ w.newSession keys id with readCalls := 1 }] }

/-- What it leaves where the id is that of another session: the new object
is dropped, and the old one's `Read` is called. -/
def collided (w : Worker) (keys : KeysWrapper) (id : UInt64) (ref : Nat) :
    Worker :=
  { w with
    sessions := (w.sessions ++ [w.newSession keys id]).modify ref fun s =>
      { s with readCalls := s.readCalls + 1 } }

/-- What changing the last entry does. -/
theorem modify_concat {α : Type} (l : List α) (a : α) (f : α → α) :
    (l ++ [a]).modify l.length f = l ++ [f a] := by
  induction l with
  | nil => rfl
  | cons b l ih => simpa using ih

/-- With a full table the handler drops its socket. -/
theorem createSessionHandler_full {w : Worker}
    (h : w.sessionList.size = workerMaxClientCount) (keys : KeysWrapper)
    (id : UInt64) : w.createSessionHandler keys id = .ok w := by
  unfold createSessionHandler
  rw [if_pos (by omega)]
  rfl

theorem createSessionHandler_free {w : Worker} {id : UInt64}
    (h : w.sessionList.size < workerMaxClientCount) (hfree : id ∉ w.sessionList)
    (keys : KeysWrapper) :
    w.createSessionHandler keys id = .ok (w.created keys id) := by
  unfold createSessionHandler
  rw [if_neg (by omega), FlatHashMap.emplace_of_free hfree]
  dsimp only
  rw [FlatHashMap.index_eq (AList.lookup_insert _)]
  simp only [SessionPtr.deref, ok_bind, modify_concat]
  rfl

theorem createSessionHandler_taken {w : Worker} {id : UInt64} {ref : Nat}
    (h : w.sessionList.size < workerMaxClientCount)
    (hid : w.sessionList.lookup id = some (some ref)) (keys : KeysWrapper) :
    w.createSessionHandler keys id = .ok (w.collided keys id ref) := by
  unfold createSessionHandler
  rw [if_neg (by omega),
    FlatHashMap.emplace_of_taken (FlatHashMap.mem_of_lookup hid)]
  dsimp only
  rw [FlatHashMap.index_eq hid]
  rfl

theorem removeSessionHandler_free {w : Worker} {id : UInt64}
    (hfree : id ∉ w.sessionList) (executor : SocketExecutor) :
    w.removeSessionHandler executor id = .ok w := by
  unfold removeSessionHandler
  rw [if_neg hfree]
  rfl

theorem removeSessionHandler_taken {w : Worker} {id : UInt64} {ref : Nat}
    (hid : w.sessionList.lookup id = some (some ref))
    (executor : SocketExecutor) :
    w.removeSessionHandler executor id
      = .ok { w.dispatchClose executor.isWorker ref with
        sessionList := w.sessionList.erase id } := by
  unfold removeSessionHandler
  rw [if_pos (FlatHashMap.mem_of_lookup hid), FlatHashMap.index_eq hid]
  unfold dispatchClose
  cases executor <;> rfl

/-- An object of the table has one key. -/
theorem TableOk.key_eq {w : Worker} (h : w.TableOk) {id id' : UInt64}
    {ref : Nat} (hid : w.sessionList.lookup id = some (some ref))
    (hid' : w.sessionList.lookup id' = some (some ref)) : id = id' := by
  obtain ⟨r, s, hr, hs, rfl⟩ := h.keyed id _ hid
  obtain ⟨r', s', hr', hs', rfl⟩ := h.keyed id' _ hid'
  cases hr
  cases hr'
  rw [hs] at hs'
  cases hs'
  rfl

/-- A `mapM` of calls that return returns what they return. -/
theorem mapM_ok {α β : Type} {f : α → Checked β} {l : List α}
    (h : ∀ a ∈ l, ∃ b, f a = .ok b) :
    ∃ bs, l.mapM f = .ok bs ∧ ∀ b, b ∈ bs ↔ ∃ a ∈ l, f a = .ok b := by
  induction l with
  | nil => exact ⟨[], rfl, by simp⟩
  | cons a l ih =>
      obtain ⟨b, hb⟩ := h a (List.mem_cons_self ..)
      obtain ⟨bs, hbs, hmem⟩ := ih fun a ha => h a (List.mem_cons_of_mem _ ha)
      refine ⟨b :: bs, ?_, fun b' => ?_⟩
      · rw [List.mapM_cons, hb, ok_bind, hbs]
        rfl
      · rw [List.mem_cons, hmem, List.exists_mem_cons_iff, hb]
        constructor
        · rintro (rfl | hrest)
          · exact Or.inl rfl
          · exact Or.inr hrest
        · rintro (heq | hrest)
          · exact Or.inl (Except.ok.inj heq).symm
          · exact Or.inr hrest

/-- The sessions of the table can be gone through. -/
theorem TableOk.tableSessions {w : Worker} (h : w.TableOk) :
    ∃ ss, w.tableSessions = .ok ss ∧ ∀ s, s ∈ ss ↔
      ∃ ref, w.sessionList.lookup s.sessionId = some (some ref)
        ∧ w.sessions[ref]? = some s := by
  unfold Worker.tableSessions
  refine (mapM_ok fun ptr hptr => ?_).imp
    fun ss hss => ⟨hss.1, fun s => (hss.2 s).trans ?_⟩
  · obtain ⟨id, hid⟩ := FlatHashMap.mem_values.mp hptr
    obtain ⟨ref, s, rfl, hs, -⟩ := h.keyed id ptr hid
    exact ⟨s, by simp [hs]⟩
  · constructor
    · rintro ⟨ptr, hptr, heq⟩
      obtain ⟨id, hid⟩ := FlatHashMap.mem_values.mp hptr
      obtain ⟨ref, s', rfl, hs, rfl⟩ := h.keyed id ptr hid
      simp [hs] at heq
      subst heq
      exact ⟨ref, hid, hs⟩
    · rintro ⟨ref, hid, hs⟩
      exact ⟨some ref, FlatHashMap.mem_values.mpr ⟨_, hid⟩, by simp [hs]⟩

/-- The ids that the heartbeat finds are those of idle sessions. -/
theorem TableOk.stale {w : Worker} (h : w.TableOk) :
    ∃ ids, w.stale = .ok ids ∧ ∀ id, id ∈ ids ↔
      ∃ (ref : Nat) (s : SessionObject),
        w.sessionList.lookup id = some (some ref) ∧ w.sessions[ref]? = some s
          ∧ s.sessionId = id
          ∧ workerHeartbeatTimeout < age w.clock s.peer.session.lastTimestamp
    := by
  obtain ⟨ss, hss, hmem⟩ := h.tableSessions
  unfold Worker.stale
  rw [hss]
  refine ⟨_, rfl, fun id => ?_⟩
  rw [List.mem_map]
  constructor
  · rintro ⟨s, hs, rfl⟩
    obtain ⟨hin, hage⟩ := List.mem_filter.mp hs
    obtain ⟨ref, hid, href⟩ := (hmem s).mp hin
    exact ⟨ref, s, hid, href, rfl, by simpa using hage⟩
  · rintro ⟨ref, s, hid, hs, rfl, hage⟩
    have hin := (hmem s).mpr ⟨ref, hid, hs⟩
    exact ⟨s, List.mem_filter.mpr ⟨hin, by simpa using hage⟩, rfl⟩

-- ======================================================== what a step does

theorem create_step {executor : SocketExecutor} {w t : Worker} {k : Nat}
    {keys : KeysWrapper} {id : UInt64} (hw : w.TableOk)
    (h : Step sodium executor w (.create k keys id) t) :
    w.Executes ∧ w.queue[k]? = some .createSession
      ∧ ((w.sessionList.size = workerMaxClientCount
          ∧ t = w.dequeue k)
        ∨ (w.sessionList.size < workerMaxClientCount ∧ id ∉ w.sessionList
          ∧ t = (w.dequeue k).created keys id)
        ∨ ∃ ref, w.sessionList.size < workerMaxClientCount
          ∧ w.sessionList.lookup id = some (some ref)
          ∧ t = (w.dequeue k).collided keys id ref)
    := by
  cases h with
  | create hlive hk hrun =>
      refine ⟨hlive, hk, ?_⟩
      rcases Nat.lt_or_eq_of_le hw.size with hlt | hfull
      · by_cases hid : id ∈ w.sessionList
        · obtain ⟨ptr, hptr⟩ := FlatHashMap.exists_lookup hid
          obtain ⟨ref, s, rfl, -, -⟩ := hw.keyed id ptr hptr
          rw [createSessionHandler_taken (w := w.dequeue k) hlt hptr] at hrun
          cases hrun
          exact Or.inr (Or.inr ⟨ref, hlt, hptr, rfl⟩)
        · rw [createSessionHandler_free (w := w.dequeue k) hlt hid] at hrun
          cases hrun
          exact Or.inr (Or.inl ⟨hlt, hid, rfl⟩)
      · rw [createSessionHandler_full (w := w.dequeue k) hfull] at hrun
        cases hrun
        exact Or.inl ⟨hfull, rfl⟩

theorem remove_step {executor : SocketExecutor} {w t : Worker} {k : Nat}
    (hw : w.TableOk) (h : Step sodium executor w (.remove k) t) :
    ∃ id poster, w.Executes ∧ w.queue[k]? = some (.removeSession id poster)
      ∧ ((id ∉ w.sessionList ∧ t = w.dequeue k)
        ∨ ∃ ref, w.sessionList.lookup id = some (some ref)
          ∧ t = { (w.dequeue k).dispatchClose executor.isWorker ref with
            sessionList := w.sessionList.erase id }) := by
  cases h with
  | @remove _ _ id poster hlive hk hrun =>
      refine ⟨id, poster, hlive, hk, ?_⟩
      by_cases hid : id ∈ w.sessionList
      · obtain ⟨ptr, hptr⟩ := FlatHashMap.exists_lookup hid
        obtain ⟨ref, s, rfl, -, -⟩ := hw.keyed id ptr hptr
        rw [removeSessionHandler_taken (w := w.dequeue k) hptr] at hrun
        cases hrun
        exact Or.inr ⟨ref, hptr, rfl⟩
      · rw [removeSessionHandler_free (w := w.dequeue k) hid] at hrun
        cases hrun
        exact Or.inl ⟨hid, rfl⟩

/-- `Stop` dispatches the `Close` of every session of the table. -/
theorem TableOk.stop {w : Worker} (hw : w.TableOk)
    (hflag : w.threadFlag = true) :
    ∃ refs, w.stop = .ok { w with
        threadFlag := false, stopped := true, stopping := true
        closes := w.closes ++ refs }
      ∧ ∀ ref, ref ∈ refs ↔ ∃ id, w.sessionList.lookup id = some (some ref) := by
  obtain ⟨refs, hrefs, hmem⟩ := mapM_ok (f := SessionPtr.deref)
    (l := w.sessionList.values) (by
      intro ptr hptr
      obtain ⟨id, hid⟩ := FlatHashMap.mem_values.mp hptr
      obtain ⟨ref, s, rfl, -, -⟩ := hw.keyed id ptr hid
      exact ⟨ref, rfl⟩)
  refine ⟨refs, ?_, fun ref => (hmem ref).trans ?_⟩
  · unfold Worker.stop
    rw [if_pos hflag, hrefs]
    rfl
  · constructor
    · rintro ⟨ptr, hptr, heq⟩
      obtain ⟨id, hid⟩ := FlatHashMap.mem_values.mp hptr
      obtain ⟨ref', s, rfl, -, -⟩ := hw.keyed id ptr hid
      cases heq
      exact ⟨id, hid⟩
    · rintro ⟨id, hid⟩
      exact ⟨some ref, FlatHashMap.mem_values.mpr ⟨id, hid⟩, rfl⟩

/-- Where `Stop` has nothing to stop it changes nothing. -/
theorem stop_idle {w : Worker} (hflag : w.threadFlag = false) :
    w.stop = .ok w := by
  unfold Worker.stop
  rw [if_neg (by simp [hflag])]
  rfl

theorem TableOk.stop_cases {w t : Worker} (hw : w.TableOk)
    (h : w.stop = .ok t) :
    (w.threadFlag = false ∧ t = w)
      ∨ ∃ refs, w.threadFlag = true
        ∧ (∀ ref, ref ∈ refs ↔ ∃ id, w.sessionList.lookup id = some (some ref))
        ∧ t = { w with
          threadFlag := false, stopped := true, stopping := true
          closes := w.closes ++ refs } := by
  cases hflag : w.threadFlag with
  | false =>
      rw [stop_idle hflag] at h
      cases h
      exact Or.inl ⟨rfl, rfl⟩
  | true =>
      obtain ⟨refs, heq, hrefs⟩ := hw.stop hflag
      rw [heq] at h
      cases h
      exact Or.inr ⟨refs, rfl, hrefs, rfl⟩

/-- The step runs the `Close` of this session. -/
def Closes (executor : SocketExecutor) (w : Worker) (ref : Nat) :
    WorkerEvent → Prop
  | .close ref' => ref' = ref ∧ ref ∈ w.closes
  | .remove k => executor.isWorker = true ∧ ∃ id poster,
      w.queue[k]? = some (.removeSession id poster)
        ∧ w.sessionList.lookup id = some (some ref)
  | _ => False

/-- What a step does to a session. -/
inductive Fate (sodium : Sodium) (executor : SocketExecutor) (w : Worker)
    (e : WorkerEvent) (ref : Nat) (p : Peer) : Peer → Prop
  | same : Fate sodium executor w e ref p p
  | closed (hcloses : w.Closes executor ref e) :
      Fate sodium executor w e ref p { p with session := p.session.close }
  | step {e' : Event} {q : Peer} (he : e = .session ref e') (hne : e' ≠ .close)
      (hpeer : Peer.Step sodium p e' q)
      (hnow : ∀ now, e'.now? = some now → now = w.clock)
      (hlive : e'.onExecutor = true → w.Serves executor) :
      Fate sodium executor w e ref p q

/-- `Close` closes one session and leaves the others. -/
theorem close_fate {executor : SocketExecutor} {w v : Worker}
    {e : WorkerEvent} {ref ref' : Nat} {s : SessionObject}
    (hs : v.sessions[ref]? = some s)
    (hcloses : ref' = ref → w.Closes executor ref e) :
    ∃ s', (v.close ref').sessions[ref]? = some s' ∧ s'.sessionId = s.sessionId
      ∧ Fate sodium executor w e ref s.peer s'.peer := by
  unfold close
  by_cases href : ref' = ref
  · have hself := hcloses href
    subst href
    exact ⟨s.close, by simp [hs], rfl, .closed hself⟩
  · exact ⟨s, by simp [href, hs], rfl, .same⟩

/-- A session found under a drawn id is read again, and nothing else. -/
theorem collided_getElem {w : Worker} {ref : Nat} {s : SessionObject}
    (hs : w.sessions[ref]? = some s) (keys : KeysWrapper) (id : UInt64)
    (ref' : Nat) :
    ∃ s', (w.collided keys id ref').sessions[ref]? = some s'
      ∧ s'.sessionId = s.sessionId ∧ s'.peer = s.peer := by
  have hlt := (List.getElem?_eq_some_iff.mp hs).1
  have hold : (w.sessions ++ [w.newSession keys id])[ref]? = some s := by
    rw [List.getElem?_append_left hlt, hs]
  unfold collided
  by_cases href : ref' = ref
  · subst href
    refine ⟨{ s with readCalls := s.readCalls + 1 }, ?_, rfl, rfl⟩
    rw [List.getElem?_modify_eq, hold]
    rfl
  · refine ⟨s, ?_, rfl, rfl⟩
    rw [List.getElem?_modify_ne _ _ href, hold]

/-- An object stays where it is and keeps its id. -/
theorem session_cases {executor : SocketExecutor} {w t : Worker}
    {e : WorkerEvent} {ref : Nat} {s : SessionObject} (hw : w.TableOk)
    (h : Step sodium executor w e t) (hs : w.sessions[ref]? = some s) :
    ∃ s', t.sessions[ref]? = some s' ∧ s'.sessionId = s.sessionId
      ∧ Fate sodium executor w e ref s.peer s'.peer := by
  have hlt := (List.getElem?_eq_some_iff.mp hs).1
  cases e with
  | create k keys id =>
      obtain ⟨-, -, ⟨-, rfl⟩ | ⟨-, -, rfl⟩ | ⟨ref', -, -, rfl⟩⟩ :=
        create_step hw h
      · exact ⟨s, hs, rfl, .same⟩
      · refine ⟨s, ?_, rfl, .same⟩
        show (w.sessions ++ [_])[ref]? = some s
        rw [List.getElem?_append_left hlt, hs]
      · obtain ⟨s', hs', hid, hpeer⟩ :=
          collided_getElem (w := w.dequeue k) hs keys id ref'
        refine ⟨s', hs', hid, ?_⟩
        rw [hpeer]
        exact .same
  | remove k =>
      obtain ⟨id, poster, -, hk, ⟨-, rfl⟩ | ⟨ref', hid, rfl⟩⟩ :=
        remove_step hw h
      · exact ⟨s, hs, rfl, .same⟩
      · cases hcontext : executor.isWorker with
        | false => exact ⟨s, hs, rfl, .same⟩
        | true =>
            refine close_fate (v := w.dequeue k) hs fun href => ?_
            subst href
            exact ⟨hcontext, id, poster, hk, hid⟩
  | close ref' =>
      cases h with
      | close hlive href =>
          refine close_fate hs fun heq => ?_
          subst heq
          exact ⟨rfl, href⟩
  | session ref' e' =>
      cases h with
      | @session _ _ s' q hs' hpeer hclose hnow hlive =>
          by_cases href : ref' = ref
          · subst href
            rw [hs] at hs'
            cases hs'
            exact ⟨{ s with peer := q }, List.getElem?_set_self hlt, rfl,
              .step rfl hclose hpeer hnow hlive⟩
          · refine ⟨s, ?_, rfl, .same⟩
            show (w.sessions.set ref' _)[ref]? = some s
            rw [List.getElem?_set_ne href, hs]
  | heartbeat ec order =>
      cases h
      refine ⟨s, ?_, rfl, .same⟩
      cases ec <;> exact hs
  | run =>
      cases h
      refine ⟨s, ?_, rfl, .same⟩
      unfold Worker.run
      split <;> exact hs
  | stop =>
      cases h with
      | stop hidle hstop =>
          refine ⟨s, ?_, rfl, .same⟩
          rcases hw.stop_cases hstop with ⟨-, rfl⟩ | ⟨refs, -, -, rfl⟩
          · exact hs
          · exact hs
  | tick now =>
      cases h
      exact ⟨s, hs, rfl, .same⟩
  | join =>
      cases h
      exact ⟨s, hs, rfl, .same⟩
  | createSession =>
      cases h
      exact ⟨s, hs, rfl, .same⟩
  | removeSession id =>
      cases h
      exact ⟨s, hs, rfl, .same⟩

/-- The table gets a new session, loses one, or stays. -/
theorem table_cases {executor : SocketExecutor} {w t : Worker}
    {e : WorkerEvent} (hw : w.TableOk) (h : Step sodium executor w e t) :
    t.sessionList = w.sessionList
      ∨ (∃ k keys id, e = .create k keys id ∧ id ∉ w.sessionList
        ∧ w.sessionList.size < workerMaxClientCount
        ∧ t.sessionList = w.sessionList.insert id (some w.sessions.length)
        ∧ t.sessions[w.sessions.length]?
          = some { w.newSession keys id with readCalls := 1 })
      ∨ ∃ k id poster ref, e = .remove k
        ∧ w.queue[k]? = some (.removeSession id poster)
        ∧ w.sessionList.lookup id = some (some ref)
        ∧ t.sessionList = w.sessionList.erase id := by
  cases e with
  | create k keys id =>
      obtain ⟨-, -, ⟨-, rfl⟩ | ⟨hlt, hfree, rfl⟩ | ⟨ref, -, -, rfl⟩⟩ :=
        create_step hw h
      · exact Or.inl rfl
      · exact Or.inr (Or.inl
          ⟨k, keys, id, rfl, hfree, hlt, rfl, List.getElem?_concat_length⟩)
      · exact Or.inl rfl
  | remove k =>
      obtain ⟨id, poster, -, hk, ⟨-, rfl⟩ | ⟨ref, hid, rfl⟩⟩ :=
        remove_step hw h
      · exact Or.inl rfl
      · exact Or.inr (Or.inr ⟨k, id, poster, ref, rfl, hk, hid, rfl⟩)
  | heartbeat ec order =>
      cases h
      cases ec <;> exact Or.inl rfl
  | run =>
      cases h
      unfold Worker.run
      split <;> exact Or.inl rfl
  | stop =>
      cases h with
      | stop hidle hstop =>
          rcases hw.stop_cases hstop with ⟨-, rfl⟩ | ⟨refs, -, -, rfl⟩
          · exact Or.inl rfl
          · exact Or.inl rfl
  | _ =>
      cases h
      exact Or.inl rfl

/-- What is under a key was there, or has just been created. -/
theorem lookup_cases {executor : SocketExecutor} {w t : Worker}
    {e : WorkerEvent} {id : UInt64} {ptr : SessionPtr} (hw : w.TableOk)
    (h : Step sodium executor w e t) (hid : t.sessionList.lookup id = some ptr) :
    w.sessionList.lookup id = some ptr
      ∨ ∃ k keys, e = .create k keys id ∧ id ∉ w.sessionList
        ∧ w.sessionList.size < workerMaxClientCount
        ∧ ptr = some w.sessions.length
        ∧ t.sessions[w.sessions.length]?
          = some { w.newSession keys id with readCalls := 1 } := by
  rcases table_cases hw h with
    htable | ⟨k, keys, id', rfl, hfree, hlt, htable, hnew⟩
      | ⟨k, id', poster, ref, -, -, -, htable⟩
  · rw [htable] at hid
    exact Or.inl hid
  · rw [htable] at hid
    by_cases heq : id = id'
    · subst heq
      rw [AList.lookup_insert] at hid
      cases hid
      exact Or.inr ⟨k, keys, rfl, hfree, hlt, rfl, hnew⟩
    · rw [AList.lookup_insert_ne heq] at hid
      exact Or.inl hid
  · rw [htable] at hid
    by_cases heq : id = id'
    · subst heq
      rw [AList.lookup_erase] at hid
      cases hid
    · rw [AList.lookup_erase_ne heq] at hid
      exact Or.inl hid

/-- Only `Run` and `Stop` touch the flags. -/
theorem flags_cases {executor : SocketExecutor} {w t : Worker}
    {e : WorkerEvent} (hw : w.TableOk) (h : Step sodium executor w e t) :
    (e = .run ∨ e = .stop ∨ e = .join)
      ∨ t.threadFlag = w.threadFlag ∧ t.stopped = w.stopped
        ∧ t.running = w.running ∧ t.stopping = w.stopping := by
  cases e with
  | create k keys id =>
      obtain ⟨-, -, ⟨-, rfl⟩ | ⟨-, -, rfl⟩ | ⟨ref, -, -, rfl⟩⟩ :=
        create_step hw h
      all_goals exact Or.inr ⟨rfl, rfl, rfl, rfl⟩
  | remove k =>
      obtain ⟨id, poster, -, -, ⟨-, rfl⟩ | ⟨ref, -, rfl⟩⟩ := remove_step hw h
      · exact Or.inr ⟨rfl, rfl, rfl, rfl⟩
      · cases executor <;> exact Or.inr ⟨rfl, rfl, rfl, rfl⟩
  | heartbeat ec order =>
      cases h
      cases ec <;> exact Or.inr ⟨rfl, rfl, rfl, rfl⟩
  | run => exact Or.inl (Or.inl rfl)
  | stop => exact Or.inl (Or.inr (Or.inl rfl))
  | join => exact Or.inl (Or.inr (Or.inr rfl))
  | _ =>
      cases h
      exact Or.inr ⟨rfl, rfl, rfl, rfl⟩

/-- Only the clock moves the time, and forward. -/
theorem clock_cases {executor : SocketExecutor} {w t : Worker}
    {e : WorkerEvent} (hw : w.TableOk) (h : Step sodium executor w e t) :
    (∃ now, e = .tick now ∧ w.clock ≤ t.clock) ∨ t.clock = w.clock := by
  cases e with
  | create k keys id =>
      obtain ⟨-, -, ⟨-, rfl⟩ | ⟨-, -, rfl⟩ | ⟨ref, -, -, rfl⟩⟩ :=
        create_step hw h
      all_goals exact Or.inr rfl
  | remove k =>
      obtain ⟨id, poster, -, -, ⟨-, rfl⟩ | ⟨ref, -, rfl⟩⟩ := remove_step hw h
      · exact Or.inr rfl
      · cases executor <;> exact Or.inr rfl
  | heartbeat ec order =>
      cases h
      cases ec <;> exact Or.inr rfl
  | run =>
      cases h
      unfold Worker.run
      split <;> exact Or.inr rfl
  | stop =>
      cases h with
      | stop hidle hstop =>
          rcases hw.stop_cases hstop with ⟨-, rfl⟩ | ⟨refs, -, -, rfl⟩
          · exact Or.inr rfl
          · exact Or.inr rfl
  | tick now =>
      cases h with
      | tick hnow => exact Or.inl ⟨now, rfl, hnow⟩
  | _ =>
      cases h
      exact Or.inr rfl

/-- A handler that is queued was, or has just been posted. -/
theorem queue_cases {executor : SocketExecutor} {w t : Worker}
    {e : WorkerEvent} {x : Handler} (hw : w.TableOk)
    (h : Step sodium executor w e t) (hx : x ∈ t.queue) :
    x ∈ w.queue ∨ (e = .createSession ∧ x = .createSession)
      ∨ (∃ id, e = .removeSession id ∧ x = .removeSession id .other)
      ∨ ∃ ec order id ref s, e = .heartbeat ec order ∧ w.Executes
        ∧ x = .removeSession id .heartbeat
        ∧ w.sessionList.lookup id = some (some ref) ∧ w.sessions[ref]? = some s
        ∧ workerHeartbeatTimeout < age w.clock s.peer.session.lastTimestamp := by
  cases e with
  | create k keys id =>
      obtain ⟨-, -, ⟨-, rfl⟩ | ⟨-, -, rfl⟩ | ⟨ref, -, -, rfl⟩⟩ :=
        create_step hw h
      all_goals exact Or.inl (List.mem_of_mem_eraseIdx hx)
  | remove k =>
      obtain ⟨id, poster, -, -, ⟨-, rfl⟩ | ⟨ref, -, rfl⟩⟩ := remove_step hw h
      · exact Or.inl (List.mem_of_mem_eraseIdx hx)
      · cases executor <;> exact Or.inl (List.mem_of_mem_eraseIdx hx)
  | heartbeat ec order =>
      cases h with
      | heartbeat hlive htimer hstale =>
          cases ec with
          | true => exact Or.inl hx
          | false =>
              rcases List.mem_append.mp hx with hold | hnew
              · exact Or.inl hold
              · obtain ⟨id, hid, rfl⟩ := List.mem_map.mp hnew
                obtain ⟨vec, hvec, horder⟩ := hstale rfl
                obtain ⟨ids, hids, hmem⟩ := hw.stale
                rw [hids] at hvec
                cases hvec
                obtain ⟨ref, s, hlookup, hs, -, hage⟩ :=
                  (hmem id).mp (horder.mem_iff.mp hid)
                exact Or.inr (Or.inr (Or.inr ⟨false, order, id, ref, s, rfl,
                  hlive, rfl, hlookup, hs, hage⟩))
  | run =>
      cases h
      unfold Worker.run at hx
      split at hx <;> exact Or.inl hx
  | stop =>
      cases h with
      | stop hidle hstop =>
          rcases hw.stop_cases hstop with ⟨-, rfl⟩ | ⟨refs, -, -, rfl⟩
          · exact Or.inl hx
          · exact Or.inl hx
  | createSession =>
      cases h
      rcases List.mem_append.mp hx with hold | hnew
      · exact Or.inl hold
      · exact Or.inr (Or.inl ⟨rfl, List.mem_singleton.mp hnew⟩)
  | removeSession id =>
      cases h
      rcases List.mem_append.mp hx with hold | hnew
      · exact Or.inl hold
      · exact Or.inr (Or.inr (Or.inl ⟨id, rfl, List.mem_singleton.mp hnew⟩))
  | _ =>
      cases h
      exact Or.inl hx

theorem start_tableOk (clock : Int64) : (start clock).TableOk where
  size := Nat.zero_le _
  keyed id ptr h := by cases h

/-- Every step keeps the table as it should be. -/
theorem TableOk.step {executor : SocketExecutor} {w t : Worker}
    {e : WorkerEvent} (hw : w.TableOk) (h : Step sodium executor w e t) :
    t.TableOk := by
  constructor
  · rcases table_cases hw h with
      htable | ⟨k, keys, id, -, hfree, hlt, htable, -⟩
        | ⟨k, id, poster, ref, -, -, -, htable⟩
    · rw [htable]
      exact hw.size
    · rw [htable, FlatHashMap.size_insert hfree]
      exact hlt
    · rw [htable]
      exact FlatHashMap.size_erase_le.trans hw.size
  · intro id ptr hid
    rcases lookup_cases hw h hid with
      hold | ⟨k, keys, -, -, -, rfl, hnew⟩
    · obtain ⟨ref, s, rfl, hs, rfl⟩ := hw.keyed id ptr hold
      obtain ⟨s', hs', hsid, -⟩ := session_cases hw h hs
      exact ⟨ref, s', rfl, hs', hsid⟩
    · exact ⟨_, _, rfl, hnew, rfl⟩

/-- What holds of the flags in every state. -/
structure FlagsOk (w : Worker) : Prop where
  stopping : w.stopping = true → w.stopped = true
  running : w.stopped = false → w.running = w.threadFlag

theorem start_flagsOk (clock : Int64) : (start clock).FlagsOk where
  stopping h := by cases h
  running _ := rfl

theorem FlagsOk.step {executor : SocketExecutor} {w t : Worker}
    {e : WorkerEvent} (hflags : w.FlagsOk) (hw : w.TableOk)
    (h : Step sodium executor w e t) : t.FlagsOk := by
  rcases flags_cases hw h with
    (rfl | rfl | rfl) | ⟨hflag, hstopped, hrunning, hstopping⟩
  · cases h with
    | run hidle =>
        unfold Worker.run
        split
        next => exact hflags
        next =>
          refine ⟨hflags.stopping, fun hstopped => ?_⟩
          change w.stopped = false at hstopped
          show (!w.stopped) = true
          rw [hstopped]
          rfl
  · cases h with
    | stop hidle hstop =>
        rcases hw.stop_cases hstop with ⟨-, rfl⟩ | ⟨refs, -, -, rfl⟩
        · exact hflags
        · exact ⟨fun _ => rfl, fun hstopped => by cases hstopped⟩
  · cases h with
    | join hstopping =>
        refine ⟨fun hfalse => (by cases hfalse), fun hstopped => ?_⟩
        rw [show w.stopped = true from hflags.stopping hstopping] at hstopped
        cases hstopped
  · constructor
    · rw [hstopping, hstopped]
      exact hflags.stopping
    · rw [hstopped, hrunning, hflag]
      exact hflags.running

/-- A context that is not stopped was not before, and goes on running. -/
theorem FlagsOk.live {executor : SocketExecutor} {w t : Worker}
    {e : WorkerEvent} (hflags : w.FlagsOk) (hw : w.TableOk)
    (h : Step sodium executor w e t) (ht : t.stopped = false) :
    w.stopped = false ∧ (w.running = true → t.running = true) := by
  rcases flags_cases hw h with (rfl | rfl | rfl) | ⟨-, hstopped, hrunning, -⟩
  · cases h with
    | run hidle =>
        unfold Worker.run at ht ⊢
        split at ht
        next hflag =>
          rw [if_pos hflag]
          exact ⟨ht, fun hrun => hrun⟩
        next hflag =>
          rw [if_neg hflag]
          refine ⟨ht, fun _ => ?_⟩
          show (!w.stopped) = true
          rw [show w.stopped = false from ht]
          rfl
  · cases h with
    | stop hidle hstop =>
        rcases hw.stop_cases hstop with ⟨-, rfl⟩ | ⟨refs, -, -, rfl⟩
        · exact ⟨ht, fun hrun => hrun⟩
        · cases ht
  · cases h with
    | join hstopping =>
        rw [show w.stopped = true from hflags.stopping hstopping] at ht
        cases ht
  · rw [hstopped] at ht
    exact ⟨ht, fun hrun => hrunning.trans hrun⟩

/-- Every run keeps it so. -/
theorem run_tableOk {executor : SocketExecutor} {clock : Int64}
    {es : List WorkerEvent} {w : Worker}
    (h : Run (Step sodium executor) (start clock) es w) : w.TableOk :=
  h.invariant (fun _ _ _ hw hstep => hw.step hstep) (start_tableOk clock)

/-- The access in `CreateSession`'s handler finds a session. -/
theorem TableOk.index_emplace {w : Worker} (hw : w.TableOk) (id : UInt64)
    (new : Nat) :
    ∃ ref, (w.sessionList.emplace id (some new)).index none id
      = (w.sessionList.emplace id (some new), some ref) := by
  by_cases hid : id ∈ w.sessionList
  · obtain ⟨ptr, hptr⟩ := FlatHashMap.exists_lookup hid
    obtain ⟨ref, s, rfl, -, -⟩ := hw.keyed id ptr hptr
    rw [FlatHashMap.emplace_of_taken hid]
    exact ⟨ref, FlatHashMap.index_eq hptr⟩
  · rw [FlatHashMap.emplace_of_free hid]
    exact ⟨new, FlatHashMap.index_eq (AList.lookup_insert _)⟩

/-- So does the one in `RemoveSession`'s. -/
theorem TableOk.index {w : Worker} (hw : w.TableOk) {id : UInt64}
    (hid : id ∈ w.sessionList) :
    ∃ ref, w.sessionList.index none id = (w.sessionList, some ref) := by
  obtain ⟨ptr, hptr⟩ := FlatHashMap.exists_lookup hid
  obtain ⟨ref, s, rfl, -, -⟩ := hw.keyed id ptr hptr
  exact ⟨ref, FlatHashMap.index_eq hptr⟩

/-- `CreateSession`'s handler returns. -/
theorem TableOk.createSession {w : Worker} (hw : w.TableOk)
    (keys : KeysWrapper) (id : UInt64) :
    ∃ t, w.createSessionHandler keys id = .ok t := by
  rcases Nat.lt_or_eq_of_le hw.size with hlt | hfull
  · by_cases hid : id ∈ w.sessionList
    · obtain ⟨ptr, hptr⟩ := FlatHashMap.exists_lookup hid
      obtain ⟨ref, s, rfl, -, -⟩ := hw.keyed id ptr hptr
      exact ⟨_, createSessionHandler_taken hlt hptr keys⟩
    · exact ⟨_, createSessionHandler_free hlt hid keys⟩
  · exact ⟨_, createSessionHandler_full hfull keys id⟩

/-- `RemoveSession`'s handler returns; the id is gone then, and the other
entries and their sessions are as they were. -/
theorem TableOk.removeSession {w : Worker} (hw : w.TableOk)
    (executor : SocketExecutor) (id : UInt64) :
    ∃ t, w.removeSessionHandler executor id = .ok t ∧ id ∉ t.sessionList
      ∧ ∀ id', id' ≠ id →
        t.sessionList.lookup id' = w.sessionList.lookup id'
          ∧ ∀ ref, w.sessionList.lookup id' = some (some ref) →
            t.sessions[ref]? = w.sessions[ref]? := by
  by_cases hid : id ∈ w.sessionList
  · obtain ⟨ptr, hptr⟩ := FlatHashMap.exists_lookup hid
    obtain ⟨ref, s, rfl, -, -⟩ := hw.keyed id ptr hptr
    refine ⟨_, removeSessionHandler_taken hptr executor, by simp, ?_⟩
    intro id' hne
    refine ⟨AList.lookup_erase_ne hne, fun ref' hid' => ?_⟩
    have href : ref ≠ ref' := by
      intro heq
      subst heq
      exact hne (hw.key_eq hid' hptr)
    show (w.dispatchClose executor.isWorker ref).sessions[ref']? = _
    unfold dispatchClose
    split
    · exact List.getElem?_modify_ne _ _ href
    · rfl
  · exact ⟨w, removeSessionHandler_free hid executor, hid,
      fun id' _ => ⟨rfl, fun _ _ => rfl⟩⟩

/-- In every run of a worker, whatever ids are drawn: the table holds at
most `WORKER_MAX_CLIENT_COUNT` entries; each key is mapped to a session
object with that id, and no object has two; `operator[]` finds an entry
wherever a handler uses it; and removing an id takes its entry away, leaves
the others, and does nothing where there is none. -/
theorem sessionTable {executor : SocketExecutor} {clock : Int64}
    {es : List WorkerEvent} {w : Worker}
    (h : Run (Step sodium executor) (start clock) es w) :
    w.sessionList.size ≤ workerMaxClientCount
      ∧ (∀ id ptr, w.sessionList.lookup id = some ptr →
        ∃ (ref : Nat) (s : SessionObject), ptr = some ref
          ∧ w.sessions[ref]? = some s ∧ s.sessionId = id)
      ∧ (∀ id id' ref, w.sessionList.lookup id = some (some ref) →
        w.sessionList.lookup id' = some (some ref) → id = id')
      ∧ (∀ id new, ∃ ref, (w.sessionList.emplace id (some new)).index none id
        = (w.sessionList.emplace id (some new), some ref))
      ∧ (∀ id ∈ w.sessionList, ∃ ref,
        w.sessionList.index none id = (w.sessionList, some ref))
      ∧ (∀ keys id, ∃ t, w.createSessionHandler keys id = .ok t)
      ∧ (∀ id, ∃ t, w.removeSessionHandler executor id = .ok t
        ∧ id ∉ t.sessionList
        ∧ ∀ id', id' ≠ id →
          t.sessionList.lookup id' = w.sessionList.lookup id'
            ∧ ∀ ref, w.sessionList.lookup id' = some (some ref) →
              t.sessions[ref]? = w.sessions[ref]?)
      ∧ ∀ id ∉ w.sessionList, w.removeSessionHandler executor id = .ok w := by
  have hw := run_tableOk h
  refine ⟨hw.size, hw.keyed, ?_, hw.index_emplace, ?_, ?_, ?_, ?_⟩
  · exact fun id id' ref hid hid' => hw.key_eq hid hid'
  · exact fun id hid => hw.index hid
  · exact fun keys id => hw.createSession keys id
  · exact fun id => hw.removeSession executor id
  · exact fun id hid => removeSessionHandler_free hid executor

/-- A worker that runs and has one session. -/
def oneSession (clock : Int64) (keys : KeysWrapper) (id : UInt64) : Worker :=
  (start clock).run.created keys id

theorem run_oneSession (sodium : Sodium) (executor : SocketExecutor)
    (clock : Int64) (keys : KeysWrapper) (id : UInt64) :
    Run (Step sodium executor) (start clock)
      [.run, .createSession, .create 0 keys id] (oneSession clock keys id) := by
  have hempty : (start clock).run.sessionList.size < workerMaxClientCount := by
    show 0 < workerMaxClientCount
    decide
  have hrun : (start clock).run.createSessionHandler keys id
      = .ok (oneSession clock keys id) :=
    createSessionHandler_free hempty (AList.notMem_empty id) keys
  apply Run.cons (.run rfl)
  apply Run.cons .createSession
  exact .cons (.create ⟨rfl, rfl⟩ rfl hrun) (.nil _)

/-- The one session of that worker is removed once. -/
theorem sessionTable_one :
    ∃ w t : Worker, w.sessionList.lookup 7 = some (some 0)
      ∧ w.sessionList.size ≤ workerMaxClientCount
      ∧ w.removeSessionHandler .worker 7 = .ok t ∧ 7 ∉ t.sessionList := by
  obtain ⟨hsize, -, -, -, -, -, hremove, -⟩ := sessionTable
    (run_oneSession ⟨id, fun _ _ => none, id⟩ .worker 0 ⟨Key.zero, Key.zero⟩ 7)
  obtain ⟨t, ht, hgone, -⟩ := hremove 7
  exact ⟨_, t, rfl, hsize, ht, hgone⟩

end Worker

end Remc.Net
