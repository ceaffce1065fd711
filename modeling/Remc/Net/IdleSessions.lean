/-
What the heartbeat reaches.

A session that is idle when a heartbeat timer's handler runs is doomed: a
`RemoveSession` for it is posted, and stays posted until it runs. When it
has run the session has left the table for good, and is closed or has its
`Close` dispatched (`idle_removed`); what runs in between and after, and
whether the worker is stopped, run again or given new sessions under the
same id, makes no difference.
-/
import Remc.Net.Heartbeat
import Remc.Net.Lifecycle

namespace Remc.Net

open Crypto Runs

variable {sodium : Sodium}

/-- `Close` closes the socket, if it was not closed. -/
theorem Session.close_isOpen (s : Session) : s.close.isOpen = false := by
  unfold Session.close
  split
  next => rfl
  next hclosed => simpa using hclosed

namespace Worker

/-- A session that has left the table: its `Close` has run, or has been
dispatched. -/
structure Retired (w : Worker) (ref : Nat) : Prop where
  gone : ∀ id, w.sessionList.lookup id ≠ some (some ref)
  closing : ∃ s, w.sessions[ref]? = some s
    ∧ (s.peer.session.isOpen = false ∨ ref ∈ w.closes)

/-- The session under an id has been idle for too long. -/
def IdleAt (w : Worker) (id : UInt64) (ref : Nat) : Prop :=
  w.sessionList.lookup id = some (some ref)
    ∧ ∃ s, w.sessions[ref]? = some s
      ∧ workerHeartbeatTimeout < age w.clock s.peer.session.lastTimestamp

variable {executor : SocketExecutor} {w t : Worker} {e : WorkerEvent}

-- =========================================================== what is queued

/-- Taking one handler out leaves the others. -/
theorem dequeue_kept {k : Nat} {x : Handler} (hx : x ∈ w.queue) :
    x ∈ (w.dequeue k).queue ∨ w.queue[k]? = some x := by
  obtain ⟨j, hj⟩ := List.mem_iff_getElem?.mp hx
  by_cases heq : j = k
  · subst heq
    exact Or.inr hj
  · exact Or.inl (List.mem_eraseIdx_iff_getElem?.mpr ⟨j, heq, hj⟩)

/-- The heartbeat's removals stay posted until they run. -/
theorem doomed_kept (hw : w.TableOk) (h : Step sodium executor w e t)
    {id : UInt64} (hdoomed : w.Doomed id) :
    t.Doomed id
      ∨ ∃ k, e = .remove k ∧ w.queue[k]? = some (.removeSession id .heartbeat)
    := by
  cases e with
  | create k keys id' =>
      obtain ⟨-, hk, hcases⟩ := create_step hw h
      have hkept : (w.dequeue k).Doomed id := by
        rcases dequeue_kept (k := k) hdoomed with hold | hran
        · exact hold
        · rw [hk] at hran
          cases hran
      rcases hcases with ⟨-, rfl⟩ | ⟨-, -, rfl⟩ | ⟨ref, -, -, rfl⟩
      all_goals exact Or.inl hkept
  | remove k =>
      obtain ⟨id', poster, -, -, hcases⟩ := remove_step hw h
      rcases dequeue_kept (k := k) hdoomed with hold | hran
      · rcases hcases with ⟨-, rfl⟩ | ⟨ref, -, rfl⟩
        · exact Or.inl hold
        · cases executor <;> exact Or.inl hold
      · exact Or.inr ⟨k, rfl, hran⟩
  | heartbeat ec order =>
      cases h
      cases ec with
      | true => exact Or.inl hdoomed
      | false => exact Or.inl (List.mem_append_left _ hdoomed)
  | run =>
      cases h
      unfold Worker.run
      split <;> exact Or.inl hdoomed
  | stop =>
      cases h with
      | stop hidle hstop =>
          rcases hw.stop_cases hstop with ⟨-, rfl⟩ | ⟨refs, -, -, rfl⟩
          all_goals exact Or.inl hdoomed
  | createSession =>
      cases h
      exact Or.inl (List.mem_append_left _ hdoomed)
  | removeSession id' =>
      cases h
      exact Or.inl (List.mem_append_left _ hdoomed)
  | _ =>
      cases h
      exact Or.inl hdoomed

/-- A dispatched `Close` stays dispatched until it runs. -/
theorem closes_kept (hw : w.TableOk) (h : Step sodium executor w e t)
    {ref : Nat} (href : ref ∈ w.closes) : ref ∈ t.closes ∨ e = .close ref := by
  cases e with
  | create k keys id =>
      obtain ⟨-, -, ⟨-, rfl⟩ | ⟨-, -, rfl⟩ | ⟨ref', -, -, rfl⟩⟩ :=
        create_step hw h
      all_goals exact Or.inl href
  | remove k =>
      obtain ⟨id, poster, -, -, ⟨-, rfl⟩ | ⟨ref', -, rfl⟩⟩ := remove_step hw h
      · exact Or.inl href
      · cases executor with
        | worker => exact Or.inl href
        | other => exact Or.inl (List.mem_append_left _ href)
  | heartbeat ec order =>
      cases h
      cases ec <;> exact Or.inl href
  | run =>
      cases h
      unfold Worker.run
      split <;> exact Or.inl href
  | stop =>
      cases h with
      | stop hidle hstop =>
          rcases hw.stop_cases hstop with ⟨-, rfl⟩ | ⟨refs, -, -, rfl⟩
          · exact Or.inl href
          · exact Or.inl (List.mem_append_left _ href)
  | close ref' =>
      cases h
      by_cases heq : ref = ref'
      · exact Or.inr (congrArg WorkerEvent.close heq.symm)
      · exact Or.inl ((List.mem_erase_of_ne heq).mpr href)
  | _ =>
      cases h
      exact Or.inl href

-- ========================================================= leaving the table

/-- A closed session stays closed. -/
theorem Fate.isOpen {ref : Nat} {p q : Peer}
    (h : Fate sodium executor w e ref p q) (hp : p.session.isOpen = false) :
    q.session.isOpen = false := by
  cases h with
  | same => exact hp
  | closed hcloses => exact p.session.close_isOpen
  | step he hne hpeer hnow hlive => exact (hpeer.isOpen hne).trans hp

/-- A retired session stays out of the table. -/
theorem Retired.step {ref : Nat} (href : w.Retired ref) (hw : w.TableOk)
    (h : Step sodium executor w e t) : t.Retired ref := by
  obtain ⟨hgone, s, hs, hclosing⟩ := href
  have hlt := (List.getElem?_eq_some_iff.mp hs).1
  obtain ⟨s', hs', -, hfate⟩ := session_cases hw h hs
  constructor
  · intro id hid
    rcases lookup_cases hw h hid with hold | ⟨k, keys, -, -, -, hptr, -⟩
    · exact hgone id hold
    · cases hptr
      omega
  · rcases hclosing with hclosed | hmem
    · exact ⟨s', hs', Or.inl (hfate.isOpen hclosed)⟩
    · rcases closes_kept hw h hmem with hkept | rfl
      · exact ⟨s', hs', Or.inr hkept⟩
      · cases h
        refine ⟨s.close, ?_, Or.inl s.peer.session.close_isOpen⟩
        show (w.sessions.modify ref SessionObject.close)[ref]? = _
        rw [List.getElem?_modify_eq, hs]
        rfl

/-- A session leaves the table retired. -/
theorem retired_of_removed (hw : w.TableOk) (h : Step sodium executor w e t)
    {id : UInt64} {ref : Nat}
    (hid : w.sessionList.lookup id = some (some ref))
    (hgone : t.sessionList.lookup id ≠ some (some ref)) : t.Retired ref := by
  rcases table_cases hw h with
    htable | ⟨k, keys, id', -, hfree, -, htable, -⟩
      | ⟨k, id', poster, ref', rfl, hk, hid', htable⟩
  · rw [htable] at hgone
    exact absurd hid hgone
  · have hne : id ≠ id' := by
      rintro rfl
      exact hfree (FlatHashMap.mem_of_lookup hid)
    rw [htable, AList.lookup_insert_ne hne] at hgone
    exact absurd hid hgone
  · have heq : id = id' := by
      by_contra hne
      rw [htable, AList.lookup_erase_ne hne] at hgone
      exact hgone hid
    subst heq
    rw [hid] at hid'
    cases hid'
    obtain ⟨ref'', s, hptr, hs, -⟩ := hw.keyed id _ hid
    cases hptr
    constructor
    · intro id' hid'
      rcases lookup_cases hw h hid' with hold | ⟨k', keys, he, -⟩
      · rw [hw.key_eq hold hid] at hid'
        exact hgone hid'
      · cases he
    · obtain ⟨id', poster', -, hk', hcases⟩ := remove_step hw h
      rw [hk] at hk'
      cases hk'
      rcases hcases with ⟨hfree, -⟩ | ⟨ref', hid', rfl⟩
      · exact absurd (FlatHashMap.mem_of_lookup hid) hfree
      · rw [hid] at hid'
        cases hid'
        cases executor with
        | worker =>
            refine ⟨s.close, ?_, Or.inl s.peer.session.close_isOpen⟩
            show (w.sessions.modify ref SessionObject.close)[ref]? = _
            rw [List.getElem?_modify_eq, hs]
            rfl
        | other =>
            exact ⟨s, hs, Or.inr (List.mem_append_right _
              (List.mem_singleton_self ref))⟩

-- ============================================================= the heartbeat

/-- The session is in the table and doomed, or retired. -/
def Leaving (w : Worker) (id : UInt64) (ref : Nat) : Prop :=
  w.Retired ref
    ∨ w.sessionList.lookup id = some (some ref) ∧ w.Doomed id

theorem Leaving.step {id : UInt64} {ref : Nat} (hw : w.TableOk)
    (hleaving : w.Leaving id ref) (h : Step sodium executor w e t) :
    t.Leaving id ref := by
  rcases hleaving with hretired | ⟨hid, hdoomed⟩
  · exact Or.inl (hretired.step hw h)
  · by_cases hkept : t.sessionList.lookup id = some (some ref)
    · rcases doomed_kept hw h hdoomed with hstill | ⟨k, rfl, hk⟩
      · exact Or.inr ⟨hkept, hstill⟩
      · obtain ⟨id', poster, -, hk', hcases⟩ := remove_step hw h
        rw [hk] at hk'
        cases hk'
        rcases hcases with ⟨hfree, -⟩ | ⟨ref', -, rfl⟩
        · exact absurd (FlatHashMap.mem_of_lookup hid) hfree
        · change (w.sessionList.erase id).lookup id = _ at hkept
          rw [AList.lookup_erase] at hkept
          cases hkept
    · exact Or.inl (retired_of_removed hw h hid hkept)

/-- A run of the timer's handler dooms every session that is idle. -/
theorem leaving_of_idle (hw : w.TableOk) {order : List UInt64}
    (h : Step sodium executor w (.heartbeat false order) t) {id : UInt64}
    {ref : Nat} (hidle : w.IdleAt id ref) : t.Leaving id ref := by
  obtain ⟨hid, s, hs, hage⟩ := hidle
  cases h with
  | heartbeat hlive htimer hstale =>
      obtain ⟨vec, hvec, horder⟩ := hstale rfl
      obtain ⟨ids, hids, hmem⟩ := hw.stale
      rw [hids] at hvec
      cases hvec
      obtain ⟨ref', s', hptr, hs', hkey⟩ := hw.keyed id _ hid
      cases hptr
      rw [hs] at hs'
      cases hs'
      have hstaleId : id ∈ order :=
        horder.mem_iff.mpr ((hmem id).mpr ⟨ref, s, hid, hs, hkey, hage⟩)
      exact Or.inr ⟨hid, List.mem_append_right _ (List.mem_map_of_mem hstaleId)⟩

/-- While the worker executes, it can run all removals that are posted. -/
theorem run_removals (sodium : Sodium) (executor : SocketExecutor)
    (hw : w.TableOk) (hlive : w.Executes) :
    ∃ es t, Run (Step sodium executor) w es t ∧ ∀ id, ¬t.Doomed id := by
  induction hn : w.queue.length using Nat.strong_induction_on generalizing w
  rename_i n ih
  by_cases hnone : ∀ id, ¬w.Doomed id
  · exact ⟨[], w, .nil w, hnone⟩
  · obtain ⟨id, hdoomed⟩ := Classical.not_forall_not.mp hnone
    obtain ⟨k, hk⟩ := List.mem_iff_getElem?.mp hdoomed
    have hlt := (List.getElem?_eq_some_iff.mp hk).1
    obtain ⟨u, hu, -⟩ := TableOk.removeSession (w := w.dequeue k)
      ⟨hw.size, hw.keyed⟩ executor id
    have hstep : Step sodium executor w (.remove k) u := .remove hlive hk hu
    have hqueue : u.queue = w.queue.eraseIdx k ∧ u.Executes := by
      obtain ⟨id', poster, -, -, ⟨-, rfl⟩ | ⟨ref, -, rfl⟩⟩ :=
        remove_step hw hstep
      · exact ⟨rfl, hlive⟩
      · cases executor <;> exact ⟨rfl, hlive⟩
    have hless : u.queue.length < n := by
      rw [hqueue.1, List.length_eraseIdx_of_lt hlt, ← hn]
      omega
    obtain ⟨es, t, hrun, ht⟩ := ih _ hless (hw.step hstep) hqueue.2 rfl
    exact ⟨_, t, .cons hstep hrun, ht⟩

/-- Whatever runs after the handler of a heartbeat timer: a session that was
idle then, and for whose id no heartbeat's removal is pending any more, has
left the table and stays out of it whatever runs after that, and its `Close`
has run or been dispatched; and the removals can all run. -/
theorem idle_removed {executor : SocketExecutor} {clock : Int64}
    {es : List WorkerEvent} {w w' : Worker} {order : List UInt64}
    (h : Run (Step sodium executor) (start clock) es w)
    (hbeat : Step sodium executor w (.heartbeat false order) w') :
    (∀ (es' : List WorkerEvent) (t : Worker),
        Run (Step sodium executor) w' es' t →
        ∀ id ref, w.IdleAt id ref → ¬t.Doomed id →
          ∀ (es'' : List WorkerEvent) (u : Worker),
            Run (Step sodium executor) t es'' u → u.Retired ref)
      ∧ ∃ es' t, Run (Step sodium executor) w' es' t ∧ ∀ id, ¬t.Doomed id := by
  have hw := run_tableOk h
  have hw' := hw.step hbeat
  constructor
  · intro es' t hrun id ref hidle hdone es'' u hlater
    have hleaving : t.TableOk ∧ t.Leaving id ref := by
      refine hrun.invariant (I := fun u : Worker => u.TableOk ∧ u.Leaving id ref)
        ?_ ⟨hw', leaving_of_idle hw hbeat hidle⟩
      rintro u e v ⟨hu, hleaving⟩ hstep
      exact ⟨hu.step hstep, hleaving.step hu hstep⟩
    have hretired : t.Retired ref := by
      rcases hleaving.2 with hretired | ⟨-, hdoomed⟩
      · exact hretired
      · exact absurd hdoomed hdone
    have hkept : u.TableOk ∧ u.Retired ref := by
      refine hlater.invariant (I := fun u : Worker => u.TableOk ∧ u.Retired ref)
        ?_ ⟨hleaving.1, hretired⟩
      rintro u e v ⟨hu, hretired⟩ hstep
      exact ⟨hu.step hstep, hretired.step hu hstep⟩
    exact hkept.2
  · have hlive : w'.Executes := by
      cases hbeat with
      | heartbeat hlive htimer hstale => exact hlive
    exact run_removals sodium executor hw' hlive

/-- A session that has been idle for 31 seconds. -/
theorem idle_removed_one :
    ∃ w w' t : Worker, w.IdleAt 7 0
      ∧ Step ⟨id, fun _ _ => none, id⟩ .other w (.heartbeat false [7]) w'
      ∧ (∃ es, Run (Step ⟨id, fun _ _ => none, id⟩ .other) w' es t)
      ∧ ∀ es u, Run (Step ⟨id, fun _ _ => none, id⟩ .other) t es u →
        u.Retired 0 := by
  let sodium : Sodium := ⟨id, fun _ _ => none, id⟩
  let keys : KeysWrapper := ⟨Key.zero, Key.zero⟩
  let w : Worker := { oneSession 0 keys 7 with clock := 31 }
  have hstale : w.stale = .ok [7] := rfl
  have hrun := (run_oneSession sodium .other 0 keys 7).snoc
    (.tick (by decide) : Step sodium .other _ (.tick 31) w)
  have hbeat : Step sodium .other w (.heartbeat false [7])
      (w.heartbeatHandler false [7]) :=
    .heartbeat ⟨rfl, rfl⟩ (by decide) fun _ => ⟨[7], hstale, .refl _⟩
  have hidle : w.IdleAt 7 0 := ⟨rfl, _, rfl, by decide⟩
  obtain ⟨hremoved, es, t, hclear, hdone⟩ := idle_removed hrun hbeat
  exact ⟨w, _, t, hidle, hbeat, ⟨es, hclear⟩,
    hremoved es t hclear 7 0 hidle (hdone 7)⟩

end Worker

end Remc.Net
