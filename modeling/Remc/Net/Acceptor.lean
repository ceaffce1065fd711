/-
The acceptor of a server and its workers (server.h, server.cpp).

`PeekWorker` takes a worker with the fewest sessions, at that moment; the
session is made later, on the worker's own thread, so the connections on
their way to a worker do not count. With more than one worker it never
returns null either. So a connection may be dropped for lack of space while
another worker has room; that it is not takes a worker with space for all
that is on its way (`acceptor_iff`).
-/
import Remc.Net.SessionTable

namespace Remc.Net

open Crypto Runs

variable {sodium : Sodium}

/-- A server, as far as its acceptor and its workers go. -/
structure Server where
  /-- `worker_list_` -/
  workers : List Worker

/-- What can happen to a running server. -/
inductive ServerEvent where
  /-- The handler of `async_accept` runs. -/
  | accept (ec : Bool)
  /-- Something happens at a worker. -/
  | worker (i : Nat) (e : WorkerEvent)

namespace Server

/-- The loop of `PeekWorker`: `ptr` and `it` are iterators, here with what
they point to. -/
def peekLoop (ptr : Nat × Worker) : Nat → List Worker → Nat × Worker
  | _, [] => ptr
  | it, w :: ws =>
      -- determine based on smallest number of clients
      peekLoop (if w.getClientCount < ptr.2.getClientCount then (it, w) else ptr)
        (it + 1) ws

/-- `PeekWorker`, with `MAX_WORKERS_NUMBER` the number of workers. -/
def peekWorker : List Worker → Option Nat
  | [] => none
  | [w] =>
      -- is enough space?
      if workerMaxClientCount ≤ w.getClientCount then none else some 0
  | w :: ws => some (peekLoop (0, w) 1 ws).1

/-- The handler of `async_accept`. -/
def accept (S : Server) (ec : Bool) : Server :=
  if ec then S
  else
    match peekWorker S.workers with
    | some i => { S with workers := S.workers.modify i Worker.createSession }
    | none => S

/-- What a worker of a running server does by itself. -/
def OwnEvent : WorkerEvent → Prop
  | .run => False
  | .stop => False
  | .join => False
  | .createSession => False
  | _ => True

/-- One step. -/
inductive Step (sodium : Sodium) (executor : SocketExecutor) :
    Server → ServerEvent → Server → Prop
  | accept {S : Server} {ec : Bool} :
      Step sodium executor S (.accept ec) (S.accept ec)
  | worker {S : Server} {i : Nat} {w t : Worker} {e : WorkerEvent}
      (hi : S.workers[i]? = some w) (hown : OwnEvent e)
      (hstep : Worker.Step sodium executor w e t) :
      Step sodium executor S (.worker i e) { S with workers := S.workers.set i t }

/-- A server whose `n` workers have been run. -/
def start (n : Nat) (clock : Int64) : Server where
  workers := List.replicate n (Worker.start clock).run

/-- The sessions of each worker. -/
def counts (S : Server) : List Nat := S.workers.map Worker.getClientCount

/-- What concerns a new connection. -/
inductive Decision where
  /-- What `PeekWorker` returned with these client counts. -/
  | picked (counts : List Nat) (worker : Option Nat)
  /-- A `CreateSession` handler found no space with these client counts. -/
  | dropped (counts : List Nat)

/-- Every worker is full. -/
def Full (counts : List Nat) : Prop := ∀ c ∈ counts, c = workerMaxClientCount

/-- A worker is picked that has the fewest clients, and none only if every
worker is full; a connection is dropped only if every worker is full. -/
def Decision.Right : Decision → Prop
  | .picked counts worker =>
      (∀ i, worker = some i →
        ∃ c, counts[i]? = some c ∧ ∀ c' ∈ counts, c ≤ c')
        ∧ (worker = none ↔ Full counts)
  | .dropped counts => Full counts

/-- The decisions of a step. -/
def decisions (S : Server) : ServerEvent → List Decision
  | .accept false => [.picked S.counts (peekWorker S.workers)]
  | .worker i (.create _ _ _) =>
      match S.workers[i]? with
      | some w =>
          if workerMaxClientCount < w.sessionList.size + 1 then
            [.dropped S.counts]
          else []
      | none => []
  | _ => []

end Server

/-- The `CreateSession` handlers that have not run. -/
def Worker.pending (w : Worker) : Nat := w.queue.count .createSession

namespace Server

/-- The worker at `i` has the fewest clients, and those before it have
more. -/
structure FirstLeast (ws : List Worker) (i : Nat) (w : Worker) : Prop where
  here : ws[i]? = some w
  least : ∀ v ∈ ws, w.getClientCount ≤ v.getClientCount
  first : ∀ (j : Nat) (v : Worker), ws[j]? = some v → j < i →
    w.getClientCount < v.getClientCount

/-- The first of the workers with the fewest clients has space for all that
is on its way to it, and one more. -/
def LeastRoomy (S : Server) : ServerEvent → Prop
  | .accept false => ∀ i w, FirstLeast S.workers i w →
      w.sessionList.size + w.pending < workerMaxClientCount
  | _ => True

/-- No further connection. -/
def NoAccept (_ : Server) : ServerEvent → Prop
  | .accept _ => False
  | _ => True

-- ============================================================ PeekWorker

theorem FirstLeast.unique {ws : List Worker} {i j : Nat} {w v : Worker}
    (h : FirstLeast ws i w) (h' : FirstLeast ws j v) : i = j ∧ w = v := by
  have hle := h.least v (List.mem_of_getElem? h'.here)
  have hle' := h'.least w (List.mem_of_getElem? h.here)
  rcases Nat.lt_trichotomy i j with hlt | rfl | hgt
  · have hfirst := h'.first i w h.here hlt
    omega
  · exact ⟨rfl, Option.some.inj (h.here.symm.trans h'.here)⟩
  · have hfirst := h.first j v h'.here hgt
    omega

/-- One more worker takes over only if it has fewer clients. -/
theorem FirstLeast.snoc {ws : List Worker} {ptr : Nat × Worker}
    (h : FirstLeast ws ptr.1 ptr.2) (v : Worker) :
    let next := if v.getClientCount < ptr.2.getClientCount then (ws.length, v)
      else ptr
    FirstLeast (ws ++ [v]) next.1 next.2 := by
  have hlen := (List.getElem?_eq_some_iff.mp h.here).1
  by_cases hlt : v.getClientCount < ptr.2.getClientCount
  · rw [if_pos hlt]
    refine ⟨List.getElem?_concat_length, fun u hu => ?_, fun j u hj hjlt => ?_⟩
    · rcases List.mem_append.mp hu with hold | hnew
      · exact hlt.le.trans (h.least u hold)
      · rw [List.mem_singleton.mp hnew]
    · rw [List.getElem?_append_left hjlt] at hj
      exact hlt.trans_le (h.least u (List.mem_of_getElem? hj))
  · rw [if_neg hlt]
    refine ⟨?_, fun u hu => ?_, fun j u hj hjlt => ?_⟩
    · rw [List.getElem?_append_left hlen]
      exact h.here
    · rcases List.mem_append.mp hu with hold | hnew
      · exact h.least u hold
      · rw [List.mem_singleton.mp hnew]
        exact Nat.le_of_not_lt hlt
    · rw [List.getElem?_append_left (hjlt.trans hlen)] at hj
      exact h.first j u hj hjlt

/-- The loop's invariant: `ptr` is the first of the workers with the fewest
clients among those before `it`. -/
theorem peekLoop_spec {seen : List Worker} {ptr : Nat × Worker}
    (h : FirstLeast seen ptr.1 ptr.2) (ws : List Worker) :
    FirstLeast (seen ++ ws) (peekLoop ptr seen.length ws).1
      (peekLoop ptr seen.length ws).2 := by
  induction ws generalizing seen ptr with
  | nil =>
      rw [List.append_nil]
      exact h
  | cons w ws ih =>
      have hrest := ih (h.snoc w)
      rw [List.append_assoc, List.length_append] at hrest
      exact hrest

/-- With two workers or more, the first with the fewest clients is picked. -/
theorem peekWorker_spec {ws : List Worker} (h : 2 ≤ ws.length) :
    ∃ i w, peekWorker ws = some i ∧ FirstLeast ws i w := by
  match ws, h with
  | w₀ :: w₁ :: rest, _ =>
      have hone : FirstLeast [w₀] 0 w₀ := by
        refine ⟨rfl, fun v hv => ?_, fun j v _ hj => absurd hj (Nat.not_lt_zero j)⟩
        rw [List.mem_singleton.mp hv]
      have hloop := @peekLoop_spec _ (0, w₀) hone (w₁ :: rest)
      exact ⟨_, _, rfl, hloop⟩

-- ============================================================ the invariant

end Server

namespace Worker

variable {executor : SocketExecutor} {w t : Worker} {e : WorkerEvent}

/-- A running worker with space for all that is on its way to it. -/
structure Roomy (w : Worker) : Prop where
  table : w.TableOk
  executes : w.Executes
  space : w.sessionList.size + w.pending ≤ workerMaxClientCount

@[simp] theorem createSession_pending (w : Worker) :
    w.createSession.pending = w.pending + 1 := by
  simp [createSession, pending]

/-- A `CreateSession` handler that has run is no longer pending. -/
theorem dequeue_pending {k : Nat} {x : Handler} (hk : w.queue[k]? = some x) :
    (w.dequeue k).pending + (if x = .createSession then 1 else 0) = w.pending := by
  obtain ⟨hlt, rfl⟩ := List.getElem?_eq_some_iff.mp hk
  have hperm := List.getElem_cons_eraseIdx_perm hlt
  show (w.queue.eraseIdx k).count _ + _ = w.queue.count _
  rw [← hperm.count_eq, List.count_cons]
  simp

/-- The handler of `CreateSession` takes its connection away. -/
theorem create_pending {k : Nat} {keys : KeysWrapper} {id : UInt64}
    (hw : w.TableOk) (h : Step sodium executor w (.create k keys id) t) :
    t.pending + 1 = w.pending := by
  obtain ⟨-, hk, hcases⟩ := create_step hw h
  have hpending := dequeue_pending hk
  rcases hcases with ⟨-, rfl⟩ | ⟨-, -, rfl⟩ | ⟨ref, -, -, rfl⟩
  all_goals exact hpending

/-- Only `CreateSession` adds a connection. -/
theorem pending_le (hw : w.TableOk) (h : Step sodium executor w e t)
    (he : e ≠ .createSession) : t.pending ≤ w.pending := by
  cases e with
  | create k keys id =>
      have hpending := create_pending hw h
      omega
  | remove k =>
      obtain ⟨id, poster, -, hk, hcases⟩ := remove_step hw h
      have hpending := (dequeue_pending hk).le
      rcases hcases with ⟨-, rfl⟩ | ⟨ref, -, rfl⟩
      · exact hpending
      · cases executor <;> exact hpending
  | heartbeat ec order =>
      cases h
      cases ec with
      | true => exact le_rfl
      | false =>
          have hnone : Handler.createSession
              ∉ order.map fun id => Handler.removeSession id .heartbeat := by
            simp
          show (w.queue ++ _).count _ ≤ _
          rw [List.count_append, List.count_eq_zero.mpr hnone]
          exact le_rfl
  | run =>
      cases h
      unfold Worker.run
      split <;> exact le_rfl
  | stop =>
      cases h with
      | stop hidle hstop =>
          rcases hw.stop_cases hstop with ⟨-, rfl⟩ | ⟨refs, -, -, rfl⟩
          all_goals exact le_rfl
  | createSession => exact absurd rfl he
  | removeSession id =>
      cases h
      simp [Worker.removeSession, pending]
  | _ =>
      cases h
      exact le_rfl

/-- A worker keeps its space as long as no connection comes. -/
theorem Roomy.step (hw : w.Roomy) (h : Step sodium executor w e t)
    (hown : Server.OwnEvent e) : t.Roomy := by
  have hspace := hw.space
  refine ⟨hw.table.step h, ?_, ?_⟩
  · rcases flags_cases hw.table h with
      (rfl | rfl | rfl) | ⟨-, hstopped, hrunning, -⟩
    · exact hown.elim
    · exact hown.elim
    · exact hown.elim
    · exact ⟨hrunning.trans hw.executes.1, hstopped.trans hw.executes.2⟩
  · have hpending : t.pending ≤ w.pending := by
      refine pending_le hw.table h fun he => ?_
      subst he
      exact hown
    rcases table_cases hw.table h with
      htable | ⟨k, keys, id, rfl, hfree, -, htable, -⟩
        | ⟨k, id, poster, ref, -, -, -, htable⟩
    · rw [htable]
      omega
    · have hcreated := create_pending hw.table h
      rw [htable, FlatHashMap.size_insert hfree]
      omega
    · have hle := FlatHashMap.size_erase_le (m := w.sessionList) (k := id)
      rw [htable]
      omega

/-- It keeps it when one more comes for which there is space. -/
theorem Roomy.createSession (hw : w.Roomy)
    (hspace : w.sessionList.size + w.pending < workerMaxClientCount) :
    w.createSession.Roomy where
  table := ⟨hw.table.size, hw.table.keyed⟩
  executes := hw.executes
  space := by
    rw [createSession_pending]
    exact hspace

/-- Its `CreateSession` handlers find space. -/
theorem Roomy.lt_of_create (hw : w.Roomy) {k : Nat}
    (hk : w.queue[k]? = some .createSession) :
    w.sessionList.size < workerMaxClientCount := by
  have hpos : 0 < w.pending := List.count_pos_iff.mpr (List.mem_of_getElem? hk)
  have hspace := hw.space
  omega

theorem start_roomy (clock : Int64) : (start clock).run.Roomy where
  table := ⟨Nat.zero_le _, fun id ptr h => by cases h⟩
  executes := ⟨rfl, rfl⟩
  space := Nat.zero_le _

end Worker

namespace Server

variable {executor : SocketExecutor}

/-- What holds as long as the workers that are picked have space. -/
structure Spacious (S : Server) (log : List Decision) : Prop where
  many : 2 ≤ S.workers.length
  roomy : ∀ (i : Nat) (w : Worker), S.workers[i]? = some w → w.Roomy
  right : ∀ d ∈ log, d.Right

theorem start_spacious {n : Nat} (hn : 2 ≤ n) (clock : Int64) :
    (start n clock).Spacious [] where
  many := by simpa [start] using hn
  roomy i w hi := by
    have hmem := List.mem_of_getElem? hi
    rw [List.eq_of_mem_replicate hmem]
    exact Worker.start_roomy clock
  right d hd := by cases hd

/-- It has the least of the client counts. -/
theorem FirstLeast.counts {S : Server} {i : Nat} {w : Worker}
    (h : FirstLeast S.workers i w) :
    S.counts[i]? = some w.getClientCount
      ∧ ∀ c ∈ S.counts, w.getClientCount ≤ c := by
  refine ⟨by simp [Server.counts, h.here], fun c hc => ?_⟩
  obtain ⟨v, hv, rfl⟩ := List.mem_map.mp hc
  exact h.least v hv

/-- There is another worker. -/
theorem Spacious.another {S : Server} {log : List Decision}
    (hS : S.Spacious log) (i : Nat) :
    ∃ j v, i ≠ j ∧ S.workers[j]? = some v := by
  have hmany := hS.many
  by_cases hi : i = 0
  · exact ⟨1, _, by omega, List.getElem?_eq_getElem (by omega)⟩
  · exact ⟨0, _, hi, List.getElem?_eq_getElem (by omega)⟩

/-- A connection for which there is space. -/
theorem Spacious.accept {S : Server} {log : List Decision}
    (hS : S.Spacious log) (hroomy : S.LeastRoomy (.accept false)) :
    (S.accept false).Spacious
      (log ++ [.picked S.counts (peekWorker S.workers)]) := by
  obtain ⟨i, w, hpeek, hleast⟩ := peekWorker_spec hS.many
  have hi := hleast.here
  obtain ⟨hcount, hmin⟩ := hleast.counts
  have hspace := hroomy i w hleast
  have haccept : S.accept false
      = { S with workers := S.workers.modify i Worker.createSession } := by
    simp [Server.accept, hpeek]
  rw [haccept, hpeek]
  constructor
  · simpa using hS.many
  · intro j v hj
    by_cases hij : i = j
    · subst hij
      rw [List.getElem?_modify_eq, hi] at hj
      cases hj
      exact (hS.roomy i w hi).createSession hspace
    · rw [List.getElem?_modify_ne _ _ hij] at hj
      exact hS.roomy j v hj
  · intro d hd
    rcases List.mem_append.mp hd with hold | hnew
    · exact hS.right d hold
    · rw [List.mem_singleton.mp hnew]
      refine ⟨fun j hj => ?_, fun hnone => (by cases hnone), fun hfull => ?_⟩
      · cases hj
        exact ⟨_, hcount, hmin⟩
      · have hmax := hfull _ (List.mem_of_getElem? hcount)
        unfold Worker.getClientCount at hmax
        omega

/-- A worker goes on by itself. -/
theorem Spacious.worker {S : Server} {log : List Decision}
    (hS : S.Spacious log) {i : Nat} {w t : Worker} {e : WorkerEvent}
    (hi : S.workers[i]? = some w) (hown : OwnEvent e)
    (h : Worker.Step sodium executor w e t) :
    Spacious { S with workers := S.workers.set i t }
      (log ++ S.decisions (.worker i e)) := by
  have hw := hS.roomy i w hi
  have hnone : S.decisions (.worker i e) = [] := by
    cases e with
    | create k keys id =>
        obtain ⟨-, hk, -⟩ := Worker.create_step hw.table h
        have hlt := hw.lt_of_create hk
        simp only [decisions, hi]
        rw [if_neg (by omega)]
    | _ => rfl
  rw [hnone, List.append_nil]
  refine ⟨by simpa using hS.many, fun j v hj => ?_, hS.right⟩
  by_cases hij : i = j
  · subst hij
    rw [List.getElem?_set_self (List.getElem?_eq_some_iff.mp hi).1] at hj
    cases hj
    exact hw.step h hown
  · rw [List.getElem?_set_ne hij] at hj
    exact hS.roomy j v hj

/-- Every step of a server that picks workers with space. -/
theorem Spacious.step {S T : Server} {log : List Decision} {e : ServerEvent}
    (hS : S.Spacious log) (h : Step sodium executor S e T)
    (hroomy : S.LeastRoomy e) : T.Spacious (log ++ S.decisions e) := by
  cases h with
  | @accept ec =>
      cases ec with
      | true =>
          show S.Spacious (log ++ [])
          rw [List.append_nil]
          exact hS
      | false => exact hS.accept hroomy
  | worker hi hown hstep => exact hS.worker hi hown hstep

-- ======================================================== a drop too early

end Server

namespace Worker

variable {executor : SocketExecutor} {w : Worker}

/-- A step of the worker's own. -/
abbrev OwnStep (sodium : Sodium) (executor : SocketExecutor) :=
  When (Step sodium executor) fun _ e => Server.OwnEvent e

/-- There is always an id that is not in use. -/
theorem exists_free (hw : w.TableOk) : ∃ id : UInt64, id ∉ w.sessionList := by
  have hnodup : ((List.range 4097).map UInt64.ofNat).Nodup := by
    refine List.Nodup.map_on (fun a ha b hb hab => ?_) List.nodup_range
    have ha' := List.mem_range.mp ha
    have hb' := List.mem_range.mp hb
    have heq := congrArg UInt64.toNat hab
    rw [UInt64.toNat_ofNat', UInt64.toNat_ofNat'] at heq
    omega
  have hsize := hw.size
  unfold workerMaxClientCount at hsize
  obtain ⟨id, -, hid⟩ := FlatHashMap.exists_free (m := w.sessionList) hnodup (by
    rw [List.length_map, List.length_range]
    omega)
  exact ⟨id, hid⟩

/-- A pending connection can become a session while there is space. -/
theorem create_enabled (sodium : Sodium) (executor : SocketExecutor)
    (hw : w.TableOk) (hlive : w.Executes) (hpending : 0 < w.pending)
    (hlt : w.sessionList.size < workerMaxClientCount) :
    ∃ e t, OwnStep sodium executor w e t ∧ t.TableOk ∧ t.Executes
      ∧ t.sessionList.size = w.sessionList.size + 1
      ∧ t.pending + 1 = w.pending := by
  obtain ⟨k, hk⟩ := List.mem_iff_getElem?.mp (List.count_pos_iff.mp hpending)
  obtain ⟨id, hfree⟩ := exists_free hw
  let keys : KeysWrapper := ⟨Key.zero, Key.zero⟩
  have hstep : Step sodium executor w (.create k keys id)
      ((w.dequeue k).created keys id) :=
    .create hlive hk (createSessionHandler_free (w := w.dequeue k) hlt hfree keys)
  exact ⟨_, _, ⟨hstep, trivial⟩, hw.step hstep, hlive,
    FlatHashMap.size_insert hfree, create_pending hw hstep⟩

/-- With more connections pending than there is space for, the table fills
up and one is left. -/
theorem fill (sodium : Sodium) (executor : SocketExecutor) {m : Nat}
    (hw : w.TableOk) (hlive : w.Executes) (hpending : m < w.pending)
    (hm : w.sessionList.size + m = workerMaxClientCount) :
    ∃ es t, Run (OwnStep sodium executor) w es t ∧ t.TableOk ∧ t.Executes
      ∧ 0 < t.pending ∧ t.sessionList.size = workerMaxClientCount := by
  induction m generalizing w with
  | zero => exact ⟨[], w, .nil w, hw, hlive, hpending, hm⟩
  | succ m ih =>
      obtain ⟨e, t, hstep, ht, hlive', hsize, hpending'⟩ :=
        create_enabled sodium executor hw hlive (by omega) (by omega)
      obtain ⟨es, u, hrun, hu⟩ := ih ht hlive' (by omega) (by omega)
      exact ⟨e :: es, u, .cons hstep hrun, hu⟩

/-- A worker can lose a session, so it need not stay full. -/
theorem make_space (sodium : Sodium) (executor : SocketExecutor)
    (hw : w.Roomy) :
    ∃ es t, Run (OwnStep sodium executor) w es t
      ∧ t.sessionList.size < workerMaxClientCount := by
  rcases Nat.lt_or_eq_of_le hw.table.size with hlt | hfull
  · exact ⟨[], w, .nil w, hlt⟩
  · obtain ⟨id, ptr, hid⟩ := FlatHashMap.exists_lookup_of_size
      (m := w.sessionList) (by rw [hfull]; decide)
    obtain ⟨ref, s, rfl, -, -⟩ := hw.table.keyed id ptr hid
    have hpost : OwnStep sodium executor w (.removeSession id)
        (w.removeSession id .other) := ⟨.removeSession, trivial⟩
    have hk : (w.removeSession id .other).queue[w.queue.length]?
        = some (.removeSession id .other) := List.getElem?_concat_length
    have hremove : OwnStep sodium executor (w.removeSession id .other)
        (.remove w.queue.length) _ :=
      ⟨.remove hw.executes hk (removeSessionHandler_taken
        (w := (w.removeSession id .other).dequeue w.queue.length) hid executor),
        trivial⟩
    refine ⟨_, _, .cons hpost (.cons hremove (.nil _)), ?_⟩
    have herase := FlatHashMap.size_erase (FlatHashMap.mem_of_lookup hid)
    show FlatHashMap.size (w.sessionList.erase id) < _
    omega

end Worker

namespace Server

/-- What a worker does by itself the server does. -/
theorem run_worker {S : Server} {i : Nat} {w t : Worker}
    {es : List WorkerEvent} (hi : S.workers[i]? = some w)
    (h : Run (Worker.OwnStep sodium executor) w es t) :
    Run (When (Step sodium executor) NoAccept) S (es.map (.worker i))
      { S with workers := S.workers.set i t } := by
  induction h generalizing S with
  | nil w =>
      have hself : S.workers.set i w = S.workers := by
        obtain ⟨hlt, rfl⟩ := List.getElem?_eq_some_iff.mp hi
        exact List.set_getElem_self hlt
      rw [hself]
      exact .nil S
  | @cons w u t e es hstep _ ih =>
      have hlt := (List.getElem?_eq_some_iff.mp hi).1
      have hrest := ih (S := { S with workers := S.workers.set i u })
        (List.getElem?_set_self hlt)
      rw [List.set_set] at hrest
      exact .cons ⟨.worker hi hstep.2 hstep.1, trivial⟩ hrest

/-- `LeastRoomy` and `NoAccept`, of a server with its log. -/
def HasRoom (s : Server × List Decision) (e : ServerEvent) : Prop :=
  s.1.LeastRoomy e

def Quiet (s : Server × List Decision) (e : ServerEvent) : Prop :=
  s.1.NoAccept e

/-- Every decision so far was right. -/
def AllRight (s : Server × List Decision) : Prop := ∀ d ∈ s.2, d.Right

/-- A worker with more connections on their way than it has space for may
drop one while another worker has space. -/
theorem dropped_early (sodium : Sodium) (executor : SocketExecutor)
    {S : Server} {i j : Nat} {w v : Worker} (hij : i ≠ j)
    (hi : S.workers[i]? = some w) (hj : S.workers[j]? = some v)
    (hw : w.TableOk) (hlive : w.Executes) (hv : v.Roomy)
    (hover : workerMaxClientCount < w.sessionList.size + w.pending)
    (log : List Decision) :
    ∃ es s counts, Run (When (Logged (Step sodium executor) decisions) Quiet)
        (S, log) es s
      ∧ .dropped counts ∈ s.2 ∧ ¬Full counts := by
  obtain ⟨m, hm⟩ := Nat.exists_eq_add_of_le hw.size
  obtain ⟨fs, w', hfill, hw', hlive', hpending, hfull⟩ := Worker.fill sodium
    executor (m := m) hw hlive (by omega) hm.symm
  obtain ⟨gs, v', hspace, hlt⟩ := Worker.make_space sodium executor hv
  have hrun₁ := run_worker hi hfill
  have hj₁ : (S.workers.set i w')[j]? = some v := by
    rw [List.getElem?_set_ne hij, hj]
  have hrun₂ := run_worker (S := { S with workers := S.workers.set i w' }) hj₁
    hspace
  let T : Server := { S with workers := (S.workers.set i w').set j v' }
  have hi₂ : T.workers[i]? = some w' := by
    show ((S.workers.set i w').set j v')[i]? = _
    rw [List.getElem?_set_ne hij.symm,
      List.getElem?_set_self (List.getElem?_eq_some_iff.mp hi).1]
  have hj₂ : T.workers[j]? = some v' :=
    List.getElem?_set_self (List.getElem?_eq_some_iff.mp hj₁).1
  obtain ⟨k, hk⟩ := List.mem_iff_getElem?.mp (List.count_pos_iff.mp hpending)
  let keys : KeysWrapper := ⟨Key.zero, Key.zero⟩
  have hdrop : Step sodium executor T (.worker i (.create k keys 0)) _ :=
    .worker hi₂ trivial (.create hlive' hk
      (Worker.createSessionHandler_full (w := w'.dequeue k) hfull keys 0))
  obtain ⟨log', hlogged⟩ := (hrun₁.append hrun₂).exists_log decisions log
  have hdecision : T.decisions (.worker i (.create k keys 0))
      = [.dropped T.counts] := by
    simp only [decisions, hi₂]
    rw [if_pos (by omega)]
  have hquiet : Run (When (Logged (Step sodium executor) decisions) Quiet)
      (S, log) _ (T, log') :=
    hlogged.mono fun s e t h => ⟨⟨h.1.1, h.2⟩, h.1.2⟩
  have hlast : When (Logged (Step sodium executor) decisions) Quiet (T, log')
      (.worker i (.create k keys 0)) (_, log' ++ [.dropped T.counts]) :=
    ⟨⟨hdrop, by rw [hdecision]⟩, trivial⟩
  refine ⟨_, _, T.counts, hquiet.snoc hlast,
    List.mem_append_right _ (List.mem_singleton.mpr rfl), fun hall => ?_⟩
  have hcount := hall v'.getClientCount
    (List.mem_map.mpr ⟨v', List.mem_of_getElem? hj₂, rfl⟩)
  unfold Worker.getClientCount at hcount
  omega

/-- Picking a worker without space is wrong, or makes a wrong drop
possible. -/
theorem Spacious.lost {S T : Server} {log : List Decision} {e : ServerEvent}
    (hS : S.Spacious log) (h : Step sodium executor S e T)
    (hroomy : ¬S.LeastRoomy e) :
    ¬Safely (Logged (Step sodium executor) decisions) Quiet AllRight
      (T, log ++ S.decisions e) := by
  cases h with
  | worker hi hown hstep => exact absurd trivial hroomy
  | @accept ec =>
      cases ec with
      | true => exact absurd trivial hroomy
      | false =>
          obtain ⟨i, w, hpeek, hleast⟩ := peekWorker_spec hS.many
          have hi := hleast.here
          have hw := hS.roomy i w hi
          have hover : workerMaxClientCount ≤ w.sessionList.size + w.pending := by
            refine Nat.le_of_not_lt fun hlt => hroomy fun i' w' hleast' => ?_
            obtain ⟨rfl, rfl⟩ := hleast.unique hleast'
            exact hlt
          intro hsafe
          rcases Nat.lt_or_eq_of_le hw.table.size with hlt | hfull
          · have haccept : S.accept false = { S with
                workers := S.workers.modify i Worker.createSession } := by
              simp [Server.accept, hpeek]
            obtain ⟨j, v, hij, hj⟩ := hS.another i
            obtain ⟨es, s, counts, hrun, hmem, hnot⟩ := dropped_early sodium
              executor (S := S.accept false) (i := i) (w := w.createSession)
              (v := v) hij (by simp [haccept, hi])
              (by simp [haccept, hij, hj]) ⟨hw.table.size, hw.table.keyed⟩
              hw.executes (hS.roomy j v hj) (by
                rw [Worker.createSession_pending]
                exact Nat.lt_succ_of_le hover) _
            exact hnot (hsafe es s hrun _ hmem)
          · have hright := hsafe.now (.picked S.counts (peekWorker S.workers))
              (List.mem_append_right _ (List.mem_singleton.mpr rfl))
            have hnone := hright.2.mpr fun c hc => by
              obtain ⟨v, hv, rfl⟩ := List.mem_map.mp hc
              obtain ⟨k, hk⟩ := List.mem_iff_getElem?.mp hv
              have hle := hleast.least v hv
              have hmax := (hS.roomy k v hk).table.size
              unfold Worker.getClientCount at hle ⊢
              omega
            rw [hpeek] at hnone
            cases hnone

/-- With two workers or more: as long as the worker that is picked has space
for all that is on its way to it, a worker with the fewest clients is picked
each time, none only if all are full, and no connection is dropped otherwise;
and the runs in which it has are exactly those after whose every step that is
bound to stay so until the next connection. -/
theorem acceptor_iff {executor : SocketExecutor} {n : Nat} (hn : 2 ≤ n)
    {clock : Int64} {es : List ServerEvent} {s : Server × List Decision} :
    (Run (When (Logged (Step sodium executor) decisions) HasRoom)
        (start n clock, []) es s → AllRight s)
      ∧ (Run (Into (Logged (Step sodium executor) decisions)
          (Safely (Logged (Step sodium executor) decisions) Quiet AllRight))
          (start n clock, []) es s
        ↔ Run (When (Logged (Step sodium executor) decisions) HasRoom)
          (start n clock, []) es s) := by
  have hkeep : ∀ s e t, Spacious s.1 s.2 →
      Logged (Step sodium executor) decisions s e t → HasRoom s e →
      Spacious t.1 t.2 := by
    intro s e t hs hstep hroomy
    rw [hstep.2]
    exact hs.step hstep.1 hroomy
  constructor
  · intro h
    have hspacious : Spacious s.1 s.2 :=
      h.when_invariant hkeep (start_spacious hn clock)
    exact hspacious.right
  · refine Run.safely_iff_when hkeep ?_ ?_ ?_ ?_
    · intro s e hquiet
      cases e with
      | accept ec => cases hquiet
      | worker i e => trivial
    · exact fun s hs => hs.right
    · rintro s e ⟨T, log⟩ hs ⟨hstep, rfl⟩ hroomy
      exact hs.lost hstep hroomy
    · exact start_spacious hn clock

/-- The first connection of a server with two workers goes to the first. -/
theorem acceptor_two :
    ∃ s, Run (Logged (Step ⟨id, fun _ _ => none, id⟩ .worker) decisions)
        (start 2 0, []) [.accept false] s
      ∧ s.2 = [.picked [0, 0] (some 0)] ∧ AllRight s := by
  have hrun : Run (When (Logged (Step ⟨id, fun _ _ => none, id⟩ .worker)
      decisions) HasRoom) (start 2 0, []) [.accept false]
      ((start 2 0).accept false, [.picked [0, 0] (some 0)]) := by
    refine .cons ⟨⟨.accept, rfl⟩, fun i w hleast => ?_⟩ (.nil _)
    rw [List.eq_of_mem_replicate (List.mem_of_getElem? hleast.here)]
    show 0 < workerMaxClientCount
    decide
  exact ⟨_, hrun.mono fun s e t h => h.1, rfl,
    (acceptor_iff (Nat.le_refl 2)).1 hrun⟩

/-- Two workers, with connections on their way to the first. -/
def crowd (m : Nat) : Server where
  workers := [{ (Worker.start 0).run with
    queue := List.replicate m .createSession }, (Worker.start 0).run]

/-- All connections accepted before a handler runs go to one worker. -/
theorem run_crowd (sodium : Sodium) (executor : SocketExecutor) (m : Nat) :
    Run (Step sodium executor) (start 2 0) (List.replicate m (.accept false))
      (crowd m) := by
  induction m with
  | zero => exact .nil _
  | succ m ih =>
      have hstep : Step sodium executor (crowd m) (.accept false)
          ((crowd m).accept false) := .accept
      have hnext : (crowd m).accept false = crowd (m + 1) := by
        show Server.mk [Worker.createSession _, _] = _
        unfold Worker.createSession crowd
        rw [List.replicate_succ']
      rw [hnext] at hstep
      rw [List.replicate_succ']
      exact ih.snoc hstep

/-- If these are too many for it, one is dropped with the other worker empty. -/
theorem run_crowd_dropped (sodium : Sodium) (executor : SocketExecutor) {m : Nat}
    (hm : workerMaxClientCount < m) :
    ∃ es s counts, Run (Logged (Step sodium executor) decisions)
        (start 2 0, []) (List.replicate m (.accept false) ++ es) s
      ∧ .dropped counts ∈ s.2 ∧ ¬Full counts := by
  obtain ⟨log, hfirst⟩ := (run_crowd sodium executor m).exists_log decisions []
  have hempty := Worker.start_roomy 0
  have hpending : Worker.pending { (Worker.start 0).run with
      queue := List.replicate m .createSession } = m :=
    List.count_replicate_self ..
  have hover : workerMaxClientCount < FlatHashMap.size
      (Worker.start 0).run.sessionList + Worker.pending { (Worker.start 0).run with
        queue := List.replicate m .createSession } := by
    rw [hpending]
    exact Nat.lt_add_left _ hm
  obtain ⟨es, s, counts, hrun, hmem, hnot⟩ := dropped_early sodium executor
    (S := crowd m) (i := 0) (j := 1) Nat.zero_ne_one rfl rfl
    ⟨hempty.table.size, hempty.table.keyed⟩ ⟨rfl, rfl⟩ hempty hover log
  exact ⟨es, s, counts, hfirst.append (hrun.mono fun s e t h => h.1), hmem, hnot⟩

/-- So it is with 4097 connections. -/
theorem dropped_beside_empty :
    ∃ es s counts, Run (Logged (Step ⟨id, fun _ _ => none, id⟩ .worker) decisions)
        (start 2 0, []) (List.replicate 4097 (.accept false) ++ es) s
      ∧ .dropped counts ∈ s.2 ∧ ¬Full counts :=
  run_crowd_dropped _ _ (by decide)

end Server

end Remc.Net
