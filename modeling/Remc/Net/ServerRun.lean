/-
`Run` and `Stop` of a server, with its workers (server.cpp).

The thread that calls `Run` and `Stop` goes through the workers one after
the other, and waits in `Stop` for the acceptor's thread and then for each
worker's; in between, the threads that run go on. So a call has a place
where it stands (`Call`), and a worker is where its own `Run` and `Stop`
have brought it (`WorkerAt`).

What a worker does in a server it could do alone (`server_workers`), so what
is known of a worker holds of each worker of a server. And a server is only
ever run once: the first `Stop` that takes effect stops the contexts for
good, and a server that is run again says that it is running and serves
nothing (`server_lifecycle`).
-/
import Remc.Net.Connections
import Remc.Net.Lifecycle

namespace Remc.Net

open Crypto Runs

variable {sodium : Sodium} {executor : SocketExecutor}

/-- Where the thread that calls `Run` and `Stop` stands. -/
inductive Call where
  /-- In neither. -/
  | idle
  /-- In `Run`, before the `Run` of worker `next`. -/
  | run (next : Nat)
  /-- In `Stop`, at the `join` of the acceptor's thread. -/
  | join
  /-- In `Stop`, before the `Stop` of worker `next`, or at its `join`. -/
  | stop (next : Nat)
deriving DecidableEq, Repr

/-- A server with its acceptor's thread. -/
structure ServerObject extends Server where
  threadFlag : Bool := false
  /-- `io_` is in the stopped state. -/
  stopped : Bool := false
  /-- `thread_` is in `io_.run()`. -/
  running : Bool := false
  /-- The calls of `async_accept` whose handler has not run. -/
  accepts : Nat := 0
  call : Call := .idle

/-- What can happen to a server. -/
inductive ObjectEvent where
  | run
  | stop
  /-- The call goes on. -/
  | goOn
  /-- The handler of `async_accept` runs. -/
  | accept (ec : Bool)
  /-- Something happens at a worker. -/
  | worker (i : Nat) (e : WorkerEvent)

namespace ServerObject

/-- A server as its constructor leaves it. -/
def start (n : Nat) (clock : Int64) : ServerObject where
  workers := List.replicate n (Worker.start clock)

/-- `Run`, up to its loop. -/
def run (S : ServerObject) : ServerObject :=
  if S.threadFlag then S
  else { S with threadFlag := true, call := .run 0 }

/-- What `Run` does behind its loop: `io_.run()` returns at once where `io_`
is stopped. -/
def startThread (S : ServerObject) : ServerObject :=
  { S with
    -- init acceptor
    accepts := S.accepts + 1
    -- start io_context
    running := !S.stopped
    call := .idle }

/-- `Stop`, up to its `join`. -/
def stop (S : ServerObject) : ServerObject :=
  if S.threadFlag then
    { S with threadFlag := false, stopped := true, call := .join }
  else S

/-- Worker `k` is `t` now. -/
def setWorker (S : ServerObject) (k : Nat) (t : Worker) : ServerObject :=
  { S with workers := S.workers.set k t }

/-- `IsRunning`. -/
def isRunning (S : ServerObject) : Bool := S.threadFlag

/-- One step. -/
inductive Step (sodium : Sodium) (executor : SocketExecutor) :
    ServerObject → ObjectEvent → ServerObject → Prop
  | run {S : ServerObject} (hidle : S.call = .idle) :
      Step sodium executor S .run S.run
  | runWorker {S : ServerObject} {k : Nat} {w t : Worker}
      (hcall : S.call = .run k) (hk : S.workers[k]? = some w)
      (hstep : Worker.Step sodium executor w .run t) :
      Step sodium executor S .goOn
        { S.setWorker k t with call := .run (k + 1) }
  | started {S : ServerObject} (hcall : S.call = .run S.workers.length) :
      Step sodium executor S .goOn S.startThread
  | stop {S : ServerObject} (hidle : S.call = .idle) :
      Step sodium executor S .stop S.stop
  | joined {S : ServerObject} (hcall : S.call = .join) :
      Step sodium executor S .goOn { S with running := false, call := .stop 0 }
  | stopWorker {S : ServerObject} {k : Nat} {w t : Worker}
      (hcall : S.call = .stop k) (hk : S.workers[k]? = some w)
      (hstep : Worker.Step sodium executor w .stop t) :
      Step sodium executor S .goOn
        { S.setWorker k t with
          call := if t.stopping then .stop k else .stop (k + 1) }
  | joinWorker {S : ServerObject} {k : Nat} {w t : Worker}
      (hcall : S.call = .stop k) (hk : S.workers[k]? = some w)
      (hstep : Worker.Step sodium executor w .join t) :
      Step sodium executor S .goOn
        { S.setWorker k t with call := .stop (k + 1) }
  | finished {S : ServerObject} (hcall : S.call = .stop S.workers.length) :
      Step sodium executor S .goOn { S with call := .idle }
  | accept {S : ServerObject} {ec : Bool}
      (hlive : S.running = true ∧ S.stopped = false) (hpos : 0 < S.accepts) :
      -- the handler starts the next `async_accept`
      Step sodium executor S (.accept ec)
        { S with toServer := S.toServer.accept ec }
  | worker {S : ServerObject} {i : Nat} {w t : Worker} {e : WorkerEvent}
      (hi : S.workers[i]? = some w) (hown : Server.OwnEvent e)
      (hstep : Worker.Step sodium executor w e t) :
      Step sodium executor S (.worker i e) (S.setWorker i t)

-- ============================================================ the workers

variable {S T : ServerObject} {e : ObjectEvent}

/-- A connection changes nothing, or one worker. -/
theorem accept_cases (S : Server) (ec : Bool) :
    S.accept ec = S ∨ ∃ i w, S.workers[i]? = some w
      ∧ S.accept ec = { S with workers := S.workers.set i w.createSession } := by
  cases ec with
  | true => exact Or.inl rfl
  | false =>
      cases hpeek : Server.peekWorker S.workers with
      | none =>
          refine Or.inl ?_
          simp [Server.accept, hpeek]
      | some i =>
          obtain ⟨w, hi⟩ := Server.peekWorker_mem hpeek
          exact Or.inr ⟨i, w, hi, Server.accept_eq hpeek hi⟩

/-- A step changes no worker, or one by a step of its own. -/
theorem Step.workers (h : Step sodium executor S e T) :
    T.workers = S.workers ∨ ∃ (i : Nat) (w t : Worker) (f : WorkerEvent),
      S.workers[i]? = some w ∧ Worker.Step sodium executor w f t
        ∧ (Server.OwnEvent f → e = .worker i f)
        ∧ T.workers = S.workers.set i t := by
  cases h with
  | run hidle =>
      unfold ServerObject.run
      split <;> exact Or.inl rfl
  | runWorker hcall hk hstep =>
      exact Or.inr ⟨_, _, _, _, hk, hstep, fun hown => hown.elim, rfl⟩
  | started hcall => exact Or.inl rfl
  | stop hidle =>
      unfold ServerObject.stop
      split <;> exact Or.inl rfl
  | joined hcall => exact Or.inl rfl
  | stopWorker hcall hk hstep =>
      exact Or.inr ⟨_, _, _, _, hk, hstep, fun hown => hown.elim, rfl⟩
  | joinWorker hcall hk hstep =>
      exact Or.inr ⟨_, _, _, _, hk, hstep, fun hown => hown.elim, rfl⟩
  | finished hcall => exact Or.inl rfl
  | @accept ec hlive hpos =>
      dsimp only
      rcases accept_cases S.toServer ec with hsame | ⟨i, w, hi, hset⟩
      · rw [hsame]
        exact Or.inl rfl
      · rw [hset]
        exact Or.inr
          ⟨i, w, _, _, hi, .createSession, fun hown => hown.elim, rfl⟩
  | worker hi hown hstep =>
      exact Or.inr ⟨_, _, _, _, hi, hstep, fun _ => rfl, rfl⟩

/-- The workers stay as many as they are. -/
theorem Step.workers_length (h : Step sodium executor S e T) :
    T.workers.length = S.workers.length := by
  rcases h.workers with hsame | ⟨i, w, t, f, -, -, -, hset⟩
  · rw [hsame]
  · rw [hset, List.length_set]

/-- A worker is a part of its server, and does by itself what the server has
it do. -/
theorem worker_part (sodium : Sodium) (executor : SocketExecutor) (i : Nat) :
    Part (Step sodium executor) (fun _ => True) (fun S => S.workers[i]?)
      (Worker.Step sodium executor) (fun _ _ => False)
      (fun e f => Server.OwnEvent f → e = .worker i f) where
  pres _ _ _ _ _ := trivial
  cases s e t u _ hstep ht := by
    rcases hstep.workers with hsame | ⟨j, w, v, f, hj, hw, hof, hset⟩
    · rw [hsame] at ht
      exact Or.inl ht
    · rw [hset] at ht
      by_cases hij : j = i
      · subst hij
        rw [List.getElem?_set_self (List.getElem?_eq_some_iff.mp hj).1] at ht
        cases ht
        exact Or.inr (Or.inl ⟨w, f, hj, hw, hof⟩)
      · rw [List.getElem?_set_ne hij] at ht
        exact Or.inl ht

/-- So it is where a run of its own leads. -/
theorem worker_run {n : Nat} {clock : Int64} {es : List ObjectEvent}
    (h : Run (Step sodium executor) (start n clock) es S) {i : Nat} {w : Worker}
    (hi : S.workers[i]? = some w) :
    ∃ fs, Run (Worker.Step sodium executor) (Worker.start clock) fs w
      ∧ ∀ f ∈ fs, Server.OwnEvent f → .worker i f ∈ es := by
  obtain ⟨v, fs, hv | ⟨_, _, hmade⟩, hrun, hof⟩ :=
    (worker_part sodium executor i).run h trivial hi
  · have hstart : v = Worker.start clock :=
      List.eq_of_mem_replicate (List.mem_of_getElem? hv)
    subst hstart
    refine ⟨fs, hrun, fun f hf hown => ?_⟩
    obtain ⟨e, he, heq⟩ := hof f hf
    rw [← heq hown]
    exact he
  · exact hmade.elim

/-- Every worker of a server could be alone: it is in a state that a run of
its own leads to. -/
theorem server_workers {n : Nat} {clock : Int64} {es : List ObjectEvent}
    (h : Run (Step sodium executor) (start n clock) es S) :
    S.workers.length = n ∧ ∀ (i : Nat) (w : Worker), S.workers[i]? = some w →
      ∃ fs, Run (Worker.Step sodium executor) (Worker.start clock) fs w := by
  constructor
  · exact h.invariant (I := fun s : ServerObject => s.workers.length = n)
      (fun _ _ _ hs hstep => hstep.workers_length.trans hs)
      List.length_replicate
  · intro i w hi
    obtain ⟨fs, hrun, -⟩ := worker_run h hi
    exact ⟨fs, hrun⟩

/-- Two workers, of which `Run` has run the first. -/
theorem server_workers_two : ∃ S w fs,
    Run (Step ⟨id, fun _ _ => none, id⟩ .worker) (start 2 0) [.run, .goOn] S
      ∧ S.workers[0]? = some w ∧ w.threadFlag = true
      ∧ Run (Worker.Step ⟨id, fun _ _ => none, id⟩ .worker) (Worker.start 0) fs
        w := by
  let sodium : Sodium := ⟨id, fun _ _ => none, id⟩
  have h₁ : Step sodium .worker (start 2 0) .run (start 2 0).run := .run rfl
  have h₂ : Step sodium .worker (start 2 0).run .goOn _ :=
    .runWorker (k := 0) rfl rfl (.run rfl)
  have hrun := Run.cons h₁ (.cons h₂ (.nil _))
  obtain ⟨-, hworkers⟩ := server_workers hrun
  obtain ⟨fs, hfs⟩ := hworkers 0 _ rfl
  exact ⟨_, _, fs, hrun, rfl, rfl, hfs⟩

-- ============================================================ the invariant

/-- The flag of worker `i` where the call stands, if it is not at the `join`
of this worker. -/
def flagAt (S : ServerObject) (i : Nat) : Bool :=
  match S.call with
  | .idle => S.threadFlag
  | .run next => decide (i < next)
  | .join => true
  | .stop next => decide (next ≤ i)

/-- The first `Stop` has stopped worker `i`. -/
def HaltedAt (S : ServerObject) (i : Nat) : Prop :=
  match S.call with
  | .idle => S.stopped = true
  | .run _ => S.stopped = true
  | .join => False
  | .stop next => i < next

/-- Where worker `i` is. -/
structure WorkerAt (S : ServerObject) (i : Nat) (w : Worker) : Prop where
  table : w.TableOk
  flags : w.FlagsOk
  flag : w.threadFlag = (S.flagAt i && !w.stopping)
  stopping : w.stopping = true → S.call = .stop i
  unstopped : w.stopped = true → S.stopped = true
  halted : S.HaltedAt i → w.stopped = true

/-- Where the acceptor's thread is, where the call stands. -/
def ThreadAt (S : ServerObject) : Prop :=
  match S.call with
  | .idle => (S.stopped = true → S.running = false)
      ∧ (S.stopped = false → S.running = S.threadFlag
        ∧ S.accepts = if S.threadFlag then 1 else 0)
  | .run _ => S.threadFlag = true ∧ S.running = false
      ∧ (S.stopped = false → S.accepts = 0)
  | .join => S.threadFlag = false ∧ S.stopped = true
  | .stop _ => S.threadFlag = false ∧ S.stopped = true ∧ S.running = false

/-- The threads are where the call has brought them. -/
structure Placed (S : ServerObject) : Prop where
  thread : S.ThreadAt
  workers : ∀ (i : Nat) (w : Worker), S.workers[i]? = some w → S.WorkerAt i w

theorem start_placed (n : Nat) (clock : Int64) : (start n clock).Placed where
  thread := ⟨fun h => (by cases h), fun _ => ⟨rfl, rfl⟩⟩
  workers i w hi := by
    rw [List.eq_of_mem_replicate (List.mem_of_getElem? hi)]
    exact {
      table := Worker.start_tableOk clock
      flags := Worker.start_flagsOk clock
      flag := rfl
      stopping := fun h => by cases h
      unstopped := fun h => by cases h
      halted := fun h => by cases h }

-- ======================================================== one worker's steps

variable {i : Nat} {w t : Worker}

/-- The server moves on and the worker stays. -/
theorem WorkerAt.move (hw : S.WorkerAt i w) (hflag : T.flagAt i = S.flagAt i)
    (hcall : w.stopping = true → T.call = S.call)
    (hstopped : S.stopped = true → T.stopped = true)
    (hhalted : T.HaltedAt i → S.HaltedAt i) : T.WorkerAt i w where
  table := hw.table
  flags := hw.flags
  flag := by rw [hflag, hw.flag]
  stopping h := (hcall h).trans (hw.stopping h)
  unstopped h := hstopped (hw.unstopped h)
  halted h := hw.halted (hhalted h)

/-- The worker goes on by itself. -/
theorem WorkerAt.own (hw : S.WorkerAt i w) {f : WorkerEvent}
    (h : Worker.Step sodium executor w f t) (hown : Server.OwnEvent f) :
    S.WorkerAt i t := by
  obtain ⟨hflag, hstopped, hstopping⟩ : t.threadFlag = w.threadFlag
      ∧ t.stopped = w.stopped ∧ t.stopping = w.stopping := by
    rcases Worker.flags_cases hw.table h with
      (rfl | rfl | rfl) | ⟨hflag, hstopped, -, hstopping⟩
    · exact hown.elim
    · exact hown.elim
    · exact hown.elim
    · exact ⟨hflag, hstopped, hstopping⟩
  refine ⟨hw.table.step h, hw.flags.step hw.table h, ?_, ?_, ?_, ?_⟩
  · rw [hflag, hstopping, hw.flag]
  · rw [hstopping]
    exact hw.stopping
  · rw [hstopped]
    exact hw.unstopped
  · rw [hstopped]
    exact hw.halted

/-- It gets a connection. -/
theorem WorkerAt.createSession (hw : S.WorkerAt i w) :
    S.WorkerAt i w.createSession :=
  ⟨⟨hw.table.size, hw.table.keyed⟩, ⟨hw.flags.stopping, hw.flags.running⟩,
    hw.flag, hw.stopping, hw.unstopped, hw.halted⟩

/-- It is run by the server's `Run`. -/
theorem WorkerAt.run (hw : S.WorkerAt i w) (hcall : S.call = .run i)
    (hT : T.call = .run (i + 1)) (hstopped : T.stopped = S.stopped)
    (h : Worker.Step sodium executor w .run t) : T.WorkerAt i t := by
  have htable := hw.table.step h
  have hflags := hw.flags.step hw.table h
  cases h with
  | run hidle =>
      have hflag : w.threadFlag = false := by
        rw [hw.flag, flagAt, hcall]
        simp
      have hrun : w.run = { w with
          threadFlag := true, timers := w.timers + 1, running := !w.stopped } :=
        if_neg (by rw [hflag]; decide)
      rw [hrun] at htable hflags ⊢
      refine ⟨htable, hflags, ?_, ?_, ?_, ?_⟩
      · show true = (T.flagAt i && !w.stopping)
        rw [hidle, flagAt, hT]
        simp
      · intro hstopping
        rw [show w.stopping = true from hstopping] at hidle
        cases hidle
      · rw [hstopped]
        exact hw.unstopped
      · intro hhalted
        rw [HaltedAt, hT] at hhalted
        refine hw.halted ?_
        rw [HaltedAt, hcall]
        exact hstopped ▸ hhalted

/-- It is stopped by the server's `Stop`, up to the `join` of its thread. -/
theorem WorkerAt.stop (hw : S.WorkerAt i w) (hcall : S.call = .stop i)
    (hstopped : S.stopped = true) (h : Worker.Step sodium executor w .stop t) :
    t.stopping = true ∧ S.WorkerAt i t := by
  have htable := hw.table.step h
  have hflags := hw.flags.step hw.table h
  cases h with
  | stop hidle hstop =>
      have hflag : w.threadFlag = true := by
        rw [hw.flag, flagAt, hcall, hidle]
        simp
      rcases hw.table.stop_cases hstop with ⟨hnot, -⟩ | ⟨refs, -, -, rfl⟩
      · rw [hflag] at hnot
        cases hnot
      · refine ⟨rfl, htable, hflags, ?_, fun _ => hcall, fun _ => hstopped,
          fun _ => rfl⟩
        show false = (S.flagAt i && !true)
        simp

/-- Its thread has been joined. -/
theorem WorkerAt.join (hw : S.WorkerAt i w) (hT : T.call = .stop (i + 1))
    (hstopped : T.stopped = S.stopped)
    (h : Worker.Step sodium executor w .join t) : T.WorkerAt i t := by
  have htable := hw.table.step h
  have hflags := hw.flags.step hw.table h
  cases h with
  | join hstopping =>
      refine ⟨htable, hflags, ?_, fun h => (by cases h), ?_, ?_⟩
      · have hflag : w.threadFlag = false := by
          rw [hw.flag, hstopping]
          simp
        have hat : T.flagAt i = false := by
          rw [flagAt, hT]
          simp
        show w.threadFlag = (T.flagAt i && !false)
        rw [hflag, hat]
        rfl
      · rw [hstopped]
        exact hw.unstopped
      · exact fun _ => hw.flags.stopping hstopping

-- ======================================================= the server's steps

/-- One worker changes and the call moves on: the others stay. -/
theorem Placed.setWorker (hS : S.Placed) {w t : Worker} {k : Nat}
    (hk : S.workers[k]? = some w) (hworkers : T.workers = S.workers.set k t)
    (hthread : T.ThreadAt) (ht : T.WorkerAt k t)
    (hother : ∀ (i : Nat) (v : Worker), i ≠ k → S.WorkerAt i v →
      T.WorkerAt i v) : T.Placed where
  thread := hthread
  workers i v hi := by
    rw [hworkers] at hi
    by_cases hik : i = k
    · subst hik
      rw [List.getElem?_set_self (List.getElem?_eq_some_iff.mp hk).1] at hi
      cases hi
      exact ht
    · rw [List.getElem?_set_ne (Ne.symm hik)] at hi
      exact hother i v hik (hS.workers i v hi)

/-- The call moves on and no worker changes. -/
theorem Placed.move (hS : S.Placed) (hworkers : T.workers = S.workers)
    (hthread : T.ThreadAt)
    (hat : ∀ (i : Nat) (v : Worker), i < S.workers.length →
      S.WorkerAt i v → T.WorkerAt i v) : T.Placed where
  thread := hthread
  workers i v hi := by
    rw [hworkers] at hi
    exact hat i v (List.getElem?_eq_some_iff.mp hi).1 (hS.workers i v hi)

theorem Placed.run (hS : S.Placed) (hidle : S.call = .idle) : S.run.Placed := by
  have hthread := hS.thread
  rw [ThreadAt, hidle] at hthread
  obtain ⟨hended, hserving⟩ := hthread
  by_cases hflag : S.threadFlag = true
  · have hsame : S.run = S := if_pos hflag
    rw [hsame]
    exact hS
  · have hrun : S.run = { S with threadFlag := true, call := .run 0 } :=
      if_neg hflag
    rw [Bool.not_eq_true] at hflag
    rw [hrun]
    refine hS.move rfl ⟨rfl, ?_, fun hstopped => ?_⟩ fun i v _ hv => ?_
    · cases hstopped : S.stopped with
      | true => exact hended hstopped
      | false => exact (hserving hstopped).1.trans hflag
    · rw [show S.stopped = false from hstopped, hflag] at hserving
      exact (hserving rfl).2
    · refine hv.move ?_ (fun h => ?_) (fun h => h) (fun h => ?_)
      · rw [flagAt, flagAt, hidle, hflag]
        rfl
      · rw [hv.stopping h] at hidle
        cases hidle
      · rw [HaltedAt, hidle]
        exact h

theorem Placed.startThread (hS : S.Placed)
    (hcall : S.call = .run S.workers.length) : S.startThread.Placed := by
  have hthread := hS.thread
  rw [ThreadAt, hcall] at hthread
  obtain ⟨hflag, -, haccepts⟩ := hthread
  refine hS.move rfl ⟨fun hstopped => ?_, fun hstopped => ⟨?_, ?_⟩⟩
    fun i v hi hv => ?_
  · show (!S.stopped) = false
    rw [show S.stopped = true from hstopped]
    rfl
  · show (!S.stopped) = S.threadFlag
    rw [show S.stopped = false from hstopped, hflag]
    rfl
  · show S.accepts + 1 = if S.threadFlag then 1 else 0
    rw [haccepts hstopped, hflag]
    rfl
  · refine hv.move ?_ (fun h => ?_) (fun h => h) (fun h => ?_)
    · show S.threadFlag = S.flagAt i
      rw [flagAt, hcall, hflag]
      exact (decide_eq_true hi).symm
    · rw [hv.stopping h] at hcall
      cases hcall
    · rw [HaltedAt, hcall]
      exact h

theorem Placed.stop (hS : S.Placed) (hidle : S.call = .idle) :
    S.stop.Placed := by
  by_cases hflag : S.threadFlag = true
  · have hstop : S.stop = { S with
        threadFlag := false, stopped := true, call := .join } := if_pos hflag
    rw [hstop]
    refine hS.move rfl ⟨rfl, rfl⟩ fun i v _ hv => ?_
    refine hv.move ?_ (fun h => ?_) (fun _ => rfl) (fun h => h.elim)
    · rw [flagAt, flagAt, hidle, hflag]
    · rw [hv.stopping h] at hidle
      cases hidle
  · have hsame : S.stop = S := if_neg hflag
    rw [hsame]
    exact hS

theorem Placed.joined (hS : S.Placed) (hcall : S.call = .join) :
    Placed { S with running := false, call := .stop 0 } := by
  have hthread := hS.thread
  rw [ThreadAt, hcall] at hthread
  refine hS.move rfl ⟨hthread.1, hthread.2, rfl⟩ fun i v _ hv => ?_
  refine hv.move ?_ (fun h => ?_) (fun h => h) (fun h => ?_)
  · rw [flagAt, flagAt, hcall]
    simp
  · rw [hv.stopping h] at hcall
    cases hcall
  · exact absurd h (Nat.not_lt_zero i)

theorem Placed.finished (hS : S.Placed)
    (hcall : S.call = .stop S.workers.length) :
    Placed { S with call := .idle } := by
  have hthread := hS.thread
  rw [ThreadAt, hcall] at hthread
  obtain ⟨hflag, hstopped, hrunning⟩ := hthread
  refine hS.move rfl ⟨fun _ => hrunning, fun h => ?_⟩ fun i v hi hv => ?_
  · rw [show S.stopped = false from h] at hstopped
    cases hstopped
  · refine hv.move ?_ (fun h => ?_) (fun h => h) (fun _ => ?_)
    · show S.threadFlag = S.flagAt i
      rw [flagAt, hcall, hflag]
      exact (decide_eq_false (by omega)).symm
    · rw [hv.stopping h] at hcall
      cases hcall
      omega
    · rw [HaltedAt, hcall]
      exact hi

theorem Placed.runWorker (hS : S.Placed) {k : Nat} (hcall : S.call = .run k)
    (hk : S.workers[k]? = some w)
    (h : Worker.Step sodium executor w .run t) :
    Placed { S.setWorker k t with call := .run (k + 1) } := by
  have hthread := hS.thread
  rw [ThreadAt, hcall] at hthread
  refine hS.setWorker hk rfl hthread ((hS.workers k w hk).run hcall rfl rfl h)
    fun i v hik hv => ?_
  refine hv.move ?_ (fun h => ?_) (fun h => h) (fun h => ?_)
  · rw [flagAt, flagAt, hcall]
    show decide (i < k + 1) = decide (i < k)
    rw [decide_eq_decide]
    omega
  · rw [hv.stopping h] at hcall
    cases hcall
  · rw [HaltedAt, hcall]
    exact h

theorem Placed.stopWorker (hS : S.Placed) {k : Nat} (hcall : S.call = .stop k)
    (hk : S.workers[k]? = some w)
    (h : Worker.Step sodium executor w .stop t) :
    Placed { S.setWorker k t with
      call := if t.stopping then .stop k else .stop (k + 1) } := by
  have hthread := hS.thread
  rw [ThreadAt, hcall] at hthread
  obtain ⟨hstopping, ht⟩ := (hS.workers k w hk).stop hcall hthread.2.1 h
  rw [if_pos hstopping, ← hcall]
  refine hS.setWorker hk rfl ?_ ⟨ht.table, ht.flags, ht.flag, ht.stopping,
    ht.unstopped, ht.halted⟩ fun i v _ hv =>
    ⟨hv.table, hv.flags, hv.flag, hv.stopping, hv.unstopped, hv.halted⟩
  exact hS.thread

theorem Placed.joinWorker (hS : S.Placed) {k : Nat} (hcall : S.call = .stop k)
    (hk : S.workers[k]? = some w)
    (h : Worker.Step sodium executor w .join t) :
    Placed { S.setWorker k t with call := .stop (k + 1) } := by
  have hthread := hS.thread
  rw [ThreadAt, hcall] at hthread
  refine hS.setWorker hk rfl hthread ((hS.workers k w hk).join rfl rfl h)
    fun i v hik hv => ?_
  refine hv.move ?_ (fun h => ?_) (fun h => h) (fun h => ?_)
  · rw [flagAt, flagAt, hcall]
    show decide (k + 1 ≤ i) = decide (k ≤ i)
    rw [decide_eq_decide]
    omega
  · have hat := hv.stopping h
    rw [hcall] at hat
    cases hat
    exact absurd rfl hik
  · have hlt : i < k + 1 := h
    rw [HaltedAt, hcall]
    show i < k
    omega

theorem Placed.accept (hS : S.Placed) (ec : Bool) :
    Placed { S with toServer := S.toServer.accept ec } := by
  rcases accept_cases S.toServer ec with hsame | ⟨i, w, hi, hset⟩
  · rw [hsame]
    exact hS
  · rw [hset]
    have hw := (hS.workers i w hi).createSession
    exact hS.setWorker hi rfl hS.thread
      ⟨hw.table, hw.flags, hw.flag, hw.stopping, hw.unstopped, hw.halted⟩
      fun j v _ hv =>
        ⟨hv.table, hv.flags, hv.flag, hv.stopping, hv.unstopped, hv.halted⟩

theorem Placed.worker (hS : S.Placed) (hi : S.workers[i]? = some w)
    {f : WorkerEvent} (hown : Server.OwnEvent f)
    (h : Worker.Step sodium executor w f t) : (S.setWorker i t).Placed := by
  have hw := (hS.workers i w hi).own h hown
  exact hS.setWorker hi rfl hS.thread
    ⟨hw.table, hw.flags, hw.flag, hw.stopping, hw.unstopped, hw.halted⟩
    fun j v _ hv =>
      ⟨hv.table, hv.flags, hv.flag, hv.stopping, hv.unstopped, hv.halted⟩

/-- Every step leaves the threads where the call has brought them. -/
theorem Placed.step (hS : S.Placed) (h : Step sodium executor S e T) :
    T.Placed := by
  cases h with
  | run hidle => exact hS.run hidle
  | runWorker hcall hk hstep => exact hS.runWorker hcall hk hstep
  | started hcall => exact hS.startThread hcall
  | stop hidle => exact hS.stop hidle
  | joined hcall => exact hS.joined hcall
  | stopWorker hcall hk hstep => exact hS.stopWorker hcall hk hstep
  | joinWorker hcall hk hstep => exact hS.joinWorker hcall hk hstep
  | finished hcall => exact hS.finished hcall
  | accept hlive hpos => exact hS.accept _
  | worker hi hown hstep => exact hS.worker hi hown hstep

-- ========================================================= the calls return

/-- The loop of `Run` gets through. -/
theorem run_returns (sodium : Sodium) (executor : SocketExecutor) {m k : Nat}
    (hS : S.Placed) (hcall : S.call = .run k)
    (hm : k + m = S.workers.length) :
    ∃ es T, Run (Step sodium executor) S es T ∧ T.Placed ∧ T.call = .idle
      ∧ T.threadFlag = true ∧ T.stopped = S.stopped := by
  induction m generalizing S k with
  | zero =>
      have hthread := hS.thread
      rw [ThreadAt, hcall] at hthread
      have hlast : S.call = .run S.workers.length := by
        rw [hcall, ← hm, Nat.add_zero]
      exact ⟨[.goOn], _, .cons (.started hlast) (.nil _), hS.startThread hlast,
        rfl, hthread.1, rfl⟩
  | succ m ih =>
      have hlt : k < S.workers.length := by omega
      have hk : S.workers[k]? = some S.workers[k] := List.getElem?_eq_getElem hlt
      have hw := hS.workers k _ hk
      have hidle : S.workers[k].stopping = false := by
        by_contra hnot
        rw [Bool.not_eq_false] at hnot
        have hat := hw.stopping hnot
        rw [hcall] at hat
        cases hat
      have hstep : Step sodium executor S .goOn _ :=
        .runWorker hcall hk (.run hidle)
      obtain ⟨es, T, hrun, hT⟩ := ih (hS.step hstep) rfl (by
        show k + 1 + m = (S.workers.set k _).length
        rw [List.length_set]
        omega)
      exact ⟨_, T, .cons hstep hrun, hT⟩

/-- `Run` returns, with the flag set. -/
theorem run_enabled (sodium : Sodium) (executor : SocketExecutor)
    (hS : S.Placed) (hidle : S.call = .idle) :
    ∃ es T, Run (Step sodium executor) S es T ∧ T.Placed ∧ T.call = .idle
      ∧ T.threadFlag = true ∧ T.stopped = S.stopped := by
  by_cases hflag : S.threadFlag = true
  · exact ⟨[], S, .nil S, hS, hidle, hflag, rfl⟩
  · have hrun : S.run = { S with threadFlag := true, call := .run 0 } :=
      if_neg hflag
    obtain ⟨es, T, hes, hT⟩ := run_returns sodium executor (S := S.run)
      (k := 0) (m := S.workers.length) (hS.run hidle) (by rw [hrun]) (by
        rw [hrun]
        exact Nat.zero_add _)
    rw [hrun] at hT
    exact ⟨_, T, .cons (.run hidle) hes, hT⟩

/-- The loop of `Stop` gets through. -/
theorem stop_returns (sodium : Sodium) (executor : SocketExecutor) {m k : Nat}
    (hS : S.Placed) (hcall : S.call = .stop k)
    (hrest : ∀ (i : Nat) (w : Worker), k ≤ i → S.workers[i]? = some w →
      w.stopping = false)
    (hm : k + m = S.workers.length) :
    ∃ es T, Run (Step sodium executor) S es T ∧ T.Placed ∧ T.call = .idle
      ∧ T.stopped = true := by
  induction m generalizing S k with
  | zero =>
      have hthread := hS.thread
      rw [ThreadAt, hcall] at hthread
      have hlast : S.call = .stop S.workers.length := by
        rw [hcall, ← hm, Nat.add_zero]
      exact ⟨[.goOn], _, .cons (.finished hlast) (.nil _), hS.finished hlast,
        rfl, hthread.2.1⟩
  | succ m ih =>
      have hlt : k < S.workers.length := by omega
      have hk : S.workers[k]? = some S.workers[k] := List.getElem?_eq_getElem hlt
      have hw := hS.workers k _ hk
      have hidle := hrest k _ le_rfl hk
      have hflag : S.workers[k].threadFlag = true := by
        rw [hw.flag, flagAt, hcall, hidle]
        simp
      obtain ⟨refs, hstop, -⟩ := hw.table.stop hflag
      generalize hu : { S.workers[k] with
        threadFlag := false, stopped := true, stopping := true
        closes := S.workers[k].closes ++ refs } = u at hstop
      have hstopping : u.stopping = true := by rw [← hu]
      have hfirst : Step sodium executor S .goOn _ :=
        .stopWorker hcall hk (.stop hidle hstop)
      have hplaced := hS.step hfirst
      rw [if_pos hstopping] at hfirst hplaced
      have hsecond : Step sodium executor _ .goOn _ :=
        .joinWorker (S := { S.setWorker k u with call := .stop k }) rfl
          (List.getElem?_set_self hlt) (.join hstopping)
      obtain ⟨es, T, hrun, hT⟩ := ih (hplaced.step hsecond) rfl (by
        intro i v hi hv
        change ((S.workers.set k _).set k _)[i]? = some v at hv
        rw [List.set_set, List.getElem?_set_ne (by omega)] at hv
        exact hrest i v (by omega) hv) (by
        show k + 1 + m = ((S.workers.set k _).set k _).length
        rw [List.length_set, List.length_set]
        omega)
      exact ⟨_, T, .cons hfirst (.cons hsecond hrun), hT⟩

/-- `Stop` returns, with the context stopped. -/
theorem stop_enabled (sodium : Sodium) (executor : SocketExecutor)
    (hS : S.Placed) (hidle : S.call = .idle) (hflag : S.threadFlag = true) :
    ∃ es T, Run (Step sodium executor) S es T ∧ T.Placed ∧ T.call = .idle
      ∧ T.stopped = true := by
  have hstop : S.stop = { S with
      threadFlag := false, stopped := true, call := .join } := if_pos hflag
  have hfirst : Step sodium executor S .stop S.stop := .stop hidle
  have hcall : S.stop.call = .join := by rw [hstop]
  have hsecond : Step sodium executor S.stop .goOn
      { S.stop with running := false, call := .stop 0 } := .joined hcall
  have hplaced := (hS.step hfirst).step hsecond
  obtain ⟨es, T, hrun, hT⟩ := stop_returns sodium executor (k := 0)
    (m := S.workers.length) hplaced rfl (by
      intro i w _ hi
      have hw := hS.workers i w (by
        rw [hstop] at hi
        exact hi)
      by_contra hnot
      rw [Bool.not_eq_false] at hnot
      have hat := hw.stopping hnot
      rw [hidle] at hat
      cases hat) (by
      rw [hstop]
      exact Nat.zero_add _)
  exact ⟨_, T, .cons hfirst (.cons hsecond hrun), hT⟩

-- ========================================================== after a stop

/-- It serves clients: a connection is accepted, or a handler runs at a
worker. -/
def Serves : ObjectEvent → Prop
  | .accept _ => True
  | .worker _ (.create _ _ _) => True
  | .worker _ (.remove _) => True
  | .worker _ (.heartbeat _ _) => True
  | _ => False

/-- A stopped worker stays so. -/
theorem stopped_kept {f : WorkerEvent} (hw : w.TableOk)
    (h : Worker.Step sodium executor w f t) (hstopped : w.stopped = true) :
    t.stopped = true := by
  rcases Worker.flags_cases hw h with
    (rfl | rfl | rfl) | ⟨-, hsame, -, -⟩
  · cases h
    unfold Worker.run
    split <;> exact hstopped
  · cases h with
    | stop hidle hstop =>
        rcases hw.stop_cases hstop with ⟨-, rfl⟩ | ⟨refs, -, -, rfl⟩
        · exact hstopped
        · rfl
  · cases h
    exact hstopped
  · exact hsame.trans hstopped

/-- So does the server's own context. -/
theorem Step.stopped_kept (h : Step sodium executor S e T)
    (hstopped : S.stopped = true) : T.stopped = true := by
  cases h with
  | run hidle =>
      unfold ServerObject.run
      split <;> exact hstopped
  | stop hidle =>
      unfold ServerObject.stop
      split
      next => rfl
      next => exact hstopped
  | _ => exact hstopped

/-- Every context is stopped. -/
structure Ended (S : ServerObject) : Prop where
  placed : S.Placed
  acceptor : S.stopped = true
  workers : ∀ w ∈ S.workers, w.stopped = true

theorem Ended.step (hS : S.Ended) (h : Step sodium executor S e T) :
    T.Ended ∧ ¬Serves e := by
  constructor
  · refine ⟨hS.placed.step h, h.stopped_kept hS.acceptor, fun v hv => ?_⟩
    rcases h.workers with hsame | ⟨i, w, t, f, hi, hstep, -, hset⟩
    · rw [hsame] at hv
      exact hS.workers v hv
    · rw [hset] at hv
      rcases List.mem_or_eq_of_mem_set hv with hold | rfl
      · exact hS.workers v hold
      · exact ServerObject.stopped_kept (hS.placed.workers i w hi).table hstep
          (hS.workers w (List.mem_of_getElem? hi))
  · intro hserves
    cases h with
    | accept hlive hpos =>
        rw [hS.acceptor] at hlive
        cases hlive.2
    | @worker i w t f hi hown hstep =>
        have hstopped := hS.workers w (List.mem_of_getElem? hi)
        have hdead : ¬w.Executes := by
          rintro ⟨-, hrunning⟩
          rw [hstopped] at hrunning
          cases hrunning
        cases f with
        | create k keys id =>
            cases hstep with
            | create hlive hk hrun => exact hdead hlive
        | remove k =>
            cases hstep with
            | remove hlive hk hrun => exact hdead hlive
        | heartbeat ec order =>
            cases hstep with
            | heartbeat hlive htimer hstale => exact hdead hlive
        | _ => exact hserves.elim
    | _ => exact hserves.elim

/-- From there nothing is served in any run. -/
theorem Ended.run (hS : S.Ended) {es : List ObjectEvent}
    (h : Run (Step sodium executor) S es T) : ∀ e ∈ es, ¬Serves e := by
  induction h with
  | nil S => exact fun e he => by cases he
  | cons hstep _ ih =>
      obtain ⟨hT, hfirst⟩ := hS.step hstep
      intro e he
      rcases List.mem_cons.mp he with rfl | hrest
      · exact hfirst
      · exact ih hT e hrest

/-- Whenever no call of `Run` or `Stop` is under way: the flags of the server
and its workers are the same. If they are set, and no `Stop` has taken
effect, the server has one `async_accept` under way and every thread runs its
handlers. Once a `Stop` that took effect has returned (one of a server that
is not running does not), in whatever follows no connection is accepted and
no worker runs a handler; yet `Run` returns, and the server is running. -/
theorem server_lifecycle {n : Nat} {clock : Int64} {es : List ObjectEvent}
    (h : Run (Step sodium executor) (start n clock) es S)
    (hidle : S.call = .idle) :
    (∀ w ∈ S.workers, w.threadFlag = S.isRunning)
      ∧ (S.stopped = false → S.isRunning = true →
        S.running = true ∧ S.accepts = 1 ∧ ∀ w ∈ S.workers, w.Executes)
      ∧ (S.stopped = true →
        (∀ (es' : List ObjectEvent) (T : ServerObject),
          Run (Step sodium executor) S es' T → ∀ e ∈ es', ¬Serves e)
        ∧ ∃ es' T, Run (Step sodium executor) S es' T ∧ T.call = .idle
          ∧ T.isRunning = true) := by
  have hS : S.Placed :=
    h.invariant (fun _ _ _ hs hstep => hs.step hstep) (start_placed n clock)
  have hthread := hS.thread
  rw [ThreadAt, hidle] at hthread
  have hat : ∀ w ∈ S.workers, w.threadFlag = S.threadFlag
      ∧ (S.stopped = true → w.stopped = true)
      ∧ (w.stopped = true → S.stopped = true) ∧ w.FlagsOk := by
    intro w hw
    obtain ⟨i, hi⟩ := List.mem_iff_getElem?.mp hw
    have hw := hS.workers i w hi
    have hstopping : w.stopping = false := by
      by_contra hnot
      rw [Bool.not_eq_false] at hnot
      have hcall := hw.stopping hnot
      rw [hidle] at hcall
      cases hcall
    refine ⟨?_, fun hstopped => hw.halted ?_, hw.unstopped, hw.flags⟩
    · rw [hw.flag, flagAt, hidle, hstopping, Bool.not_false, Bool.and_true]
    · rw [HaltedAt, hidle]
      exact hstopped
  refine ⟨fun w hw => (hat w hw).1, fun hfree hflag => ?_, fun hstopped => ?_⟩
  · obtain ⟨hrunning, haccepts⟩ := hthread.2 hfree
    have hset : S.threadFlag = true := hflag
    rw [hset] at hrunning haccepts
    refine ⟨hrunning, haccepts, fun w hw => ?_⟩
    obtain ⟨hsame, -, hunstopped, hflags⟩ := hat w hw
    have hlive : w.stopped = false := by
      by_contra hnot
      rw [hunstopped (by simpa using hnot)] at hfree
      cases hfree
    exact ⟨(hflags.running hlive).trans (hsame.trans hset), hlive⟩
  · have hended : S.Ended := ⟨hS, hstopped, fun w hw => (hat w hw).2.1 hstopped⟩
    obtain ⟨es', T, hrun, -, hcall, hflag, -⟩ :=
      run_enabled sodium executor hS hidle
    exact ⟨fun es' T hrun => hended.run hrun, es', T, hrun, hcall, hflag⟩

/-- A server with two workers that was run, stopped and run again. -/
theorem server_lifecycle_again : ∃ es S T es',
    Run (Step ⟨id, fun _ _ => none, id⟩ .worker) (start 2 0) es S
      ∧ S.call = .idle ∧ S.stopped = true
      ∧ Run (Step ⟨id, fun _ _ => none, id⟩ .worker) S es' T
      ∧ T.isRunning = true ∧ ∀ e ∈ es', ¬Serves e := by
  obtain ⟨es₁, S₁, h₁, hS₁, hidle₁, hflag₁, -⟩ := run_enabled
    ⟨id, fun _ _ => none, id⟩ .worker (start_placed 2 0) rfl
  obtain ⟨es₂, S₂, h₂, hS₂, hidle₂, hstopped₂⟩ := stop_enabled
    ⟨id, fun _ _ => none, id⟩ .worker hS₁ hidle₁ hflag₁
  obtain ⟨-, -, hafter⟩ := server_lifecycle (h₁.append h₂) hidle₂
  obtain ⟨hnothing, es', T, hrun, -, hflag⟩ := hafter hstopped₂
  exact ⟨_, S₂, T, es', h₁.append h₂, hidle₂, hstopped₂, hrun, hflag,
    hnothing es' T hrun⟩

end ServerObject

end Remc.Net
