/-
The read loop of a server session and `ResetReadCallback` (server.h).

A read's completion handler starts the next read with the same callback.
`ResetReadCallback` is to end that loop and to begin one with another
callback: it emits on `reset_signal_`, which is bound to the newest read,
and posts a `Read`. The signal aborts a read that is still pending; it does
nothing to one that has completed, whose handler then goes on with the old
loop beside the new one.

One thread runs the handlers and the posted `Read`s of the socket, so they
do not overlap (`running`); `ResetReadCallback` runs on any thread, also in
the midst of them. They are cut into steps where that can matter: when the
buffer has gone to the pool, whose callback may call `ResetReadCallback` at
once, and between `reset_signal_.emplace()` and `async_read_some`, when the
signal is bound to nothing. An emit elsewhere does what it does right before
the step.

A loop is alive as a pending read, as a completed read whose handler is
queued, as a handler or a `ReadImpl` that has not come to its
`async_read_some`, or as a `Read` yet to be posted or run (`loops`). Only
`ResetReadCallback` adds one, and it takes one away just where it finds a
read pending; so the session stays with one loop exactly if it is called
with none in transit (`oneReadLoop_iff`).
-/
import Remc.Net.Peer

namespace Remc.Net

open Crypto Runs

/-- The error codes that the completion handler tells apart. -/
inductive ReadError where
  | operationAborted
  | other
deriving DecidableEq, Repr

/-- Where an `async_read_some` stands. -/
inductive ReadStatus where
  | pending
  /-- It has completed, and its handler has not run. -/
  | queued (result : Except ReadError Bytes)
  | done

/-- An `async_read_some` and the callback its handler has captured: 0 is
that of the first `Read`, `n` that of the `n`-th `ResetReadCallback`. -/
structure AsyncRead where
  callback : Nat
  status : ReadStatus := .pending

namespace AsyncRead

def isPending (read : AsyncRead) : Bool :=
  match read.status with
  | .pending => true
  | _ => false

/-- Its handler has not run, and may start another read. -/
def isAlive (read : AsyncRead) : Bool :=
  match read.status with
  | .pending => true
  | .queued (.ok _) => true
  | _ => false

/-- It has completed without an error, and its handler has not run. -/
def isQueued (read : AsyncRead) : Bool :=
  match read.status with
  | .queued (.ok _) => true
  | _ => false

end AsyncRead

/-- What the socket's thread has begun. -/
inductive Running where
  /-- A completion handler that has given its buffer to the pool: its
  `Read` comes next. -/
  | handler (callback : Nat)
  /-- `ReadImpl`, up to `reset_signal_.emplace()`: its `async_read_some`
  comes next. -/
  | readImpl (callback : Nat)

def Running.callback : Running → Nat
  | .handler callback => callback
  | .readImpl callback => callback

/-- The read side of a session. -/
structure Reader where
  session : Session
  /-- The reads started, oldest first. -/
  reads : List AsyncRead := []
  /-- `reset_signal_`: the read bound to its slot. -/
  resetSignal : Option Nat := none
  /-- The calls of `ResetReadCallback` so far. -/
  resets : Nat := 0
  /-- The callbacks of those that have emitted and not yet posted. -/
  emitted : List Nat := []
  /-- The callbacks of the posted `Read`s yet to run, oldest first. -/
  posted : List Nat := []
  running : Option Running := none
  /-- What was given to a callback, and by which read. -/
  delivered : List (Nat × Bytes) := []
  /-- The calls of `RemoveSession`. -/
  removals : Nat := 0

/-- What can happen on the read side. -/
inductive ReadEvent where
  /-- `ResetReadCallback` emits. -/
  | reset
  /-- The call with this callback posts its `Read`. -/
  | post (callback : Nat)
  /-- The oldest posted `Read` runs, up to `reset_signal_.emplace()`. -/
  | run
  /-- Read `i` completes. -/
  | complete (i : Nat) (result : Except ReadError Bytes)
  /-- The completion handler of read `i` runs, up to its `Read`. -/
  | handler (i : Nat) (now : Int64)
  /-- The `Read` of the handler calls `reset_signal_.emplace()`. -/
  | emplace
  /-- The running `ReadImpl` starts its read. -/
  | asyncReadSome

namespace Reader

def setStatus (r : Reader) (i : Nat) (status : ReadStatus) : Reader :=
  { r with reads := r.reads.modify i fun read => { read with status } }

/-- `ReadImpl`, up to `reset_signal_.emplace()`. -/
def readImpl (r : Reader) (callback : Nat) : Reader :=
  { r with
    resetSignal := none
    running := some (.readImpl callback) }

/-- Its `async_read_some`, with the slot of the signal. -/
def asyncReadSome (r : Reader) (callback : Nat) : Reader :=
  { r with
    reads := r.reads ++ [{ callback }]
    resetSignal := some r.reads.length
    running := none }

/-- `reset_signal_->emit`: an operation that is still pending completes
with `operation_aborted`. -/
def emit (r : Reader) : Reader :=
  match r.resetSignal with
  | none => r
  | some i =>
      match r.reads[i]? with
      | some { status := .pending, .. } =>
          r.setStatus i (.queued (.error .operationAborted))
      | _ => r

/-- `ResetReadCallback`, up to its `post`. -/
def resetReadCallback (r : Reader) : Reader :=
  { r.emit with
    resets := r.resets + 1
    emitted := r.emitted ++ [r.resets + 1] }

/-- The completion handler of read `i`, up to its `Read`. -/
def completed (r : Reader) (now : Int64) (i callback : Nat) :
    Except ReadError Bytes → Reader
  -- next callbacks generation
  | .error .operationAborted => r.setStatus i .done
  -- any other error? kill myself
  | .error .other => { r.setStatus i .done with removals := r.removals + 1 }
  | .ok chunk =>
      { r.setStatus i .done with
        session := r.session.completeRead now
        delivered := r.delivered ++ [(i, readBuffer chunk)]
        running := some (.handler callback) }

/-- A session whose `Read` has been called once. -/
def start (session : Session) : Reader :=
  asyncReadSome { session } 0

/-- One step. -/
inductive Step : Reader → ReadEvent → Reader → Prop
  | reset {r : Reader} : Step r .reset r.resetReadCallback
  | post {r : Reader} {callback : Nat} (hcall : callback ∈ r.emitted) :
      Step r (.post callback)
        { r with
          emitted := r.emitted.erase callback
          posted := r.posted ++ [callback] }
  | run {r : Reader} {callback : Nat} {rest : List Nat}
      (hfree : r.running = none) (hposted : r.posted = callback :: rest) :
      Step r .run (readImpl { r with posted := rest } callback)
  | complete {r : Reader} {i : Nat} {result : Except ReadError Bytes}
      {callback : Nat} (hread : r.reads[i]? = some { callback })
      (hsize : ∀ chunk, result = .ok chunk →
        chunk ≠ [] ∧ chunk.length ≤ tcpTotalPacketSize) :
      Step r (.complete i result) (r.setStatus i (.queued result))
  | handler {r : Reader} {i : Nat} {now : Int64} {callback : Nat}
      {result : Except ReadError Bytes} (hfree : r.running = none)
      (hread : r.reads[i]? = some { callback, status := .queued result }) :
      Step r (.handler i now) (r.completed now i callback result)
  | emplace {r : Reader} {callback : Nat}
      (hrunning : r.running = some (.handler callback)) :
      Step r .emplace (r.readImpl callback)
  | asyncReadSome {r : Reader} {callback : Nat}
      (hrunning : r.running = some (.readImpl callback)) :
      Step r .asyncReadSome (r.asyncReadSome callback)

/-- The reads outstanding on the socket. -/
def pending (r : Reader) : Nat := r.reads.countP AsyncRead.isPending

/-- The successful reads whose handlers are queued. -/
def queued (r : Reader) : Nat := r.reads.countP AsyncRead.isQueued

/-- The reads that have not ended and may start another. -/
def alive (r : Reader) : Nat := r.reads.countP AsyncRead.isAlive

/-- The callbacks of the reads on their way that have not started: of the
handler or `ReadImpl` that runs, and of the `Read`s yet to run. -/
def waiting (r : Reader) : List Nat :=
  (r.running.map Running.callback).toList ++ (r.emitted ++ r.posted)

/-- The loops alive. -/
def loops (r : Reader) : Nat := r.alive + r.waiting.length

/-- Whatever was delivered went to a callback at least as new as that of
any read started before. -/
def DeliversToLatest (r : Reader) : Prop :=
  ∀ i buffer, (i, buffer) ∈ r.delivered → ∀ j older newer, j < i →
    r.reads[j]? = some older → r.reads[i]? = some newer →
      older.callback ≤ newer.callback

/-- One read at a time, for the latest callback. -/
structure OneReadLoop (r : Reader) : Prop where
  one : r.pending ≤ 1
  latest : r.DeliversToLatest

/-- `ResetReadCallback` emits with no successful read waiting for its
handler, and no other read on its way. -/
def ResetsSettled (r : Reader) : ReadEvent → Prop
  | .reset => r.queued = 0 ∧ r.waiting = []
  | _ => True

/-- No further `ResetReadCallback`. -/
def NoReset (_ : Reader) : ReadEvent → Prop
  | .reset => False
  | _ => True

-- ================================================================ counting

/-- What changing one entry does to a count. -/
theorem countP_modify {α : Type} (p : α → Bool) (f : α → α) {l : List α}
    {i : Nat} {a : α} (h : l[i]? = some a) :
    (l.modify i f).countP p + (p a).toNat = l.countP p + (p (f a)).toNat := by
  induction l generalizing i with
  | nil => cases h
  | cons b l ih =>
      cases i with
      | zero =>
          cases h
          simp only [List.modify_zero_cons, List.countP_cons]
          cases p a <;> cases p (f a) <;> simp
      | succ i =>
          have hrest := ih (i := i) (by simpa using h)
          simp only [List.modify_succ_cons, List.countP_cons]
          omega

/-- A read that is alive is pending or queued. -/
theorem alive_eq (r : Reader) : r.alive = r.pending + r.queued := by
  unfold alive pending queued
  induction r.reads with
  | nil => rfl
  | cons read reads ih =>
      rw [List.countP_cons, List.countP_cons, List.countP_cons, ih]
      rcases read with ⟨callback, _ | ⟨error | chunk⟩ | _⟩ <;>
        simp [AsyncRead.isAlive, AsyncRead.isPending, AsyncRead.isQueued,
          Nat.add_right_comm, Nat.add_assoc]

theorem isAlive_of_pending {read : AsyncRead} (h : read.isPending = true) :
    read.isAlive = true := by
  rcases read with ⟨callback, _ | _ | _⟩
  · rfl
  · cases h
  · cases h

theorem pending_le_loops (r : Reader) : r.pending ≤ r.loops := by
  have halive := alive_eq r
  unfold loops
  omega

/-- A read that is alive counts. -/
theorem alive_pos {r : Reader} {i : Nat} {read : AsyncRead}
    (hread : r.reads[i]? = some read) (halive : read.isAlive = true) :
    0 < r.alive :=
  List.countP_pos_iff.mpr ⟨read, List.mem_of_getElem? hread, halive⟩

/-- With no read alive there is none among the reads. -/
theorem dead_of_alive {r : Reader} (h : r.alive = 0) {i : Nat}
    {read : AsyncRead} (hread : r.reads[i]? = some read) :
    read.isAlive = false := by
  by_contra halive
  have hpos := alive_pos hread (by simpa using halive)
  omega

/-- The callbacks of the reads started. -/
def callbacks (r : Reader) : List Nat := r.reads.map AsyncRead.callback

@[simp] theorem setStatus_callbacks (r : Reader) (i : Nat) (status : ReadStatus) :
    (r.setStatus i status).callbacks = r.callbacks := by
  unfold callbacks setStatus
  refine List.ext_getElem? fun j => ?_
  by_cases hj : i = j
  · subst hj
    simp [Function.comp_def]
  · simp [List.getElem?_modify_ne _ _ hj]

@[simp] theorem setStatus_length (r : Reader) (i : Nat) (status : ReadStatus) :
    (r.setStatus i status).reads.length = r.reads.length :=
  List.length_modify ..

@[simp] theorem asyncReadSome_callbacks (r : Reader) (callback : Nat) :
    (r.asyncReadSome callback).callbacks = r.callbacks ++ [callback] := by
  simp [callbacks, asyncReadSome]

/-- A read is an old one or the one just started. -/
theorem asyncReadSome_getElem {r : Reader} {callback i : Nat}
    {read : AsyncRead} (h : (r.asyncReadSome callback).reads[i]? = some read) :
    (i = r.reads.length ∧ read = { callback }) ∨ r.reads[i]? = some read := by
  have happ : (r.reads ++ [({ callback } : AsyncRead)])[i]? = some read := h
  rcases Nat.lt_trichotomy i r.reads.length with hlt | heq | hgt
  · rw [List.getElem?_append_left hlt] at happ
    exact Or.inr happ
  · rw [heq, List.getElem?_concat_length] at happ
    cases happ
    exact Or.inl ⟨heq, rfl⟩
  · rw [List.getElem?_eq_none (by simp; omega)] at happ
    cases happ

@[simp] theorem asyncReadSome_alive (r : Reader) (callback : Nat) :
    (r.asyncReadSome callback).alive = r.alive + 1 := by
  simp [alive, asyncReadSome, AsyncRead.isAlive]

@[simp] theorem asyncReadSome_queued (r : Reader) (callback : Nat) :
    (r.asyncReadSome callback).queued = r.queued := by
  simp [queued, asyncReadSome, AsyncRead.isQueued]

section Status

variable {r : Reader} {i : Nat} {old : AsyncRead}

theorem setStatus_alive (h : r.reads[i]? = some old) (status : ReadStatus) :
    (r.setStatus i status).alive + old.isAlive.toNat
      = r.alive + ({ old with status } : AsyncRead).isAlive.toNat :=
  countP_modify _ _ h

theorem setStatus_queued (h : r.reads[i]? = some old) (status : ReadStatus) :
    (r.setStatus i status).queued + old.isQueued.toNat
      = r.queued + ({ old with status } : AsyncRead).isQueued.toNat :=
  countP_modify _ _ h

/-- A read that is alive afterwards was alive, or is the one that has
changed. -/
theorem setStatus_getElem {status : ReadStatus} {j : Nat} {new : AsyncRead}
    (h : r.reads[i]? = some old)
    (hnew : (r.setStatus i status).reads[j]? = some new) :
    (j = i ∧ new = { old with status }) ∨ r.reads[j]? = some new := by
  unfold setStatus at hnew
  by_cases hj : i = j
  · subst hj
    rw [List.getElem?_modify_eq, h] at hnew
    cases hnew
    exact Or.inl ⟨rfl, rfl⟩
  · rw [List.getElem?_modify_ne _ _ hj] at hnew
    exact Or.inr hnew

/-- Emitting aborts a read that is pending. -/
theorem emit_pending (hbound : r.resetSignal = some i) {callback : Nat}
    (h : r.reads[i]? = some { callback }) :
    r.emit = r.setStatus i (.queued (.error .operationAborted)) := by
  simp [emit, hbound, h]

end Status

/-- It does nothing where none is. -/
theorem emit_quiet {r : Reader} (h : r.pending = 0) : r.emit = r := by
  unfold emit
  split
  next => rfl
  next i hbound =>
    split
    next callback hread =>
      have hpos : 0 < r.pending :=
        List.countP_pos_iff.mpr ⟨_, List.mem_of_getElem? hread, rfl⟩
      omega
    next => rfl

-- ================================================================ one loop

/-- At most one loop is alive, and it is the newest. -/
structure Single (r : Reader) : Prop where
  bound : ∀ i read, r.reads[i]? = some read → read.isPending = true →
    r.resetSignal = some i
  single : r.loops ≤ 1
  newest : ∀ i read, r.reads[i]? = some read → read.isAlive = true →
    i + 1 = r.reads.length
  sorted : r.callbacks.Pairwise (· ≤ ·)
  given : ∀ callback ∈ r.callbacks, callback ≤ r.resets
  coming : ∀ callback ∈ r.waiting,
    callback ≤ r.resets ∧ ∀ older ∈ r.callbacks, older ≤ callback

/-- A single loop reads one buffer at a time, for the latest callback. -/
theorem Single.oneReadLoop {r : Reader} (h : r.Single) : r.OneReadLoop where
  one := (pending_le_loops r).trans h.single
  latest i buffer _ j older newer hlt hj hi := by
    have hj' : r.callbacks[j]? = some older.callback := by
      simp [callbacks, hj]
    have hi' : r.callbacks[i]? = some newer.callback := by
      simp [callbacks, hi]
    obtain ⟨hjlt, holder⟩ := List.getElem?_eq_some_iff.mp hj'
    obtain ⟨hilt, hnewer⟩ := List.getElem?_eq_some_iff.mp hi'
    rw [← holder, ← hnewer]
    exact List.pairwise_iff_getElem.mp h.sorted j i hjlt hilt hlt

/-- Where no read is alive, the loop is the one on its way. -/
theorem single_of_dead {r : Reader} (halive : r.alive = 0)
    (hsingle : r.waiting.length ≤ 1) (hsorted : r.callbacks.Pairwise (· ≤ ·))
    (hgiven : ∀ callback ∈ r.callbacks, callback ≤ r.resets)
    (hcoming : ∀ callback ∈ r.waiting,
      callback ≤ r.resets ∧ ∀ older ∈ r.callbacks, older ≤ callback) :
    r.Single := by
  refine ⟨?_, ?_, ?_, hsorted, hgiven, hcoming⟩
  · intro i read hread hpending
    have hdead := dead_of_alive halive hread
    rw [isAlive_of_pending hpending] at hdead
    cases hdead
  · unfold loops
    omega
  · intro i read hread hlive
    rw [dead_of_alive halive hread] at hlive
    cases hlive

/-- Where a read is alive none is on its way. -/
theorem Single.alone {r : Reader} (h : r.Single) {i : Nat} {read : AsyncRead}
    (hread : r.reads[i]? = some read) (halive : read.isAlive = true) :
    r.alive = 1 ∧ r.waiting = [] := by
  have hpos := alive_pos hread halive
  have hsingle := h.single
  unfold loops at hsingle
  exact ⟨by omega, List.eq_nil_of_length_eq_zero (by omega)⟩

/-- Where one is on its way it is the only one. -/
theorem Single.coming_alone {r : Reader} (h : r.Single) {callback : Nat}
    (hmem : callback ∈ r.waiting) : r.alive = 0 ∧ r.waiting = [callback] := by
  have hpos := List.length_pos_of_mem hmem
  have hsingle := h.single
  unfold loops at hsingle
  obtain ⟨other, hone⟩ := List.length_eq_one_iff.mp (by omega :
    r.waiting.length = 1)
  rw [hone, List.mem_singleton] at hmem
  exact ⟨by omega, hmem ▸ hone⟩

/-- Emitting may end a read and does nothing else. -/
theorem emit_frame (r : Reader) :
    r.emit.callbacks = r.callbacks ∧ r.emit.running = r.running
      ∧ r.emit.posted = r.posted := by
  unfold emit
  split
  next => exact ⟨rfl, rfl, rfl⟩
  next i hbound =>
    split
    next callback hread => exact ⟨by simp, rfl, rfl⟩
    next => exact ⟨rfl, rfl, rfl⟩

/-- `ResetReadCallback` adds the read that it is to post. -/
theorem resetReadCallback_waiting (r : Reader) :
    r.resetReadCallback.waiting.Perm ((r.resets + 1) :: r.waiting) := by
  obtain ⟨-, hrunning, hposted⟩ := emit_frame r
  show ((r.emit.running.map Running.callback).toList
    ++ (r.emitted ++ [r.resets + 1] ++ r.emit.posted)).Perm _
  rw [hrunning, hposted, List.append_assoc, List.singleton_append]
  exact (List.perm_middle.append_left _).trans List.perm_middle

/-- With a single loop it ends whatever is pending. -/
theorem Single.emit_alive {r : Reader} (h : r.Single) :
    r.emit.alive = r.queued := by
  have hloops := h.single
  have halive := alive_eq r
  unfold loops at hloops
  rcases Nat.eq_zero_or_pos r.pending with hnone | hpos
  · rw [emit_quiet hnone]
    omega
  · obtain ⟨read, hmem, hpending⟩ := List.countP_pos_iff.mp hpos
    obtain ⟨i, hread⟩ := List.mem_iff_getElem?.mp hmem
    have hbound := h.bound i read hread hpending
    rcases read with ⟨callback, _ | _ | _⟩
    · have hset := setStatus_alive hread (.queued (.error .operationAborted))
      rw [emit_pending hbound hread]
      simp [AsyncRead.isAlive] at hset
      omega
    · cases hpending
    · cases hpending

/-- `ResetReadCallback` keeps a loop single where none is in transit. -/
theorem Single.reset {r : Reader} (h : r.Single) (hqueued : r.queued = 0)
    (hwaiting : r.waiting = []) : r.resetReadCallback.Single := by
  obtain ⟨hcallbacks, -, -⟩ := emit_frame r
  have hcoming := resetReadCallback_waiting r
  rw [hwaiting] at hcoming
  apply single_of_dead
  · exact h.emit_alive.trans hqueued
  · rw [hcoming.length_eq]
    exact le_rfl
  · show r.emit.callbacks.Pairwise _
    rw [hcallbacks]
    exact h.sorted
  · intro callback hmem
    have hold := h.given callback (hcallbacks ▸ hmem)
    show callback ≤ r.resets + 1
    omega
  · intro callback hmem
    obtain rfl := List.mem_singleton.mp (hcoming.mem_iff.mp hmem)
    refine ⟨le_rfl, fun older holder => ?_⟩
    have hold := h.given older (hcallbacks ▸ holder)
    omega

/-- A read on its way goes on and keeps a loop single. -/
theorem Single.move {r t : Reader} (h : r.Single) {callback : Nat}
    (hmem : callback ∈ r.waiting) (hperm : t.waiting.Perm r.waiting)
    (hreads : t.reads = r.reads) (hresets : t.resets = r.resets) :
    t.Single := by
  obtain ⟨halive, hwaiting⟩ := h.coming_alone hmem
  have hcallbacks : t.callbacks = r.callbacks := by
    unfold callbacks
    rw [hreads]
  apply single_of_dead
  · unfold alive
    rw [hreads]
    exact halive
  · rw [hperm.length_eq, hwaiting]
    exact le_rfl
  · rw [hcallbacks]
    exact h.sorted
  · rw [hcallbacks, hresets]
    exact h.given
  · intro other hother
    rw [hcallbacks, hresets]
    exact h.coming other (hperm.mem_iff.mp hother)

/-- Posting its `Read` moves a call along. -/
theorem post_waiting {r : Reader} {callback : Nat}
    (hcall : callback ∈ r.emitted) :
    (waiting { r with
      emitted := r.emitted.erase callback
      posted := r.posted ++ [callback] }).Perm r.waiting := by
  refine List.Perm.append_left _ ?_
  show (r.emitted.erase callback ++ (r.posted ++ [callback])).Perm
    (r.emitted ++ r.posted)
  rw [← List.append_assoc]
  refine List.perm_append_comm.trans ?_
  rw [← List.append_assoc, List.singleton_append]
  exact (List.perm_cons_erase hcall).symm.append_right _

/-- A posted `Read` that runs is still on its way. -/
theorem run_waiting {r : Reader} {callback : Nat} {rest : List Nat}
    (hfree : r.running = none) (hposted : r.posted = callback :: rest) :
    (waiting (readImpl { r with posted := rest } callback)).Perm r.waiting := by
  have hold : r.waiting = r.emitted ++ callback :: rest := by
    unfold waiting
    rw [hfree, hposted]
    rfl
  rw [hold]
  show (callback :: (r.emitted ++ rest)).Perm (r.emitted ++ callback :: rest)
  exact List.perm_middle.symm

/-- So is one after `reset_signal_.emplace()`. -/
theorem emplace_waiting {r : Reader} {callback : Nat}
    (hrunning : r.running = some (.handler callback)) :
    (r.readImpl callback).waiting = r.waiting := by
  unfold waiting
  rw [hrunning]
  rfl

/-- The read that a running `ReadImpl` starts is no longer on its way. -/
theorem asyncReadSome_waiting {r : Reader} {callback : Nat}
    (hrunning : r.running = some (.readImpl callback)) :
    r.waiting = callback :: (r.asyncReadSome callback).waiting := by
  unfold waiting
  rw [hrunning]
  rfl

/-- A read that starts where it was the only one on its way is the only one
alive. -/
theorem Single.asyncReadSome {r : Reader} (h : r.Single) {callback : Nat}
    (hrunning : r.running = some (.readImpl callback)) :
    (r.asyncReadSome callback).Single := by
  have hmoved := asyncReadSome_waiting hrunning
  have hmem : callback ∈ r.waiting := by
    rw [hmoved]
    exact List.mem_cons_self
  obtain ⟨halive, hwaiting⟩ := h.coming_alone hmem
  obtain ⟨hgiven, hnew⟩ := h.coming callback hmem
  rw [hwaiting] at hmoved
  have hnone : (r.asyncReadSome callback).waiting = [] :=
    (List.cons.inj hmoved).2.symm
  have hlast : ∀ i read, (r.asyncReadSome callback).reads[i]? = some read →
      read.isAlive = true → i = r.reads.length := by
    intro i read hread hlive
    rcases asyncReadSome_getElem hread with ⟨hi, -⟩ | hold
    · exact hi
    · rw [dead_of_alive halive hold] at hlive
      cases hlive
  constructor
  · intro i read hread hpending
    rw [hlast i read hread (isAlive_of_pending hpending)]
    rfl
  · unfold loops
    rw [asyncReadSome_alive, halive, hnone]
    exact le_rfl
  · intro i read hread hlive
    rw [hlast i read hread hlive]
    simp [Reader.asyncReadSome]
  · rw [asyncReadSome_callbacks]
    refine List.pairwise_append.mpr
      ⟨h.sorted, List.pairwise_singleton .., ?_⟩
    simpa using hnew
  · intro older hmem'
    rw [asyncReadSome_callbacks] at hmem'
    rcases List.mem_append.mp hmem' with hold | hnewest
    · exact h.given older hold
    · rw [List.mem_singleton.mp hnewest]
      exact hgiven
  · rw [hnone]
    intro coming hcoming
    cases hcoming

/-- A read that goes on to a status with no more life in it keeps a loop
single. -/
theorem Single.setStatus {r : Reader} (h : r.Single) {i : Nat}
    {old : AsyncRead} {status : ReadStatus} (hold : r.reads[i]? = some old)
    (hended : ({ old with status } : AsyncRead).isPending = false)
    (hlive : ({ old with status } : AsyncRead).isAlive = true →
      old.isAlive = true) :
    (r.setStatus i status).Single := by
  constructor
  · intro j new hnew hpending
    rcases setStatus_getElem hold hnew with ⟨-, rfl⟩ | hsame
    · rw [hended] at hpending
      cases hpending
    · exact h.bound j new hsame hpending
  · have hset := setStatus_alive hold status
    have hle : ({ old with status } : AsyncRead).isAlive.toNat
        ≤ old.isAlive.toNat := by
      cases hnew : ({ old with status } : AsyncRead).isAlive with
      | false => exact Nat.zero_le _
      | true => rw [hlive hnew]
    have hsingle := h.single
    show (r.setStatus i status).alive + r.waiting.length ≤ 1
    unfold loops at hsingle
    omega
  · intro j new hnew halive
    rw [setStatus_length]
    rcases setStatus_getElem hold hnew with ⟨rfl, rfl⟩ | hsame
    · exact h.newest j old hold (hlive halive)
    · exact h.newest j new hsame halive
  · rw [setStatus_callbacks]
    exact h.sorted
  · intro callback hmem
    rw [setStatus_callbacks] at hmem
    exact h.given callback hmem
  · intro callback hmem
    rw [setStatus_callbacks]
    exact h.coming callback hmem

/-- The newest read has the newest callback. -/
theorem Single.le_newest {r : Reader} (h : r.Single) {i : Nat}
    {read : AsyncRead} (hread : r.reads[i]? = some read)
    (hlast : i + 1 = r.reads.length) :
    ∀ older ∈ r.callbacks, older ≤ read.callback := by
  intro older hmem
  obtain ⟨j, hj⟩ := List.mem_iff_getElem?.mp hmem
  obtain ⟨hjlt, rfl⟩ := List.getElem?_eq_some_iff.mp hj
  have hi : r.callbacks[i]? = some read.callback := by
    simp [callbacks, hread]
  obtain ⟨hilt, hval⟩ := List.getElem?_eq_some_iff.mp hi
  have hlength : r.callbacks.length = r.reads.length := List.length_map ..
  rw [← hval]
  by_cases hji : j = i
  · subst hji
    exact le_rfl
  · exact List.pairwise_iff_getElem.mp h.sorted j i hjlt hilt (by omega)

/-- A successful read hands its loop over to its handler. -/
theorem Single.delivers {r : Reader} (h : r.Single) {i callback : Nat}
    {chunk : Bytes} (now : Int64)
    (hread : r.reads[i]? = some { callback, status := .queued (.ok chunk) }) :
    (r.completed now i callback (.ok chunk)).Single := by
  obtain ⟨halive, hwaiting⟩ := h.alone hread rfl
  have hset := setStatus_alive hread .done
  have hcallbacks : (r.completed now i callback (.ok chunk)).callbacks
      = r.callbacks := setStatus_callbacks r i .done
  have hcoming : (r.completed now i callback (.ok chunk)).waiting
      = [callback] := by
    have hrest := (List.append_eq_nil_iff.mp hwaiting).2
    show callback :: (r.emitted ++ r.posted) = [callback]
    rw [hrest]
  have hgiven := h.given callback
    (List.mem_map.mpr ⟨_, List.mem_of_getElem? hread, rfl⟩)
  apply single_of_dead
  · show (r.setStatus i .done).alive = 0
    simp [AsyncRead.isAlive] at hset
    omega
  · rw [hcoming]
    exact le_rfl
  · rw [hcallbacks]
    exact h.sorted
  · rw [hcallbacks]
    exact h.given
  · rw [hcoming, hcallbacks]
    intro other hother
    rw [List.mem_singleton.mp hother]
    exact ⟨hgiven, h.le_newest hread (h.newest i _ hread rfl)⟩

/-- A read handler keeps a loop single. -/
theorem Single.completed {r : Reader} (h : r.Single) {i callback : Nat}
    {result : Except ReadError Bytes} (now : Int64)
    (hread : r.reads[i]? = some { callback, status := .queued result }) :
    (r.completed now i callback result).Single := by
  have hdone : (r.setStatus i .done).Single :=
    h.setStatus hread rfl fun hlive => by cases hlive
  rcases result with ⟨_ | _⟩ | chunk
  · exact hdone
  · exact ⟨hdone.bound, hdone.single, hdone.newest, hdone.sorted, hdone.given,
      hdone.coming⟩
  · exact h.delivers now hread

/-- Whatever happens, as long as `ResetReadCallback` comes with none in
transit. -/
theorem Single.step {r t : Reader} {e : ReadEvent} (h : r.Single)
    (hstep : Step r e t) (hsettled : ResetsSettled r e) : t.Single := by
  cases hstep with
  | reset =>
      obtain ⟨hqueued, hwaiting⟩ := hsettled
      exact h.reset hqueued hwaiting
  | @post callback hcall =>
      have hmem : callback ∈ r.waiting :=
        List.mem_append_right _ (List.mem_append_left _ hcall)
      exact h.move hmem (post_waiting hcall) rfl rfl
  | @run callback rest hfree hposted =>
      have hmem : callback ∈ r.waiting := by
        refine List.mem_append_right _ (List.mem_append_right _ ?_)
        rw [hposted]
        exact List.mem_cons_self
      exact h.move hmem (run_waiting hfree hposted) rfl rfl
  | complete hread hsize => exact h.setStatus hread rfl fun _ => rfl
  | handler hfree hread => exact h.completed _ hread
  | @emplace callback hrunning =>
      have hmem : callback ∈ r.waiting := by
        rw [← emplace_waiting hrunning]
        exact List.mem_cons_self
      exact h.move hmem (List.Perm.of_eq (emplace_waiting hrunning)) rfl rfl
  | asyncReadSome hrunning => exact h.asyncReadSome hrunning

theorem start_single (session : Session) : (start session).Single := by
  have hbefore : Single { session, running := some (.readImpl 0) } := by
    refine single_of_dead rfl le_rfl List.Pairwise.nil ?_ ?_
    · intro callback hmem
      cases hmem
    · intro callback hmem
      obtain rfl := List.mem_singleton.mp hmem
      exact ⟨le_rfl, fun older holder => by cases holder⟩
  exact hbefore.asyncReadSome rfl

-- ============================================================ more than one

/-- The steps from what runs to its `async_read_some`. -/
def toStart : Option Running → Nat
  | none => 0
  | some (.handler _) => 2
  | some (.readImpl _) => 1

/-- What is still to happen before every loop alive is a pending read. -/
def transit (r : Reader) : Nat :=
  4 * r.emitted.length + 3 * r.posted.length + 3 * r.queued
    + toStart r.running

/-- What the socket's thread has begun goes on. -/
theorem transit_running {r : Reader} {running : Running}
    (hrunning : r.running = some running) :
    ∃ e t, When Step NoReset r e t ∧ t.loops = r.loops
      ∧ t.transit < r.transit := by
  cases running with
  | handler callback =>
      refine ⟨.emplace, _, ⟨.emplace hrunning, trivial⟩, ?_, ?_⟩
      · unfold loops
        rw [emplace_waiting hrunning]
        rfl
      · unfold transit
        rw [hrunning]
        show _ + 1 < _ + 2
        exact Nat.lt_succ_self _
  | readImpl callback =>
      refine ⟨.asyncReadSome, _, ⟨.asyncReadSome hrunning, trivial⟩, ?_, ?_⟩
      · unfold loops
        rw [asyncReadSome_waiting hrunning, asyncReadSome_alive,
          List.length_cons]
        omega
      · unfold transit
        rw [hrunning, asyncReadSome_queued]
        exact Nat.lt_succ_self _

/-- The handler of a successful read runs. -/
theorem transit_handler {r : Reader} (hfree : r.running = none)
    (h : 0 < r.queued) :
    ∃ e t, When Step NoReset r e t ∧ t.loops = r.loops
      ∧ t.transit < r.transit := by
  obtain ⟨read, hmem, hqueued⟩ := List.countP_pos_iff.mp h
  obtain ⟨i, hi⟩ := List.mem_iff_getElem?.mp hmem
  rcases read with ⟨callback, _ | ⟨error | chunk⟩ | _⟩
  case queued.ok =>
    have halive := setStatus_alive hi .done
    have hdone := setStatus_queued hi .done
    simp [AsyncRead.isAlive] at halive
    simp [AsyncRead.isQueued] at hdone
    refine ⟨.handler i 0, _, ⟨.handler hfree hi, trivial⟩, ?_, ?_⟩
    · unfold loops waiting
      rw [hfree]
      show (r.setStatus i .done).alive
        + (callback :: (r.emitted ++ r.posted)).length
          = r.alive + (r.emitted ++ r.posted).length
      rw [List.length_cons]
      omega
    · unfold transit
      rw [hfree]
      show _ + 3 * (r.setStatus i .done).queued + 2 < _ + 0
      show 4 * r.emitted.length + 3 * r.posted.length
        + 3 * (r.setStatus i .done).queued + 2 < _
      omega
  all_goals cases hqueued

/-- A loop in transit can go on by itself. -/
theorem transit_step {r : Reader} (h : r.transit ≠ 0) :
    ∃ e t, When Step NoReset r e t ∧ t.loops = r.loops
      ∧ t.transit < r.transit := by
  cases hrunning : r.running with
  | some running => exact transit_running hrunning
  | none =>
      cases hemitted : r.emitted with
      | cons callback rest =>
          have hcall : callback ∈ r.emitted := by simp [hemitted]
          have hlength := List.length_erase_of_mem hcall
          have hpos := List.length_pos_of_mem hcall
          refine ⟨.post callback, _, ⟨.post hcall, trivial⟩, ?_, ?_⟩
          · unfold loops
            rw [(post_waiting hcall).length_eq]
            rfl
          · show 4 * (r.emitted.erase callback).length
              + 3 * (r.posted ++ [callback]).length + 3 * r.queued
                + toStart r.running < _
            unfold transit
            rw [List.length_append, List.length_singleton]
            omega
      | nil =>
          cases hposted : r.posted with
          | cons callback rest =>
              refine ⟨.run, _, ⟨.run hrunning hposted, trivial⟩, ?_, ?_⟩
              · unfold loops
                rw [(run_waiting hrunning hposted).length_eq]
                rfl
              · show 4 * r.emitted.length + 3 * rest.length + 3 * r.queued + 1
                  < _
                unfold transit
                rw [hposted, List.length_cons]
                omega
          | nil =>
              refine transit_handler hrunning (Nat.pos_of_ne_zero ?_)
              simpa [transit, hemitted, hposted, hrunning, toStart] using h

/-- All loops alive can become pending reads. -/
theorem pending_all (r : Reader) :
    ∃ es t, Run (When Step NoReset) r es t ∧ t.pending = r.loops := by
  induction htransit : r.transit using Nat.strongRecOn generalizing r with
  | ind n ih =>
      by_cases hzero : r.transit = 0
      · refine ⟨[], r, .nil r, ?_⟩
        have halive := alive_eq r
        unfold transit at hzero
        have hfree : r.running = none := by
          rcases hrunning : r.running with _ | _ | _
          · rfl
          · rw [hrunning] at hzero
            cases hzero
          · rw [hrunning] at hzero
            cases hzero
        have hwaiting : r.waiting.length = r.emitted.length + r.posted.length := by
          simp [waiting, hfree]
        unfold loops
        omega
      · obtain ⟨e, t, hstep, hloops, hlt⟩ := transit_step hzero
        obtain ⟨es, u, hrun, hpending⟩ := ih _ (htransit ▸ hlt) t rfl
        exact ⟨e :: es, u, .cons hstep hrun, hpending.trans hloops⟩

/-- With more than one loop alive there may be more than one read. -/
theorem not_safely {r : Reader} (h : 1 < r.loops) :
    ¬Safely Step NoReset OneReadLoop r := by
  intro hsafe
  obtain ⟨es, t, hrun, hpending⟩ := pending_all r
  have hone := (hsafe es t hrun).one
  omega

/-- `ResetReadCallback` with a loop in transit adds another. -/
theorem Single.two_loops {r t : Reader} {e : ReadEvent} (h : r.Single)
    (hstep : Step r e t) (hsettled : ¬ResetsSettled r e) : 1 < t.loops := by
  cases hstep with
  | reset =>
      have halive : r.resetReadCallback.alive = r.queued := h.emit_alive
      have htransit : 0 < r.queued + r.waiting.length := by
        refine Nat.pos_of_ne_zero fun hzero => hsettled ⟨by omega, ?_⟩
        exact List.eq_nil_of_length_eq_zero (by omega)
      unfold loops
      rw [halive, (resetReadCallback_waiting r).length_eq, List.length_cons]
      omega
  | post hcall => exact absurd trivial hsettled
  | run hfree hposted => exact absurd trivial hsettled
  | complete hread hsize => exact absurd trivial hsettled
  | handler hfree hread => exact absurd trivial hsettled
  | emplace hrunning => exact absurd trivial hsettled
  | asyncReadSome hrunning => exact absurd trivial hsettled

/-- A session whose `Read` is called once keeps to one read at a time, for
the latest callback, as long as `ResetReadCallback` is only called with no
loop in transit; and these are exactly the runs after whose every step that
is bound to stay so until `ResetReadCallback` is called again. -/
theorem oneReadLoop_iff {session : Session} {es : List ReadEvent}
    {r : Reader} :
    (Run (When Step ResetsSettled) (start session) es r → r.OneReadLoop)
      ∧ (Run (Into Step (Safely Step NoReset OneReadLoop))
          (start session) es r
        ↔ Run (When Step ResetsSettled) (start session) es r) := by
  have hkeep : ∀ s e t, Single s → Step s e t → ResetsSettled s e → Single t :=
    fun s e t hs hstep hsettled => hs.step hstep hsettled
  constructor
  · intro h
    exact (h.when_invariant hkeep (start_single session)).oneReadLoop
  · apply Run.safely_iff_when hkeep
    · intro s e hquiet
      cases e with
      | reset => cases hquiet
      | _ => trivial
    · exact fun s hs => hs.oneReadLoop
    · exact fun s e t hs hstep hsettled =>
        not_safely (hs.two_loops hstep hsettled)
    · exact start_single session

/-- The first read has completed when `ResetReadCallback` is called, and its
handler runs before the posted `Read`: then two reads are outstanding, and
the old callback gets what a read started after that `Read` has read. -/
theorem reset_too_late :
    ∃ es r es' t,
      Run Step (start { keys := ⟨Key.zero, Key.zero⟩, lastTimestamp := 0 }) es r
        ∧ r.pending = 2 ∧ Run Step r es' t ∧ t.resets = 1
        ∧ ¬t.DeliversToLatest := by
  have hsize : ∀ chunk, (.ok [0] : Except ReadError Bytes) = .ok chunk →
      chunk ≠ [] ∧ chunk.length ≤ tcpTotalPacketSize := by
    intro chunk h
    cases h
    decide
  let s : Reader := start { keys := ⟨Key.zero, Key.zero⟩, lastTimestamp := 0 }
  let r₁ := s.setStatus 0 (.queued (.ok [0]))
  let r₂ := r₁.resetReadCallback
  let r₃ : Reader := { r₂ with emitted := [], posted := [1] }
  let r₄ := r₃.completed 0 0 0 (.ok [0])
  let r₅ := (r₄.readImpl 0).asyncReadSome 0
  let r := (readImpl { r₅ with posted := [] } 1).asyncReadSome 1
  have hboth : Run Step s
      [.complete 0 (.ok [0]), .reset, .post 1, .handler 0 0, .emplace,
        .asyncReadSome, .run, .asyncReadSome] r := by
    apply Run.cons (.complete rfl hsize : Step s _ r₁)
    apply Run.cons (.reset : Step r₁ _ r₂)
    apply Run.cons (.post (List.mem_singleton.mpr rfl) : Step r₂ _ r₃)
    apply Run.cons (.handler rfl rfl : Step r₃ _ r₄)
    apply Run.cons (.emplace rfl : Step r₄ _ (r₄.readImpl 0))
    apply Run.cons (.asyncReadSome rfl : Step (r₄.readImpl 0) _ r₅)
    apply Run.cons (.run rfl rfl : Step r₅ _ _)
    exact .cons (.asyncReadSome rfl) (.nil r)
  let t₁ := r.setStatus 1 (.queued (.ok [0]))
  let t₂ := t₁.completed 0 1 0 (.ok [0])
  let t₃ := (t₂.readImpl 0).asyncReadSome 0
  let t₄ := t₃.setStatus 3 (.queued (.ok [0]))
  let t := t₄.completed 0 3 0 (.ok [0])
  have hold : Run Step r
      [.complete 1 (.ok [0]), .handler 1 0, .emplace, .asyncReadSome,
        .complete 3 (.ok [0]), .handler 3 0] t := by
    apply Run.cons (.complete rfl hsize : Step r _ t₁)
    apply Run.cons (.handler rfl rfl : Step t₁ _ t₂)
    apply Run.cons (.emplace rfl : Step t₂ _ (t₂.readImpl 0))
    apply Run.cons (.asyncReadSome rfl : Step (t₂.readImpl 0) _ t₃)
    apply Run.cons (.complete rfl hsize : Step t₃ _ t₄)
    exact .cons (.handler rfl rfl) (.nil t)
  refine ⟨_, r, _, t, hboth, rfl, hold, rfl, ?_⟩
  intro hlatest
  have hgiven : (3, readBuffer [0]) ∈ t.delivered :=
    List.mem_append_right _ (List.mem_singleton.mpr rfl)
  have hle := hlatest 3 _ hgiven 2 _ _ (by decide) rfl rfl
  exact absurd hle (by decide)

-- ================================================= as a part of the session

/-- A peer whose session has completed the reads of this reader, where
every callback is `DefaultReadCallback`. -/
structure Shows (r : Reader) (p : Peer) : Prop where
  role : p.role = .server
  session : p.session = r.session
  tasks : p.tasks = r.delivered.map fun d => .serverRead d.2
  sized : ∀ (i callback : Nat) (chunk : Bytes),
    r.reads[i]? = some { callback, status := .queued (.ok chunk) } →
      chunk ≠ [] ∧ chunk.length ≤ tcpTotalPacketSize

/-- A read that starts is not one that waits for its handler. -/
theorem Shows.asyncReadSome {r : Reader} {p : Peer} (h : r.Shows p)
    (callback : Nat) : (r.asyncReadSome callback).Shows p := by
  refine ⟨h.role, h.session, h.tasks, fun i callback' chunk hread => ?_⟩
  rcases asyncReadSome_getElem hread with ⟨-, hnew⟩ | hold
  · cases hnew
  · exact h.sized i callback' chunk hold

theorem Shows.setStatus {r : Reader} {p : Peer} (h : r.Shows p) {i : Nat}
    {old : AsyncRead} {status : ReadStatus} (hold : r.reads[i]? = some old)
    (hsize : ∀ chunk, status = .queued (.ok chunk) →
      chunk ≠ [] ∧ chunk.length ≤ tcpTotalPacketSize) :
    (r.setStatus i status).Shows p := by
  refine ⟨h.role, h.session, h.tasks, fun j callback chunk hread => ?_⟩
  rcases setStatus_getElem hold hread with ⟨-, hnew⟩ | hsame
  · have hstatus := congrArg AsyncRead.status hnew
    exact hsize chunk hstatus.symm
  · exact h.sized j callback chunk hsame

/-- Only a handler that has bytes to deliver is a step of the peer. -/
theorem Shows.step {sodium : Sodium} {r t : Reader} {p : Peer}
    {e : ReadEvent} (h : r.Shows p) (hstep : Step r e t) :
    ∃ es q, Run (Peer.Step sodium) p es q ∧ t.Shows q := by
  have hdone : ∀ {i : Nat} {old : AsyncRead}, r.reads[i]? = some old →
      (r.setStatus i .done).Shows p :=
    fun hold => h.setStatus hold fun chunk hchunk => by cases hchunk
  cases hstep with
  | reset =>
      refine ⟨[], p, .nil p, ?_⟩
      have hemit : r.emit.Shows p := by
        unfold emit
        split
        next => exact h
        next i hbound =>
          split
          next callback hread =>
            exact h.setStatus hread fun chunk hchunk => by cases hchunk
          next => exact h
      exact ⟨hemit.role, hemit.session, hemit.tasks, hemit.sized⟩
  | post hcall => exact ⟨[], p, .nil p, h.role, h.session, h.tasks, h.sized⟩
  | run hfree hposted =>
      exact ⟨[], p, .nil p, h.role, h.session, h.tasks, h.sized⟩
  | complete hread hsize =>
      refine ⟨[], p, .nil p, h.setStatus hread fun chunk hchunk => ?_⟩
      cases hchunk
      exact hsize chunk rfl
  | @handler i now callback result hfree hread =>
      rcases result with ⟨_ | _⟩ | chunk
      · exact ⟨[], p, .nil p, hdone hread⟩
      · have hold := hdone hread
        exact ⟨[], p, .nil p, hold.role, hold.session, hold.tasks, hold.sized⟩
      · obtain ⟨hne, hlen⟩ := h.sized i callback chunk hread
        refine ⟨[.read chunk now], _, .cons (.read hne hlen) (.nil _),
          h.role, ?_, ?_, (hdone hread).sized⟩
        · show p.session.completeRead now = r.session.completeRead now
          rw [h.session]
        · show p.tasks ++ [p.role.task (readBuffer chunk)]
            = (r.delivered ++ [(i, readBuffer chunk)]).map fun d =>
              .serverRead d.2
          rw [h.role, h.tasks, List.map_append]
          rfl
  | emplace hrunning =>
      exact ⟨[], p, .nil p, h.role, h.session, h.tasks, h.sized⟩
  | asyncReadSome hrunning => exact ⟨[], p, .nil p, h.asyncReadSome _⟩

/-- Where every callback is `DefaultReadCallback`, what the read side does
to its session is what the completed reads of a peer do. -/
theorem run_peer {sodium : Sodium} {session : Session} {es : List ReadEvent}
    {r : Reader} (h : Run Step (start session) es r) :
    ∃ es' q, Run (Peer.Step sodium) { role := .server, session } es' q
      ∧ r.Shows q := by
  have hpres : ∀ s e t,
      (∃ es' p, Run (Peer.Step sodium) { role := .server, session } es' p
        ∧ s.Shows p) → Step s e t →
      ∃ es' q, Run (Peer.Step sodium) { role := .server, session } es' q
        ∧ t.Shows q := by
    rintro s e t ⟨es', p, hp, hshows⟩ hstep
    obtain ⟨new, q, hq, hshows'⟩ := hshows.step hstep
    exact ⟨es' ++ new, q, hp.append hq, hshows'⟩
  refine h.invariant hpres ⟨[], _, .nil _, ?_⟩
  have hempty : Shows { session } { role := .server, session } :=
    ⟨rfl, rfl, rfl, fun i _ _ hread => by cases hread⟩
  exact hempty.asyncReadSome 0

end Reader

end Remc.Net
