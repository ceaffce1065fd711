/-
The sessions of a server.

A server does to a session what the session could do alone: its `Close` is
called by the worker's handlers, everything else happens at its own socket
and in its own tasks. So a session of a server is where a run of a session
leads (`server_sessions`), and what holds of every run of a session holds of
every session of a server.
-/
import Remc.Net.ServerRun

namespace Remc.Net

open Crypto Runs

variable {sodium : Sodium} {executor : SocketExecutor}

namespace Worker

variable {w t : Worker} {e : WorkerEvent} {ref : Nat}

-- ==================================================== a session of a worker

/-- The session of object `ref`. -/
def peer? (w : Worker) (ref : Nat) : Option Peer :=
  w.sessions[ref]?.map SessionObject.peer

/-- Only `CreateSession`'s handler makes an object. -/
theorem sessions_kept (hw : w.TableOk) (h : Step sodium executor w e t)
    (hnot : ∀ k keys id, e ≠ .create k keys id) :
    t.sessions.length = w.sessions.length := by
  cases e with
  | create k keys id => exact absurd rfl (hnot k keys id)
  | remove k =>
      obtain ⟨id, poster, -, -, ⟨-, rfl⟩ | ⟨ref, -, rfl⟩⟩ := remove_step hw h
      · rfl
      · cases executor with
        | worker => exact List.length_modify ..
        | other => rfl
  | close ref =>
      cases h
      exact List.length_modify ..
  | session ref e' =>
      cases h
      exact List.length_set
  | heartbeat ec order =>
      cases h
      cases ec <;> rfl
  | run =>
      cases h
      unfold Worker.run
      split <;> rfl
  | stop =>
      cases h with
      | stop hidle hstop =>
          rcases hw.stop_cases hstop with ⟨-, rfl⟩ | ⟨refs, -, -, rfl⟩ <;> rfl
  | _ =>
      cases h
      rfl

/-- It starts with what its constructor draws. -/
theorem peer_made (hw : w.TableOk) (h : Step sodium executor w e t) {q : Peer}
    (hnone : w.peer? ref = none) (hq : t.peer? ref = some q) :
    ∃ k keys id, e = .create k keys id
      ∧ q = .start .server keys w.clock := by
  have hle : w.sessions.length ≤ ref := by
    simpa [peer?] using hnone
  obtain ⟨s, hs, rfl⟩ := Option.map_eq_some_iff.mp hq
  have hlt := (List.getElem?_eq_some_iff.mp hs).1
  by_cases hcreate : ∃ k keys id, e = .create k keys id
  · obtain ⟨k, keys, id, rfl⟩ := hcreate
    refine ⟨k, keys, id, rfl, ?_⟩
    obtain ⟨-, -, ⟨-, rfl⟩ | ⟨-, -, rfl⟩ | ⟨old, -, -, rfl⟩⟩ :=
      create_step hw h
    · exact absurd hlt (Nat.not_lt_of_le hle)
    · -- the new object is the last
      change ref < (w.sessions ++ [_]).length at hlt
      change (w.sessions ++ [_])[ref]? = some s at hs
      have hlast : ref = w.sessions.length := by
        simp at hlt
        omega
      subst hlast
      rw [List.getElem?_concat_length] at hs
      cases hs
      rfl
    · change ref < ((w.sessions ++ [_]).modify old _).length at hlt
      change ((w.sessions ++ [_]).modify old _)[ref]? = some s at hs
      have hlast : ref = w.sessions.length := by
        simp at hlt
        omega
      subst hlast
      rw [List.getElem?_modify, List.getElem?_concat_length] at hs
      by_cases hold : old = w.sessions.length
      · simp [hold] at hs
        rw [← hs]
        rfl
      · simp [hold] at hs
        rw [← hs]
        rfl
  · have hsame := sessions_kept hw h fun k keys id he =>
      hcreate ⟨k, keys, id, he⟩
    omega

/-- A session is a part of its worker; what it does besides `Close` happens
at it. -/
theorem peer_part (sodium : Sodium) (executor : SocketExecutor) (ref : Nat) :
    Part (Step sodium executor)
      (fun w => w.TableOk ∧ ∀ p, w.peer? ref = some p → p.role = .server)
      (fun w => w.peer? ref) (Peer.Step sodium)
      (fun e q => ∃ k keys id now, e = .create k keys id
        ∧ q = .start .server keys now)
      (fun e f => f = .close ∨ e = .session ref f) := by
  have hcases : ∀ w e t q,
      (w.TableOk ∧ ∀ p, w.peer? ref = some p → p.role = .server) →
      Step sodium executor w e t → t.peer? ref = some q →
      w.peer? ref = some q
        ∨ (∃ p f, w.peer? ref = some p ∧ Peer.Step sodium p f q
          ∧ (f = .close ∨ e = .session ref f))
        ∨ ∃ k keys id now, e = .create k keys id
          ∧ q = .start .server keys now := by
    rintro w e t q ⟨hw, hserver⟩ h hq
    cases hp : w.peer? ref with
    | none =>
        obtain ⟨k, keys, id, he, hstart⟩ := peer_made hw h hp hq
        exact Or.inr (Or.inr ⟨k, keys, id, _, he, hstart⟩)
    | some p =>
        obtain ⟨s, hs, rfl⟩ := Option.map_eq_some_iff.mp hp
        obtain ⟨s', hs', -, hfate⟩ := session_cases hw h hs
        have hnow : some s'.peer = some q := by
          rw [← hq, peer?, hs']
          rfl
        cases hnow
        generalize s'.peer = q at hfate
        cases hfate with
        | same => exact Or.inl rfl
        | closed hcloses =>
            exact Or.inr (Or.inl
              ⟨_, .close, rfl, .close (hserver _ hp), Or.inl rfl⟩)
        | step he hne hpeer hnow hlive =>
            exact Or.inr (Or.inl ⟨_, _, rfl, hpeer, Or.inr he⟩)
  refine ⟨fun w e t hI h => ⟨hI.1.step h, fun q hq => ?_⟩, hcases⟩
  rcases hcases w e t q hI h hq with
    hsame | ⟨p, f, hp, hstep, -⟩ | ⟨k, keys, id, now, -, rfl⟩
  · exact hI.2 q hsame
  · exact hstep.role_eq.trans (hI.2 p hp)
  · rfl

/-- So it is where a run of a session leads. -/
theorem peer_run {clock : Int64} {es : List WorkerEvent}
    (h : Run (Step sodium executor) (start clock) es w) {s : SessionObject}
    (hs : w.sessions[ref]? = some s) :
    ∃ k keys id now fs, .create k keys id ∈ es
      ∧ Run (Peer.Step sodium) (.start .server keys now) fs s.peer
      ∧ ∀ f ∈ fs, f = .close ∨ .session ref f ∈ es := by
  have hpeer : w.peer? ref = some s.peer := by
    rw [peer?, hs]
    rfl
  obtain ⟨p, fs, hp | ⟨e, he, k, keys, id, now, rfl, rfl⟩, hrun, hof⟩ :=
    (peer_part sodium executor ref).run h
      ⟨start_tableOk clock, fun p hp => by cases hp⟩ hpeer
  · cases hp
  · refine ⟨k, keys, id, now, fs, he, hrun, fun f hf => ?_⟩
    obtain ⟨e, he, hclose | rfl⟩ := hof f hf
    · exact Or.inl hclose
    · exact Or.inr he

end Worker

namespace ServerObject

variable {S : ServerObject}

-- ==================================================== a session of a server

/-- Every session of every worker of a server could be alone: it is in a
state that a run of a session leads to, from the keys that one of the
worker's `CreateSession` handlers drew, and what happens in that run besides
`Close` happens at this session in the run of the server. -/
theorem server_sessions {n : Nat} {clock : Int64} {es : List ObjectEvent}
    (h : Run (Step sodium executor) (start n clock) es S) {i ref : Nat}
    {w : Worker} {s : SessionObject} (hi : S.workers[i]? = some w)
    (hs : w.sessions[ref]? = some s) :
    ∃ k keys id now fs, .worker i (.create k keys id) ∈ es
      ∧ Run (Peer.Step sodium) (.start .server keys now) fs s.peer
      ∧ ∀ f ∈ fs, f = .close ∨ .worker i (.session ref f) ∈ es := by
  obtain ⟨gs, hworker, hown⟩ := worker_run h hi
  obtain ⟨k, keys, id, now, fs, hmade, hrun, hof⟩ := Worker.peer_run hworker hs
  refine ⟨k, keys, id, now, fs, hown _ hmade trivial, hrun, fun f hf => ?_⟩
  rcases hof f hf with hclose | hat
  · exact Or.inl hclose
  · exact Or.inr (hown _ hat trivial)

/-- A server with one worker that has one session. -/
theorem run_oneConnection (sodium : Sodium) (executor : SocketExecutor)
    (clock : Int64) (keys : KeysWrapper) (id : UInt64) :
    ∃ S, Run (Step sodium executor) (start 1 clock)
        [.run, .goOn, .goOn, .accept false, .worker 0 (.create 0 keys id)] S
      ∧ S.workers[0]? = some (Worker.oneSession clock keys id) := by
  have hempty : (Worker.start clock).run.sessionList.size
      < workerMaxClientCount := by
    show 0 < workerMaxClientCount
    decide
  have hcreate : ((Worker.start clock).run.createSession.dequeue
      0).createSessionHandler keys id
      = .ok (Worker.oneSession clock keys id) :=
    Worker.createSessionHandler_free hempty (AList.notMem_empty id) keys
  let A : ServerObject :=
    { (start 1 clock).run.setWorker 0 (Worker.start clock).run with
      call := .run 1 }
  let B : ServerObject :=
    { A.startThread with toServer := A.startThread.toServer.accept false }
  have hworker : B.workers[0]? = some (Worker.start clock).run.createSession :=
    rfl
  have h₁ : Step sodium executor (start 1 clock) .run _ := .run rfl
  have h₂ : Step sodium executor (start 1 clock).run .goOn A :=
    .runWorker rfl rfl (.run rfl)
  have h₃ : Step sodium executor A .goOn A.startThread := .started rfl
  have h₄ : Step sodium executor A.startThread (.accept false) B :=
    .accept ⟨rfl, rfl⟩ Nat.one_pos
  have h₅ : Step sodium executor B (.worker 0 (.create 0 keys id)) _ :=
    .worker hworker trivial (.create ⟨rfl, rfl⟩ rfl hcreate)
  exact ⟨_, .cons h₁ (.cons h₂ (.cons h₃ (.cons h₄ (.cons h₅ (.nil _))))), rfl⟩

/-- Its session has the keys that were drawn. -/
theorem server_sessions_one : ∃ S w s fs,
    Run (Step ⟨id, fun _ _ => none, id⟩ .worker) (start 1 0)
        [.run, .goOn, .goOn, .accept false,
          .worker 0 (.create 0 ⟨Key.zero, Key.zero⟩ 7)] S
      ∧ S.workers[0]? = some w ∧ w.sessions[0]? = some s ∧ s.sessionId = 7
      ∧ ∃ keys now, Run (Peer.Step ⟨id, fun _ _ => none, id⟩)
        (.start .server keys now) fs s.peer := by
  obtain ⟨S, hrun, hworker⟩ := run_oneConnection ⟨id, fun _ _ => none, id⟩
    .worker 0 ⟨Key.zero, Key.zero⟩ 7
  obtain ⟨s, hs, hid⟩ : ∃ s, (Worker.oneSession 0 ⟨Key.zero, Key.zero⟩
      7).sessions[0]? = some s ∧ s.sessionId = 7 := ⟨_, rfl, rfl⟩
  obtain ⟨-, keys, -, now, fs, -, hfs, -⟩ := server_sessions hrun hworker hs
  exact ⟨S, _, s, fs, hrun, hworker, hs, hid, keys, now, hfs⟩

end ServerObject

end Remc.Net
