/-
From `Write` to `async_write`.

The executor runs the closures that `Write` posts in the order they were
posted. Each creates a packet, pushes it and, finding the queue empty
before, pops it and starts writing it. The queue is empty between any two
handlers, so `Push` has the whole capacity, which is ten times what
`CreatePacket` can return: nothing is refused, nothing waits, and what is
handed to `async_write` is what was created (`sendQueue_faithful`).
-/
import Remc.Net.Peer

namespace Remc.Net

open Containers Crypto Runs

variable {sodium : Sodium}

/-- What happens to a message on its way out: `Write` returns true for it,
and the closure posted for it runs, where `CreatePacket` succeeds with
these bytes or fails, and `Push` returns a truth value. -/
inductive SendEvent where
  | posted (w : PostedWrite)
  | handled (w : PostedWrite) (packet : Option Bytes) (pushed : Bool)

namespace SendEvent

/-- The message that was posted. -/
def posted? : SendEvent → Option PostedWrite
  | .posted w => some w
  | .handled _ _ _ => none

/-- The message whose closure has run. -/
def handled? : SendEvent → Option PostedWrite
  | .posted _ => none
  | .handled w _ _ => some w

/-- What `CreatePacket` returned. -/
def packet? : SendEvent → Option Bytes
  | .posted _ => none
  | .handled _ packet _ => packet

end SendEvent

namespace PostedWrite

/-- What `CreatePacket` returns in a posted closure, if it succeeds. -/
def createdPacket (now : Int64) (drawn : UInt64) (s : Session)
    (w : PostedWrite) : Option Bytes :=
  match s.createPacket now w.flags (w.messageId drawn) w.payload with
  | .ok (.ok packet) => some packet
  | _ => none

/-- What `Push` returns there. -/
def pushes (now : Int64) (drawn : UInt64) (s : Session) (w : PostedWrite) :
    Bool :=
  match w.createdPacket now drawn s with
  | none => false
  | some packet =>
      match s.outbox.messageQueue.push .uint16 packet with
      | .ok (pushed, _) => pushed
      | .error _ => false

/-- A payload within the limit becomes a packet. -/
theorem createdPacket_eq {w : PostedWrite}
    (hsize : w.payload.length ≤ tcpPayloadSizeMax) (now : Int64)
    (drawn : UInt64) (s : Session) :
    w.createdPacket now drawn s = some (w.packet now drawn s) := by
  have hcreate : s.createPacket now w.flags (w.messageId drawn) w.payload
      = .ok (.ok (w.packet now drawn s)) :=
    createPacket_created s.keys.sharedKey.property hsize now 1 w.flags
      s.messageCounter (w.messageId drawn)
  rw [createdPacket, hcreate]

/-- The empty queue takes it. -/
theorem pushes_eq {s : Session} {w : PostedWrite} (hdrained : s.outbox.Drained)
    (hsize : w.payload.length ≤ tcpPayloadSizeMax) (now : Int64)
    (drawn : UInt64) : w.pushes now drawn s = true := by
  have hfits : Outbox.Fits (w.packet now drawn s) :=
    created_fits hsize now 1 w.flags s.messageCounter (w.messageId drawn)
  obtain ⟨pushed, hpush, -⟩ := hdrained.push hfits
  rw [pushes, createdPacket_eq hsize]
  dsimp only
  rw [hpush]

end PostedWrite

namespace Peer

/-- What an event does with messages on their way out. A pool task posts
the answers it writes. -/
def sendEvents (sodium : Sodium) (p : Peer) : Event → List SendEvent
  | .write w => w.post.2.map .posted
  | .handler now drawn =>
      match p.posted with
      | [] => []
      | w :: _ =>
          [.handled w (w.createdPacket now drawn p.session)
            (w.pushes now drawn p.session)]
  | .task k now =>
      match p.tasks[k]? with
      | none => []
      | some τ =>
          match τ.run sodium now p.session with
          | .ok r => r.posted.map .posted
          | .error _ => []
  | _ => []

/-- A closure that runs creates its packet, and `Push` takes it. -/
theorem sendEvents_handler {p : Peer} (hp : p.Sound) {w : PostedWrite}
    {rest : List PostedWrite} (hposted : p.posted = w :: rest) (now : Int64)
    (drawn : UInt64) :
    p.sendEvents sodium (.handler now drawn)
      = [.handled w (some (w.packet now drawn p.session)) true] := by
  have hsize := hp.sizes w (by rw [hposted]; exact List.mem_cons_self ..)
  unfold sendEvents
  dsimp only
  rw [hposted]
  dsimp only
  rw [PostedWrite.createdPacket_eq hsize,
    PostedWrite.pushes_eq hp.drained hsize]

/-- An event posts messages and hands nothing to the socket, or it is the
closure of the oldest posted message that runs. -/
theorem sendEvents_step {p q : Peer} {e : Event} (hp : p.Sound)
    (h : Step sodium p e q) :
    (∃ ws, p.sendEvents sodium e = ws.map .posted
        ∧ q.posted = p.posted ++ ws ∧ q.view.sent = p.view.sent)
      ∨ ∃ w packet, p.sendEvents sodium e = [.handled w (some packet) true]
        ∧ p.posted = w :: q.posted ∧ q.view.sent = p.view.sent ++ [packet] := by
  have hframe : p.sendEvents sodium e = [] → q.view.posted = p.view.posted →
      q.view.sent = p.view.sent → ∃ ws, p.sendEvents sodium e = ws.map .posted
        ∧ q.posted = p.posted ++ ws ∧ q.view.sent = p.view.sent := by
    intro hnone hposted hsent
    exact ⟨[], hnone, hposted.trans (List.append_nil _).symm, hsent⟩
  cases e with
  | write w =>
      cases h
      exact Or.inl ⟨w.post.2, rfl, rfl, rfl⟩
  | handler now drawn =>
      obtain ⟨w, rest, hposted, hview⟩ := handler_view hp h
      refine Or.inr ⟨w, w.packet now drawn p.session,
        sendEvents_handler hp hposted now drawn, ?_, by rw [hview]⟩
      rw [hposted, (view_fields hview).1]
  | transfer i n =>
      have hview := transfer_view h
      exact Or.inl (hframe rfl (by rw [hview]) (by rw [hview]))
  | written i ec now =>
      have hview := written_view hp h
      exact Or.inl (hframe rfl (by rw [hview]) (by rw [hview]))
  | close =>
      have hview := close_view hp h
      exact Or.inl (hframe rfl (by rw [hview]) (by rw [hview]))
  | read chunk now =>
      have hview := read_view h
      exact Or.inl (hframe rfl (by rw [hview]) (by rw [hview]))
  | task k now =>
      obtain ⟨τ, r, hτ, hrun, hview⟩ := task_view h
      refine Or.inl ⟨r.posted, ?_, (view_fields hview).1, by rw [hview]⟩
      unfold sendEvents
      dsimp only
      rw [hτ]
      dsimp only
      rw [hrun]

/-- What was handed to the socket is what was created, in the order of the
closures; closures run in the order of the calls of `Write`; and nothing
was refused on the way. -/
structure Faithful (s : Peer × List SendEvent) : Prop where
  sent : s.1.view.sent = s.2.filterMap SendEvent.packet?
  order : s.2.filterMap SendEvent.posted?
    = s.2.filterMap SendEvent.handled? ++ s.1.posted
  pushed : ∀ w packet pushed, .handled w packet pushed ∈ s.2 →
    packet.isSome ∧ pushed = true

theorem Faithful.step {s t : Peer × List SendEvent} {e : Event}
    (hs : s.1.Sound) (hfaithful : Faithful s)
    (h : Logged (Step sodium) (sendEvents sodium) s e t) : Faithful t := by
  obtain ⟨hstep, hlog⟩ := h
  rcases sendEvents_step hs hstep with
    ⟨ws, hws, hposted, hsent⟩ | ⟨w, packet, hw, hposted, hsent⟩
  · rw [hws] at hlog
    have hpacket : (ws.map SendEvent.posted).filterMap SendEvent.packet? = [] :=
      by simp [SendEvent.packet?, Function.comp_def]
    have hnew : (ws.map SendEvent.posted).filterMap SendEvent.posted? = ws := by
      simp [SendEvent.posted?, Function.comp_def]
    have hhandled : (ws.map SendEvent.posted).filterMap SendEvent.handled?
        = [] := by
      simp [SendEvent.handled?, Function.comp_def]
    refine ⟨?_, ?_, ?_⟩
    · rw [hsent, hlog, List.filterMap_append, hpacket, List.append_nil]
      exact hfaithful.sent
    · rw [hlog, List.filterMap_append, List.filterMap_append, hnew, hhandled,
        hfaithful.order, hposted, List.append_nil, List.append_assoc]
    · intro w packet pushed hmem
      rw [hlog] at hmem
      rcases List.mem_append.mp hmem with hold | hnew
      · exact hfaithful.pushed w packet pushed hold
      · obtain ⟨_, -, heq⟩ := List.mem_map.mp hnew
        cases heq
  · rw [hw] at hlog
    refine ⟨?_, ?_, ?_⟩
    · rw [hsent, hlog, List.filterMap_append, hfaithful.sent]
      rfl
    · rw [hlog, List.filterMap_append, List.filterMap_append, hfaithful.order,
        hposted]
      simp [SendEvent.posted?, SendEvent.handled?]
    · intro w' packet' pushed' hmem
      rw [hlog] at hmem
      rcases List.mem_append.mp hmem with hold | hnew
      · exact hfaithful.pushed w' packet' pushed' hold
      · cases List.mem_singleton.mp hnew
        exact ⟨rfl, rfl⟩

/-- In every run of either session class: the buffers handed to
`async_write` are the packets that `CreatePacket` has returned, in the
order the closures ran, which is the order in which `Write` returned true;
`Push` never returns false; and a queue that is not empty has a write
outstanding, if only because the queue is empty between handlers. -/
theorem sendQueue_faithful {sodium : Sodium} {role : Role} {keys : KeysWrapper}
    {now : Int64} {es : List Event} {q : Peer} {log : List SendEvent}
    (h : Run (Logged (Step sodium) (sendEvents sodium))
      (start role keys now, []) es (q, log)) :
    q.session.outbox.sent = log.filterMap SendEvent.packet?
      ∧ log.filterMap SendEvent.posted?
        = log.filterMap SendEvent.handled? ++ q.posted
      ∧ (∀ w packet pushed, .handled w packet pushed ∈ log →
        packet.isSome ∧ pushed = true)
      ∧ (q.session.outbox.messageQueue.isEmpty = false →
        ∃ (i : Nat) (w : AsyncWrite), q.writes[i]? = some w
          ∧ w.completed = false) := by
  have hpres : ∀ s e t, (Sound s.1 ∧ Faithful s) →
      Logged (Step sodium) (sendEvents sodium) s e t →
      Sound t.1 ∧ Faithful t := by
    rintro s e t ⟨hs, hfaithful⟩ h
    exact ⟨hs.step h.1, hfaithful.step hs h⟩
  obtain ⟨hq, hfaithful⟩ := h.invariant hpres
    ⟨start_sound role keys now, rfl, rfl, fun _ _ _ hw => by cases hw⟩
  refine ⟨hfaithful.sent, hfaithful.order, hfaithful.pushed, ?_⟩
  intro hqueued
  have hempty : q.session.outbox.messageQueue.isEmpty = true :=
    Represents.isEmpty_iff hq.drained |>.mpr rfl
  rw [hempty] at hqueued
  cases hqueued

/-- A posted closure runs and starts its write. -/
theorem handler_sends (sodium : Sodium) {p : Peer} (hp : p.Sound)
    {w : PostedWrite} {rest : List PostedWrite} (hposted : p.posted = w :: rest)
    (now : Int64) (drawn : UInt64) :
    ∃ q packet, Step sodium p (.handler now drawn) q
      ∧ p.sendEvents sodium (.handler now drawn)
        = [.handled w (some packet) true]
      ∧ packet ≠ [] ∧ q.posted = rest
      ∧ q.writes = p.writes ++ [{ buffer := packet }]
      ∧ q.session.outbox.stream = p.session.outbox.stream := by
  obtain ⟨q, h, hrest, -, -, -, hwrites, hstream⟩ :=
    handler_enabled sodium hp hposted now drawn
  have hsize := hp.sizes w (by rw [hposted]; exact List.mem_cons_self ..)
  have hfits : Outbox.Fits (w.packet now drawn p.session) :=
    created_fits hsize _ _ _ _ _
  exact ⟨q, _, h, sendEvents_handler hp hposted now drawn, hfits.1, hrest,
    hwrites, hstream⟩

/-- A server session that writes two messages; both writes are outstanding
before the first completes. -/
theorem sendQueue_faithful_two :
    ∃ (q : Peer) (log : List SendEvent) (first second : Bytes),
      log = [.posted (.server Flags.noFlags 1 [104, 105]),
          .posted (.server Flags.testMessage 2 [98, 121, 101]),
          .handled (.server Flags.noFlags 1 [104, 105]) (some first) true,
          .handled (.server Flags.testMessage 2 [98, 121, 101]) (some second)
            true]
        ∧ q.session.outbox.stream = first ++ second
        ∧ q.session.outbox.outstanding = 0
        ∧ q.session.outbox.sent = log.filterMap SendEvent.packet?
        ∧ log.filterMap SendEvent.posted?
          = log.filterMap SendEvent.handled? ++ q.posted
        ∧ (∀ w packet pushed, .handled w packet pushed ∈ log →
          packet.isSome ∧ pushed = true)
        ∧ (q.session.outbox.messageQueue.isEmpty = false →
          ∃ (i : Nat) (w : AsyncWrite), q.writes[i]? = some w
            ∧ w.completed = false) := by
  let sodium : Sodium := ⟨id, fun _ _ => none, id⟩
  let w₁ : PostedWrite := .server Flags.noFlags 1 [104, 105]
  let w₂ : PostedWrite := .server Flags.testMessage 2 [98, 121, 101]
  let p : Peer := start .server ⟨Key.zero, Key.zero⟩ 0
  have h₁ : Step sodium p (.write w₁) { p with posted := [w₁] } :=
    write_step rfl (by decide)
  have h₂ : Step sodium { p with posted := [w₁] } (.write w₂)
      { p with posted := [w₁, w₂] } := write_step rfl (by decide)
  have hs₂ := ((start_sound .server ⟨Key.zero, Key.zero⟩ 0).step h₁).step h₂
  -- both closures run before a write completes
  obtain ⟨q₃, first, h₃, hlog₃, hne₃, hposted₃, hwrites₃, hstream₃⟩ :=
    handler_sends sodium hs₂ rfl 0 0
  have hs₃ := hs₂.step h₃
  obtain ⟨q₄, second, h₄, hlog₄, hne₄, hposted₄, hwrites₄, hstream₄⟩ :=
    handler_sends sodium hs₃ hposted₃ 0 0
  have hs₄ := hs₃.step h₄
  have hboth : q₄.writes = [{ buffer := first }, { buffer := second }] := by
    rw [hwrites₄, hwrites₃]
    rfl
  -- then the first completes, and the second
  obtain ⟨q₅, q₆, h₅, h₆, hwrites₆, hstream₆⟩ :=
    finish_enabled sodium hs₄ (by rw [hboth]; rfl :
      q₄.writes[0]? = some { buffer := first }) hne₃ 0
  rw [hboth] at hwrites₆
  obtain ⟨q₇, q₈, h₇, h₈, hwrites₈, hstream₈⟩ :=
    finish_enabled sodium ((hs₄.step h₅).step h₆) (by rw [hwrites₆]; rfl :
      q₆.writes[1]? = some { buffer := second }) hne₄ 0
  rw [hwrites₆] at hwrites₈
  let log₂ : List SendEvent := [.posted w₁, .posted w₂]
  let log₃ : List SendEvent := log₂ ++ [.handled w₁ (some first) true]
  let log₄ : List SendEvent := log₃ ++ [.handled w₂ (some second) true]
  have hrun : Run (Logged (Step sodium) (sendEvents sodium)) (p, [])
      [.write w₁, .write w₂, .handler 0 0, .handler 0 0,
        .transfer 0 first.length, .written 0 false 0,
        .transfer 1 second.length, .written 1 false 0] (q₈, log₄) := by
    apply Run.cons (⟨h₁, rfl⟩ : Logged _ _ _ _ (_, [.posted w₁]))
    apply Run.cons (⟨h₂, rfl⟩ : Logged _ _ _ _ (_, log₂))
    apply Run.cons (⟨h₃, by rw [hlog₃]⟩ : Logged _ _ _ _ (_, log₃))
    apply Run.cons (⟨h₄, by rw [hlog₄]⟩ : Logged _ _ _ _ (_, log₄))
    apply Run.cons (⟨h₅, rfl⟩ : Logged _ _ _ _ (_, log₄))
    apply Run.cons (⟨h₆, rfl⟩ : Logged _ _ _ _ (_, log₄))
    apply Run.cons (⟨h₇, rfl⟩ : Logged _ _ _ _ (_, log₄))
    exact .cons (⟨h₈, rfl⟩ : Logged _ _ _ _ (_, log₄)) (.nil _)
  refine ⟨q₈, _, first, second, rfl, ?_, ?_, sendQueue_faithful hrun⟩
  · rw [hstream₈, hstream₆, hstream₄, hstream₃]
    rfl
  · show q₈.writes.countP _ = 0
    rw [hwrites₈]
    rfl

end Peer

end Remc.Net
