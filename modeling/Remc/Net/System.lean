/-
A client session and the server session it is connected to.

Each side is a `Peer`. The connection is the stream each side writes and
how much of it the other side has read: bytes arrive in order, none is
lost, and a read returns any number of them, whatever writes they come
from.

`Intact` is the connection on which every read returns exactly one
packet, in the order the other side sent them.
-/
import Remc.Net.Peer

namespace Remc.Net

open Crypto Runs

variable {sodium : Sodium}

/-- The side at the other end. -/
def Role.other : Role → Role
  | .client => .server
  | .server => .client

theorem Role.other_ne (r : Role) : r.other ≠ r := by
  cases r <;> decide

theorem Role.other_other (r : Role) : r.other.other = r := by
  cases r <;> rfl

/-- Every side is this one or the other. -/
theorem Role.eq_or_other (r r' : Role) : r' = r ∨ r' = r.other := by
  cases r <;> cases r' <;> decide

/-- Two connected sides, and how much each has read of the other's
stream. -/
structure System where
  peer : Role → Peer
  received : Role → Nat := fun _ => 0

namespace System

/-- Two fresh sessions. -/
def start (keys : Role → KeysWrapper) (now : Int64) : System where
  peer r := .start r (keys r) now

/-- One step of one side; a read takes the next bytes of the other
side's stream. -/
inductive Step (sodium : Sodium) : System → Role × Event → System → Prop
  | act {S : System} {r : Role} {e : Event} {p : Peer}
      (hlocal : ∀ chunk now, e ≠ .read chunk now)
      (hstep : Peer.Step sodium (S.peer r) e p) :
      Step sodium S (r, e) { S with peer := Function.update S.peer r p }
  | receive {S : System} {r : Role} {chunk : Bytes} {now : Int64} {p : Peer}
      (hchunk : chunk <+: (S.peer r.other).session.outbox.stream.drop
        (S.received r))
      (hstep : Peer.Step sodium (S.peer r) (.read chunk now) p) :
      Step sodium S (r, .read chunk now)
        { peer := Function.update S.peer r p
          received :=
            Function.update S.received r (S.received r + chunk.length) }

/-- Both sides are sound, and each is of its class. -/
def Sound (S : System) : Prop :=
  ∀ r, (S.peer r).Sound ∧ (S.peer r).role = r

theorem start_sound (keys : Role → KeysWrapper) (now : Int64) :
    (start keys now).Sound := fun r => ⟨Peer.start_sound r _ now, rfl⟩

/-- A step is a step of its side, and leaves the other side alone. -/
theorem Step.peers {S T : System} {r : Role} {e : Event}
    (h : Step sodium S (r, e) T) :
    Peer.Step sodium (S.peer r) e (T.peer r)
      ∧ T.peer r.other = S.peer r.other := by
  cases h with
  | act hlocal hstep =>
      dsimp only
      rw [Function.update_self, Function.update_of_ne r.other_ne]
      exact ⟨hstep, rfl⟩
  | receive hchunk hstep =>
      dsimp only
      rw [Function.update_self, Function.update_of_ne r.other_ne]
      exact ⟨hstep, rfl⟩

theorem Sound.step {S T : System} {a : Role × Event} (hS : S.Sound)
    (h : Step sodium S a T) : T.Sound := by
  obtain ⟨r, e⟩ := a
  obtain ⟨hstep, hother⟩ := h.peers
  obtain ⟨hsound, hrole⟩ := hS r
  intro r'
  rcases Role.eq_or_other r r' with rfl | rfl
  · exact ⟨hsound.step hstep, hstep.role_eq.trans hrole⟩
  · rw [hother]
    exact hS r.other

/-- What one side does on its own is a step of both. -/
theorem local_step {S : System} {r : Role} {e : Event} {q : Peer}
    (hlocal : ∀ chunk now, e ≠ .read chunk now)
    (h : Peer.Step sodium (S.peer r) e q) :
    ∃ T, Step sodium S (r, e) T ∧ T.peer r = q
      ∧ T.peer r.other = S.peer r.other ∧ T.received = S.received := by
  refine ⟨_, .act hlocal h, Function.update_self .., ?_, rfl⟩
  exact Function.update_of_ne r.other_ne ..

/-- A posted closure runs and the stream takes its packet at once. -/
theorem send_steps (sodium : Sodium) {S : System} (hS : S.Sound) {r : Role} {w : PostedWrite}
    {rest : List PostedWrite} (hposted : (S.peer r).posted = w :: rest)
    (now : Int64) (drawn : UInt64) :
    ∃ T₁ T₂, Step sodium S (r, .handler now drawn) T₁
      ∧ Step sodium T₁ (r, .transfer (S.peer r).writes.length
        (w.packet now drawn (S.peer r).session).length) T₂
      ∧ (T₁.peer r).view = { (S.peer r).view with
        posted := rest
        sent := (S.peer r).view.sent
          ++ [w.packet now drawn (S.peer r).session]
        taskQueue := w.taskQueue drawn (S.peer r).session }
      ∧ (T₂.peer r).view = (T₁.peer r).view
      ∧ (T₂.peer r).session.outbox.stream
        = (S.peer r).session.outbox.stream
          ++ w.packet now drawn (S.peer r).session
      ∧ T₁.peer r.other = S.peer r.other ∧ T₂.peer r.other = S.peer r.other
      ∧ T₂.received = S.received := by
  obtain ⟨q₁, q₂, h₁, h₂, hview₁, hview₂, hstream⟩ :=
    Peer.send_enabled sodium (hS r).1 hposted now drawn
  obtain ⟨T₁, hT₁, rfl, hother₁, hreceived₁⟩ :=
    local_step (fun _ _ he => by cases he) h₁
  obtain ⟨T₂, hT₂, rfl, hother₂, hreceived₂⟩ :=
    local_step (fun _ _ he => by cases he) h₂
  exact ⟨T₁, T₂, hT₁, hT₂, hview₁, hview₂, hstream, hother₁,
    hother₂.trans hother₁, hreceived₂.trans hreceived₁⟩

/-- A read can return the bytes that come next. -/
theorem receive_step (sodium : Sodium) {S : System} {r : Role} {before chunk after : Bytes}
    (hstream : (S.peer r.other).session.outbox.stream
      = before ++ (chunk ++ after))
    (hreceived : S.received r = before.length) (hpos : chunk ≠ [])
    (hlen : chunk.length ≤ tcpTotalPacketSize) (now : Int64) :
    ∃ T, Step sodium S (r, .read chunk now) T
      ∧ T.peer r = (S.peer r).completeRead now chunk
      ∧ T.peer r.other = S.peer r.other
      ∧ T.received r = S.received r + chunk.length
      ∧ T.received r.other = S.received r.other := by
  refine ⟨_, .receive ?_ (.read hpos hlen), Function.update_self .., ?_,
    Function.update_self .., ?_⟩
  · rw [hstream, hreceived, List.drop_left]
    exact List.prefix_append chunk after
  · exact Function.update_of_ne r.other_ne ..
  · exact Function.update_of_ne r.other_ne ..

/-- Every read returns exactly one packet, in the order sent: the n-th
read of a side returns the n-th packet of the other. -/
def Intact (S : System) : Role × Event → Prop
  | (r, .read chunk _) =>
      (S.peer r.other).view.sent[(S.peer r).reads]? = some chunk
  | _ => True

end System

end Remc.Net
