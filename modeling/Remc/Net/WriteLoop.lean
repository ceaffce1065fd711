/-
How many writes of one session are in flight.

A posted handler starts a write of its own whenever it runs, so at most
one write is outstanding exactly as long as no handler runs during
another write (`atMostOneWrite_iff`), and the stream is then the bytes of
one packet behind those of another. Nothing in the session keeps a
handler from doing so: two `Write` calls in a row are enough.
-/
import Remc.Net.Peer

namespace Remc.Net.Peer

open Crypto Containers Runs

variable {sodium : Sodium}

/-- At most one `async_write` of the session is outstanding. -/
def AtMostOneWrite (p : Peer) : Prop := p.session.outbox.outstanding ≤ 1

/-- Posted closures run only while no `async_write` is outstanding. -/
def HandlersIdle (p : Peer) : Event → Prop
  | .handler _ _ => p.session.outbox.outstanding = 0
  | _ => True

-- ==================================================== one step, and a run

/-- From at most one write on, a step ends there exactly if it is no
handler that runs during a write. -/
theorem atMostOneWrite_step {p q : Peer} {e : Event} (hp : p.Sound)
    (hone : p.AtMostOneWrite) (h : Step sodium p e q) :
    q.AtMostOneWrite ↔ HandlersIdle p e := by
  unfold AtMostOneWrite at hone ⊢
  cases e with
  | write w =>
      cases h
      exact iff_of_true hone trivial
  | handler now drawn =>
      obtain ⟨w, rest, messageQueue, -, -, rfl⟩ := handler_step hp h
      have hstart := Outbox.outstanding_start p.writes
        (w.packet now drawn p.session)
      show (p.writes ++ [_]).countP _ ≤ 1 ↔ p.session.outbox.outstanding = 0
      rw [hstart]
      show p.session.outbox.outstanding + 1 ≤ 1 ↔ _
      omega
  | transfer i n =>
      cases h with
      | @transfer _ _ w hw hopen hpos hn =>
          have hle : (p.writes.set i
              { w with transferred := w.transferred + n }).countP _ ≤ _ :=
            Outbox.outstanding_set hw id
          refine iff_of_true ?_ trivial
          rw [transfer_eq hw]
          exact hle.trans hone
  | written i ec now =>
      obtain ⟨w, hw, -, rfl⟩ := written_step hp h
      refine iff_of_true ?_ trivial
      exact (Outbox.outstanding_set hw fun _ => rfl).trans hone
  | close =>
      obtain ⟨isOpen, messageQueue, -, rfl⟩ := close_step hp h
      exact iff_of_true hone trivial
  | read chunk now =>
      cases h
      exact iff_of_true hone trivial
  | task k now =>
      cases h with
      | task hτ hrun =>
          obtain ⟨-, houtbox, -⟩ := Task.run_frame hrun
          refine iff_of_true ?_ trivial
          rw [houtbox]
          exact hone

-- ================================================================ the stream

/-- The bytes the stream has taken of a write. -/
def taken (w : AsyncWrite) : Bytes := w.buffer.take w.transferred

/-- The stream is the bytes taken of each write, one write behind the
other. -/
def Contiguous (p : Peer) : Prop :=
  p.session.outbox.stream = (p.writes.map taken).flatten

/-- Only the last write is outstanding. -/
def LastOpen (ws : List AsyncWrite) : Prop :=
  ∀ (i : Nat) (w : AsyncWrite), ws[i]? = some w → w.completed = false →
    i + 1 = ws.length

/-- A write that is started while none is outstanding is the only one. -/
theorem lastOpen_start {ws : List AsyncWrite}
    (hidle : ws.countP (fun w => !w.completed) = 0) (w : AsyncWrite) :
    LastOpen (ws ++ [w]) := by
  intro i v hv hopen
  rw [List.length_append]
  rcases Nat.lt_or_ge i ws.length with hlt | hge
  · rw [List.getElem?_append_left hlt] at hv
    have hdone := List.countP_eq_zero.mp hidle v (List.mem_of_getElem? hv)
    rw [hopen] at hdone
    exact absurd rfl hdone
  · have hlt := (List.getElem?_eq_some_iff.mp hv).1
    rw [List.length_append] at hlt
    exact Nat.le_antisymm hlt (Nat.succ_le_succ hge)

/-- A write that has been outstanding may go on being so. -/
theorem lastOpen_set {ws : List AsyncWrite} (h : LastOpen ws) {i : Nat}
    {w w' : AsyncWrite} (hw : ws[i]? = some w)
    (hle : w.completed = true → w'.completed = true) :
    LastOpen (ws.set i w') := by
  intro j v hv hopen
  rw [List.length_set]
  rcases eq_or_ne i j with rfl | hne
  · rw [List.getElem?_set_self (List.getElem?_eq_some_iff.mp hw).1] at hv
    cases hv
    refine h i w hw ?_
    by_contra hdone
    rw [hle (eq_true_of_ne_false hdone)] at hopen
    cases hopen
  · rw [List.getElem?_set_ne hne] at hv
    exact h j v hv hopen

/-- The bytes of the last write come last. -/
theorem contiguous_transfer {ws : List AsyncWrite} {i n : Nat} {w : AsyncWrite}
    (hw : ws[i]? = some w) (hlast : i + 1 = ws.length) :
    ((ws.set i { w with transferred := w.transferred + n }).map taken).flatten
      = (ws.map taken).flatten ++ (w.buffer.drop w.transferred).take n := by
  obtain ⟨front, v, rfl⟩ : ∃ front v, ws = front ++ [v] := by
    refine ⟨ws.dropLast, ws.getLast ?_, (List.dropLast_append_getLast ?_).symm⟩
    all_goals
      rintro rfl
      cases hw
  obtain rfl : i = front.length := by
    rw [List.length_append] at hlast
    exact Nat.succ_inj.mp hlast
  rw [List.getElem?_concat_length] at hw
  cases hw
  rw [List.set_append_right _ _ le_rfl, Nat.sub_self, List.set_cons_zero,
    List.map_append, List.map_append, List.flatten_append, List.flatten_append,
    List.append_assoc]
  congr 1
  simp only [List.map_cons, List.map_nil, List.flatten_singleton, taken]
  exact List.take_add ..

/-- While closures run only between writes, a step keeps the bytes of the
writes apart. -/
theorem contiguous_step {p q : Peer} {e : Event} (hp : p.Sound)
    (hlast : LastOpen p.writes) (hstream : p.Contiguous)
    (h : Step sodium p e q) (hidle : HandlersIdle p e) :
    LastOpen q.writes ∧ q.Contiguous := by
  cases e with
  | write w =>
      cases h
      exact ⟨hlast, hstream⟩
  | handler now drawn =>
      obtain ⟨w, rest, messageQueue, -, -, rfl⟩ := handler_step hp h
      refine ⟨lastOpen_start hidle _, ?_⟩
      show p.session.outbox.stream = ((p.writes ++ [_]).map taken).flatten
      rw [List.map_append, List.flatten_append]
      exact hstream.trans (List.append_nil _).symm
  | transfer i n =>
      cases h with
      | @transfer _ _ w hw hopen hpos hn =>
          unfold Contiguous
          dsimp only [writes]
          rw [transfer_eq hw]
          refine ⟨lastOpen_set hlast hw id, ?_⟩
          rw [contiguous_transfer hw (hlast i w hw hopen)]
          exact congrArg (· ++ _) hstream
  | written i ec now =>
      obtain ⟨w, hw, -, rfl⟩ := written_step hp h
      have htaken : (p.writes.set i { w with completed := true }).map taken
          = p.writes.map taken := Outbox.map_set_eq taken hw rfl
      refine ⟨lastOpen_set hlast hw fun _ => rfl, ?_⟩
      show p.session.outbox.stream = ((p.writes.set i _).map taken).flatten
      rw [htaken]
      exact hstream
  | close =>
      obtain ⟨isOpen, messageQueue, -, rfl⟩ := close_step hp h
      exact ⟨hlast, hstream⟩
  | read chunk now =>
      cases h
      exact ⟨hlast, hstream⟩
  | task k now =>
      have houtbox := task_outbox h
      unfold Contiguous writes
      rw [houtbox]
      exact ⟨hlast, hstream⟩

/-- In every run of either session class, at most one write is
outstanding in every state, and the bytes of the writes are apart on the
stream, exactly if every posted closure runs while none is outstanding. -/
theorem atMostOneWrite_iff (sodium : Sodium) (role : Role)
    (keys : KeysWrapper) (now : Int64) (es : List Event) (q : Peer) :
    Run (Into (Step sodium) fun q => q.AtMostOneWrite ∧ q.Contiguous)
        (start role keys now) es q
      ↔ Run (When (Step sodium) HandlersIdle) (start role keys now) es q := by
  have hpres : ∀ p e q, Sound p → Step sodium p e q → Sound q :=
    fun _ _ _ hp h => hp.step h
  have hstart := start_sound role keys now
  constructor
  · intro h
    have hone : Run (Into (Step sodium) AtMostOneWrite)
        (start role keys now) es q := h.mono fun _ _ _ h => ⟨h.1, h.2.1⟩
    exact (Run.into_iff_when hpres (fun _ _ _ hp hone h =>
      atMostOneWrite_step hp hone h) hstart (Nat.zero_le 1)).mp hone
  · intro h
    have hinto : Run (Into (Step sodium) fun q =>
        (q.AtMostOneWrite ∧ q.Contiguous) ∧ LastOpen q.writes)
        (start role keys now) es q := by
      refine (Run.into_iff_when hpres ?_ hstart
        ⟨⟨Nat.zero_le 1, rfl⟩, fun i w hw => by cases hw⟩).mpr h
      rintro p e q hp ⟨⟨hone, hstream⟩, hlast⟩ hstep
      have hiff := atMostOneWrite_step hp hone hstep
      constructor
      · intro hq
        exact hiff.mp hq.1.1
      · intro hidle
        obtain ⟨hlast', hstream'⟩ :=
          contiguous_step hp hlast hstream hstep hidle
        exact ⟨⟨hiff.mpr hidle, hstream'⟩, hlast'⟩
    exact hinto.mono fun _ _ _ h => ⟨h.1, h.2.1⟩

-- ============================================================ two writes

/-- Two `Write` calls, and the executor runs both closures. -/
theorem writes_overlap (sodium : Sodium) (role : Role) (keys : KeysWrapper) {w : PostedWrite}
    (hrole : w.role = role) (hsize : w.payload.length ≤ tcpPayloadSizeMax)
    (now : Int64) (drawn : UInt64) :
    ∃ q, Run (Step sodium) (start role keys now)
        [.write w, .write w, .handler now drawn, .handler now drawn] q
      ∧ q.session.outbox.outstanding = 2 := by
  have h₁ : Step sodium (start role keys now) (.write w)
      { start role keys now with posted := [w] } := write_step hrole hsize
  have h₂ : Step sodium { start role keys now with posted := [w] } (.write w)
      { start role keys now with posted := [w, w] } := write_step hrole hsize
  have hsound := ((start_sound role keys now).step h₁).step h₂
  obtain ⟨q₁, h₃, hposted, hout₁, -⟩ :=
    handler_enabled sodium hsound rfl now drawn
  obtain ⟨q₂, h₄, -, hout₂, -⟩ :=
    handler_enabled sodium (hsound.step h₃) hposted now drawn
  refine ⟨q₂, .cons h₁ (.cons h₂ (.cons h₃ (.cons h₄ (.nil q₂)))), ?_⟩
  rw [hout₂, hout₁]
  rfl

/-- A server session asked to write two empty payloads. -/
theorem two_writes_outstanding :
    ¬∀ (sodium : Sodium) (role : Role) (keys : KeysWrapper) (now : Int64)
        (es : List Event) (q : Peer),
        Run (Step sodium) (start role keys now) es q → q.AtMostOneWrite := by
  intro hall
  obtain ⟨q, hrun, hout⟩ := writes_overlap ⟨id, fun _ _ => none, id⟩ .server
    ⟨Key.zero, Key.zero⟩ (w := .server Flags.noFlags 0 []) rfl (Nat.zero_le _)
    0 0
  have hone := hall _ _ _ _ _ q hrun
  unfold AtMostOneWrite at hone
  omega

end Remc.Net.Peer
