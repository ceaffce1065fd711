/-
Programs over any number of ring buffers: constructions, moves, swaps
and queue operations in any order, against the same program over
bounded queues.

`exec` interprets one call over an `Interface`, so the program is the
same for the buffers of the source and for the queues they stand for,
and one simulation (`exec_simulates`) relates the two. A call that names
no object is no call: it answers `done` and changes nothing on either
side.

`Refines` is the contract of a whole program: no copy leaves a storage
(the run over the buffers is not a violation), both runs give the same
answers, and the buffers conform to the queues at the end. It holds of
every prefix of a program exactly when no buffer is constructed with a
capacity for which `capacity + 1` wraps: such a buffer has no storage at
all, although nothing was moved from it.
-/
import Remc.RingBuffer.Refinement
import Mathlib.Data.List.Forall2

namespace Remc.Containers

-- ============================================================== programs

/-- One call of a program over a growing list of buffers, which it
names by position. -/
inductive Op where
  | construct (capacity : UInt64)
  | moveConstruct (source : Nat)
  | moveAssign (target source : Nat)
  | swap (a b : Nat)
  | clear (a : Nat)
  | push (a : Nat) (data : Bytes)
  | pop (a : Nat)
deriving DecidableEq, Repr

/-- What a call returns. -/
inductive Answer where
  | done
  | threw (what : String)
  | pushed (ok : Bool)
  | popped (message : Option Bytes)
deriving DecidableEq, Repr

/-- The member functions of one object. -/
structure Interface (α : Type) where
  new : UInt64 → Except String α
  movedFrom : α
  clear : α → α
  push : α → Bytes → Checked (Bool × α)
  pop : α → Checked (Option Bytes × α)

/-- One call. The move assignment skips itself; a swap exchanges
everything. -/
def exec {α : Type} (I : Interface α) (s : List α) :
    Op → Checked (Answer × List α)
  | .construct capacity =>
      match I.new capacity with
      | .error what => .ok (.threw what, s)
      | .ok obj => .ok (.done, s ++ [obj])
  | .moveConstruct i =>
      match s[i]? with
      | some obj => .ok (.done, s.set i I.movedFrom ++ [obj])
      | none => .ok (.done, s)
  | .moveAssign i j =>
      if i = j then .ok (.done, s)
      else match s[i]?, s[j]? with
        | some _, some obj => .ok (.done, (s.set i obj).set j I.movedFrom)
        | _, _ => .ok (.done, s)
  | .swap i j =>
      match s[i]?, s[j]? with
      | some a, some b => .ok (.done, (s.set i b).set j a)
      | _, _ => .ok (.done, s)
  | .clear i =>
      match s[i]? with
      | some obj => .ok (.done, s.set i (I.clear obj))
      | none => .ok (.done, s)
  | .push i data =>
      match s[i]? with
      | some obj => do
          let (ok, obj) ← I.push obj data
          return (.pushed ok, s.set i obj)
      | none => .ok (.done, s)
  | .pop i =>
      match s[i]? with
      | some obj => do
          let (message, obj) ← I.pop obj
          return (.popped message, s.set i obj)
      | none => .ok (.done, s)

/-- A program: its answers and the objects it ends with. -/
def execAll {α : Type} (I : Interface α) :
    List α → List Op → Checked (List Answer × List α)
  | s, [] => .ok ([], s)
  | s, op :: ops => do
      let (answer, s) ← exec I s op
      let (answers, s) ← execAll I s ops
      return (answer :: answers, s)

/-- The buffers of the source. -/
def RingBuffer.interface (P : PrefixSizeType) : Interface RingBuffer where
  new := RingBuffer.new
  movedFrom := .movedFrom
  clear := RingBuffer.clear
  push := RingBuffer.push P
  pop := RingBuffer.pop P

/-- The queues they stand for. A queue comes into being where the
buffer's constructor returns, with the capacity that was asked for. -/
def Fifo.interface (P : PrefixSizeType) : Interface Fifo where
  new capacity :=
    (RingBuffer.new capacity).map fun _ =>
      { capacity := capacity.toNat, queue := [], live := true }
  movedFrom := .movedFrom
  clear := Fifo.clear
  push f d := .ok (f.push P d)
  pop f := .ok f.pop

-- ============================================================ simulation

/-- Every member function of `I` answers as `J`'s does and keeps the
relation, for the capacities of `A`. -/
structure Simulates {α β : Type} (A : UInt64 → Prop) (I : Interface α)
    (J : Interface β) (R : α → β → Prop) : Prop where
  new : ∀ c, A c →
    (∃ e, I.new c = .error e ∧ J.new c = .error e)
      ∨ ∃ a b, I.new c = .ok a ∧ J.new c = .ok b ∧ R a b
  movedFrom : R I.movedFrom J.movedFrom
  clear : ∀ {a b}, R a b → R (I.clear a) (J.clear b)
  push : ∀ {a b} d, R a b → ∃ ok a' b',
    I.push a d = .ok (ok, a') ∧ J.push b d = .ok (ok, b') ∧ R a' b'
  pop : ∀ {a b}, R a b → ∃ m a' b',
    I.pop a = .ok (m, a') ∧ J.pop b = .ok (m, b') ∧ R a' b'

/-- The capacities a call asks for. -/
def Op.Asks (A : UInt64 → Prop) (op : Op) : Prop :=
  ∀ c, op = .construct c → A c

section Simulation

variable {α β : Type} {A : UInt64 → Prop} {I : Interface α}
  {J : Interface β} {R : α → β → Prop}

/-- Related lists have related elements at every position. -/
theorem forall₂_getElem? {s : List α} {t : List β}
    (h : List.Forall₂ R s t) (i : Nat) :
    (s[i]? = none ∧ t[i]? = none)
      ∨ ∃ a b, s[i]? = some a ∧ t[i]? = some b ∧ R a b := by
  induction h generalizing i with
  | nil => exact Or.inl ⟨rfl, rfl⟩
  | cons hab _ ih =>
      cases i with
      | zero => exact Or.inr ⟨_, _, rfl, rfl, hab⟩
      | succ i => simpa using ih i

/-- Writing related elements keeps lists related. -/
theorem forall₂_set {s : List α} {t : List β} {a : α} {b : β}
    (h : List.Forall₂ R s t) (hab : R a b) (i : Nat) :
    List.Forall₂ R (s.set i a) (t.set i b) := by
  induction h generalizing i with
  | nil => exact .nil
  | cons hxy hrest ih =>
      cases i with
      | zero => exact .cons hab hrest
      | succ i => exact .cons hxy (ih i)

theorem forall₂_snoc {s : List α} {t : List β} {a : α} {b : β}
    (h : List.Forall₂ R s t) (hab : R a b) :
    List.Forall₂ R (s ++ [a]) (t ++ [b]) :=
  List.rel_append h (.cons hab .nil)

/-- One call on related objects gives one answer and related
objects. -/
theorem exec_simulates (hsim : Simulates A I J R) {s : List α}
    {t : List β} (h : List.Forall₂ R s t) {op : Op} (hop : op.Asks A) :
    ∃ answer s' t', exec I s op = .ok (answer, s')
      ∧ exec J t op = .ok (answer, t') ∧ List.Forall₂ R s' t' := by
  cases op with
  | construct c =>
      rcases hsim.new c (hop c rfl) with ⟨e, hI, hJ⟩ | ⟨a, b, hI, hJ, hab⟩
      · simp only [exec, hI, hJ]
        exact ⟨_, _, _, rfl, rfl, h⟩
      · simp only [exec, hI, hJ]
        exact ⟨_, _, _, rfl, rfl, forall₂_snoc h hab⟩
  | moveConstruct i =>
      rcases forall₂_getElem? h i with ⟨hs, ht⟩ | ⟨a, b, hs, ht, hab⟩
      · simp only [exec, hs, ht]
        exact ⟨_, _, _, rfl, rfl, h⟩
      · simp only [exec, hs, ht]
        exact ⟨_, _, _, rfl, rfl,
          forall₂_snoc (forall₂_set h hsim.movedFrom i) hab⟩
  | moveAssign i j =>
      by_cases hij : i = j
      · simp only [exec, if_pos hij]
        exact ⟨_, _, _, rfl, rfl, h⟩
      · rcases forall₂_getElem? h i with ⟨hs, ht⟩ | ⟨a, b, hs, ht, -⟩
        · simp only [exec, if_neg hij, hs, ht]
          exact ⟨_, _, _, rfl, rfl, h⟩
        · rcases forall₂_getElem? h j with ⟨hs', ht'⟩ | ⟨a', b', hs', ht', hab⟩
          · simp only [exec, if_neg hij, hs, ht, hs', ht']
            exact ⟨_, _, _, rfl, rfl, h⟩
          · simp only [exec, if_neg hij, hs, ht, hs', ht']
            exact ⟨_, _, _, rfl, rfl,
              forall₂_set (forall₂_set h hab i) hsim.movedFrom j⟩
  | swap i j =>
      rcases forall₂_getElem? h i with ⟨hs, ht⟩ | ⟨a, b, hs, ht, hab⟩
      · simp only [exec, hs, ht]
        exact ⟨_, _, _, rfl, rfl, h⟩
      · rcases forall₂_getElem? h j with ⟨hs', ht'⟩ | ⟨a', b', hs', ht', hab'⟩
        · simp only [exec, hs, ht, hs', ht']
          exact ⟨_, _, _, rfl, rfl, h⟩
        · simp only [exec, hs, ht, hs', ht']
          exact ⟨_, _, _, rfl, rfl, forall₂_set (forall₂_set h hab' i) hab j⟩
  | clear i =>
      rcases forall₂_getElem? h i with ⟨hs, ht⟩ | ⟨a, b, hs, ht, hab⟩
      · simp only [exec, hs, ht]
        exact ⟨_, _, _, rfl, rfl, h⟩
      · simp only [exec, hs, ht]
        exact ⟨_, _, _, rfl, rfl, forall₂_set h (hsim.clear hab) i⟩
  | push i d =>
      rcases forall₂_getElem? h i with ⟨hs, ht⟩ | ⟨a, b, hs, ht, hab⟩
      · simp only [exec, hs, ht]
        exact ⟨_, _, _, rfl, rfl, h⟩
      · obtain ⟨ok, a', b', hI, hJ, hab'⟩ := hsim.push d hab
        simp only [exec, hs, ht, hI, hJ, ok_bind]
        exact ⟨_, _, _, rfl, rfl, forall₂_set h hab' i⟩
  | pop i =>
      rcases forall₂_getElem? h i with ⟨hs, ht⟩ | ⟨a, b, hs, ht, hab⟩
      · simp only [exec, hs, ht]
        exact ⟨_, _, _, rfl, rfl, h⟩
      · obtain ⟨m, a', b', hI, hJ, hab'⟩ := hsim.pop hab
        simp only [exec, hs, ht, hI, hJ, ok_bind]
        exact ⟨_, _, _, rfl, rfl, forall₂_set h hab' i⟩

/-- A program on related objects gives one list of answers and related
objects: induction over the calls. -/
theorem execAll_simulates (hsim : Simulates A I J R) {ops : List Op}
    (hops : ∀ op ∈ ops, op.Asks A) {s : List α} {t : List β}
    (h : List.Forall₂ R s t) :
    ∃ answers s' t', execAll I s ops = .ok (answers, s')
      ∧ execAll J t ops = .ok (answers, t') ∧ List.Forall₂ R s' t' := by
  induction ops generalizing s t with
  | nil => exact ⟨_, _, _, rfl, rfl, h⟩
  | cons op ops ih =>
      obtain ⟨answer, s₁, t₁, hs, ht, h₁⟩ :=
        exec_simulates hsim h (hops op (List.mem_cons_self ..))
      obtain ⟨answers, s₂, t₂, hs', ht', h₂⟩ :=
        ih (fun op hop => hops op (List.mem_cons_of_mem _ hop)) h₁
      refine ⟨answer :: answers, s₂, t₂, ?_, ?_, h₂⟩
      · simp only [execAll, hs, hs', ok_bind]
        rfl
      · simp only [execAll, ht, ht', ok_bind]
        rfl

end Simulation

/-- The source's buffers simulate bounded queues at every capacity for
which `capacity + 1` does not wrap. -/
theorem ringBuffer_simulates (P : PrefixSizeType) :
    Simulates (fun c => c.toNat ≠ 2 ^ 64 - 1) (RingBuffer.interface P)
      (Fifo.interface P) (Represents P) where
  new c hc := by
    show (∃ e, RingBuffer.new c = _ ∧ (RingBuffer.new c).map _ = _)
      ∨ ∃ a b, RingBuffer.new c = _ ∧ (RingBuffer.new c).map _ = _ ∧ _
    cases hnew : RingBuffer.new c with
    | error e => exact Or.inl ⟨e, rfl, rfl⟩
    | ok rb => exact Or.inr ⟨rb, _, rfl, rfl, represents_new hnew hc⟩
  movedFrom := .moved
  clear h := h.clear
  push d h := by
    obtain ⟨rb', hpush, hrep⟩ := h.push d
    exact ⟨_, rb', _, hpush, rfl, hrep⟩
  pop h := by
    obtain ⟨rb', hpop, hrep⟩ := h.pop
    exact ⟨_, rb', _, hpop, rfl, hrep⟩

-- ============================================================= contract

/-- The contract of a program: it runs without leaving a storage, gives
the answers of the same program over queues, and ends with buffers that
conform to those queues. -/
def Refines (P : PrefixSizeType) (ops : List Op) : Prop :=
  ∃ answers buffers queues,
    execAll (RingBuffer.interface P) [] ops = .ok (answers, buffers)
      ∧ execAll (Fifo.interface P) [] ops = .ok (answers, queues)
      ∧ List.Forall₂ (Conforms P) buffers queues

/-- A program's last call runs on what the calls before it left. -/
theorem execAll_snoc {α : Type} {I : Interface α} {ops : List Op}
    {op : Op} {s t : List α} {answers : List Answer}
    (h : execAll I s (ops ++ [op]) = .ok (answers, t)) :
    ∃ u answer, exec I u op = .ok (answer, t) := by
  induction ops generalizing s answers with
  | nil =>
      obtain ⟨⟨answer, u⟩, hop, hrest⟩ := bind_eq_ok h
      cases hrest
      exact ⟨s, answer, hop⟩
  | cons op' ops ih =>
      obtain ⟨⟨answer, u⟩, -, hrest⟩ := bind_eq_ok h
      obtain ⟨⟨answers', t'⟩, hall, hend⟩ := bind_eq_ok hrest
      cases hend
      exact ih hall

/-- The storage asked for with the largest `std::size_t` is empty:
`capacity + 1` is zero. -/
theorem new_wrapped {c : UInt64} (h : c.toNat = 2 ^ 64 - 1) :
    RingBuffer.new c = .ok .movedFrom := by
  have hc : c = 18446744073709551615 := UInt64.toNat_inj.mp h
  subst hc
  rfl

/-- A program that constructs a buffer of the largest `std::size_t`
leaves one that was never moved from and whose positions are outside its
storage. -/
theorem not_refines_wrapped {P : PrefixSizeType} {ops : List Op}
    {c : UInt64} (hc : c.toNat = 2 ^ 64 - 1) :
    ¬Refines P (ops ++ [.construct c]) := by
  rintro ⟨answers, buffers, queues, hI, hJ, hconf⟩
  obtain ⟨s, answer, hs⟩ := execAll_snoc hI
  obtain ⟨t, answer', ht⟩ := execAll_snoc hJ
  have hnewI : (RingBuffer.interface P).new c = .ok .movedFrom :=
    new_wrapped hc
  have hnewJ : (Fifo.interface P).new c
      = .ok { capacity := c.toNat, queue := [], live := true } := by
    show (RingBuffer.new c).map _ = _
    rw [new_wrapped hc]
    rfl
  simp only [exec, hnewI, Except.ok.injEq, Prod.mk.injEq] at hs
  simp only [exec, hnewJ, Except.ok.injEq, Prod.mk.injEq] at ht
  obtain ⟨-, rfl⟩ := hs
  obtain ⟨-, rfl⟩ := ht
  have hlen := hconf.length_eq
  rw [List.length_append, List.length_append] at hlen
  have hlen' : s.length = t.length := Nat.add_right_cancel hlen
  rcases forall₂_getElem? hconf s.length with ⟨hs, -⟩ | ⟨a, b, hs, ht, hab⟩
  · simp at hs
  · rw [List.getElem?_concat_length] at hs
    rw [hlen', List.getElem?_concat_length] at ht
    cases hs
    cases ht
    exact absurd (hab.positions rfl).1 (Nat.lt_irrefl 0)

/-- `RingBuffer` refines a bounded FIFO queue along a program, at every
call of it, if and only if the program constructs no buffer whose
`capacity + 1` wraps. -/
theorem refines_iff (P : PrefixSizeType) (ops : List Op) :
    (∀ n, Refines P (ops.take n))
      ↔ ∀ c, Op.construct c ∈ ops → c.toNat ≠ 2 ^ 64 - 1 := by
  constructor
  · intro hall c hmem hc
    obtain ⟨pre, post, rfl⟩ := List.append_of_mem hmem
    have htake : (pre ++ .construct c :: post).take (pre.length + 1)
        = pre ++ [.construct c] := by
      rw [List.take_append, List.take_of_length_le (Nat.le_succ _)]
      simp
    have h := hall (pre.length + 1)
    rw [htake] at h
    exact not_refines_wrapped hc h
  · intro hops n
    have hasks : ∀ op ∈ ops.take n, op.Asks (fun c => c.toNat ≠ 2 ^ 64 - 1) := by
      rintro op hop c rfl
      exact hops c (List.mem_of_mem_take hop)
    obtain ⟨answers, s, t, hI, hJ, hrep⟩ :=
      execAll_simulates (ringBuffer_simulates P) hasks .nil
    exact ⟨answers, s, t, hI, hJ, hrep.imp fun _ _ h => h.conforms⟩

/-- The contract fails for the capacity `SIZE_MAX`, which is not zero:
the constructor returns, and the fresh buffer's `head_` is not below
`buffer_.size()`. -/
theorem sizeMax_not_refines :
    ¬(∀ (P : PrefixSizeType) (ops : List Op),
        (∀ c, Op.construct c ∈ ops → 1 ≤ c.toNat) → Refines P ops)
      ∧ ∃ rb, RingBuffer.new 18446744073709551615 = .ok rb
          ∧ ¬rb.head < rb.buffer.length := by
  refine ⟨fun hall => ?_, _, rfl, Nat.lt_irrefl 0⟩
  have hops : ∀ c, Op.construct c ∈ [Op.construct 18446744073709551615] →
      1 ≤ c.toNat := by
    intro c hc
    cases List.mem_singleton.mp hc
    decide
  have hrun : Refines .uint16 ([] ++ [.construct 18446744073709551615]) :=
    hall .uint16 _ hops
  exact not_refines_wrapped rfl hrun

end Remc.Containers
