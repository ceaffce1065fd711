/-
`RingBuffer` refines a bounded FIFO queue of byte strings.

`Fifo` is what the buffer is for: a capacity, the queued messages, and
whether the storage has been moved away. A message costs its length
plus the prefix; `Fifo.push` accepts one exactly when it is not empty,
its length fits the prefix type and its cost fits the capacity.

`Represents` ties a buffer to a queue through the bytes the circular
storage holds (`Ring.Holds`): the queued messages, each behind its
stored size, oldest first. Both lambdas of the source are operations on
those bytes (`pushSpan_eq`, `popSpan_eq`), so `Push` and `Pop` are shown
once at the level of byte strings and never at the level of positions.
-/
import Remc.RingBuffer.Basic

namespace Remc.Containers

variable {P : PrefixSizeType}

-- ==================================================== the bounded queue

/-- A bounded queue of byte strings; `live` is false once its storage
has been moved away. -/
structure Fifo where
  capacity : Nat
  queue : List Bytes
  live : Bool
deriving DecidableEq, Repr

namespace Fifo

/-- What the queued messages cost, their prefixes included. -/
def used (P : PrefixSizeType) (f : Fifo) : Nat :=
  (f.queue.map fun m => m.length + P.sizeof).sum

/-- The messages a queue of this capacity can take now. -/
def Accepts (P : PrefixSizeType) (f : Fifo) (d : Bytes) : Prop :=
  d ≠ [] ∧ d.length ≤ P.max
    ∧ f.used P + d.length + P.sizeof ≤ f.capacity

instance (P : PrefixSizeType) (f : Fifo) (d : Bytes) :
    Decidable (f.Accepts P d) :=
  inferInstanceAs (Decidable (_ ∧ _ ∧ _))

def push (P : PrefixSizeType) (f : Fifo) (d : Bytes) : Bool × Fifo :=
  if f.Accepts P d then (true, { f with queue := f.queue ++ [d] })
  else (false, f)

def pop (f : Fifo) : Option Bytes × Fifo :=
  match f.queue with
  | [] => (none, f)
  | d :: rest => (some d, { f with queue := rest })

def clear (f : Fifo) : Fifo := { f with queue := [] }

/-- What a move leaves behind: no capacity, no messages. -/
def movedFrom : Fifo := { capacity := 0, queue := [], live := false }

end Fifo

-- ==================================================== the stored bytes

/-- A message as the storage holds it: its size, then its bytes. -/
def frame (P : PrefixSizeType) (d : Bytes) : Bytes :=
  P.store d.length ++ d

/-- The bytes of a queue, oldest message first. -/
def frames (P : PrefixSizeType) (q : List Bytes) : Bytes :=
  q.flatMap (frame P)

theorem frame_length (d : Bytes) :
    (frame P d).length = d.length + P.sizeof := by
  rw [frame, List.length_append, PrefixSizeType.store_length,
    Nat.add_comm]

/-- The stored bytes of a queue are as many as its messages cost. -/
theorem frames_length (f : Fifo) :
    (frames P f.queue).length = f.used P := by
  rw [frames, List.length_flatMap]
  unfold Fifo.used
  congr 1
  exact List.map_congr_left fun d _ => frame_length d

theorem frames_snoc (q : List Bytes) (d : Bytes) :
    frames P (q ++ [d]) = frames P q ++ P.store d.length ++ d := by
  simp [frames, frame]

theorem frames_cons (d : Bytes) (q : List Bytes) :
    frames P (d :: q) = P.store d.length ++ (d ++ frames P q) := by
  simp [frames, frame]

-- ==================================================== representation

/-- The buffer `rb` represents the queue `f`: a live buffer holds the
queue's bytes in a storage one byte larger than the capacity, and a
moved-from one is empty. -/
inductive Represents (P : PrefixSizeType) : RingBuffer → Fifo → Prop
  | live {rb : RingBuffer} {f : Fifo} (hlive : f.live = true)
      (hcap : rb.buffer.length = f.capacity + 1)
      (hholds : Ring.Holds rb.buffer rb.tail rb.head (frames P f.queue))
      (hmsgs : ∀ m ∈ f.queue, m ≠ [] ∧ m.length ≤ P.max) :
      Represents P rb f
  | moved : Represents P .movedFrom .movedFrom

/-- What a caller can observe of a represented queue: the capacity, the
free space, positions inside the storage, and a refused message that
changes nothing. -/
structure Conforms (P : PrefixSizeType) (rb : RingBuffer) (f : Fifo) :
    Prop where
  capacity : rb.getCapacity = f.capacity
  freeSpace : rb.freeSpace + f.used P = rb.getCapacity
  positions : f.live = true →
    rb.head < rb.buffer.length ∧ rb.tail < rb.buffer.length
  refused : ∀ d rb', rb.push P d = .ok (false, rb') → rb' = rb

/-- A refused message leaves every buffer as it was. -/
theorem push_refused {rb rb' : RingBuffer} {d : Bytes}
    (h : rb.push P d = .ok (false, rb')) : rb' = rb := by
  unfold RingBuffer.push at h
  split at h
  next => cases h; rfl
  next =>
    obtain ⟨rb₁, -, h⟩ := bind_eq_ok h
    obtain ⟨rb₂, -, h⟩ := bind_eq_ok h
    cases h

/-- A storage of positive size is not empty. -/
theorem isEmpty_of_length_succ {l : Bytes} {n : Nat}
    (h : l.length = n + 1) : l.isEmpty = false := by
  cases l with
  | nil => simp at h
  | cons _ _ => rfl

theorem Represents.conforms {rb : RingBuffer} {f : Fifo}
    (h : Represents P rb f) : Conforms P rb f := by
  cases h with
  | live hlive hcap hholds hmsgs =>
      have hne := isEmpty_of_length_succ hcap
      have hgetcap : rb.getCapacity = f.capacity := by
        rw [RingBuffer.getCapacity, hne, hcap]
        rfl
      refine ⟨hgetcap, ?_, fun _ => ⟨hholds.head_lt, hholds.tail_lt⟩,
        fun _ _ => push_refused⟩
      have hfit := hholds.fits
      have hused := frames_length (P := P) f
      rw [RingBuffer.freeSpace, hne, if_neg Bool.false_ne_true,
        hholds.free_eq, hgetcap]
      omega
  | moved =>
      refine ⟨rfl, rfl, fun hlive => ?_, fun _ _ => push_refused⟩
      cases hlive

/-- A fresh buffer represents the empty queue of its capacity, unless
`capacity + 1` wraps. -/
theorem represents_new {capacity : UInt64} {rb : RingBuffer}
    (hnew : RingBuffer.new capacity = .ok rb)
    (hwrap : capacity.toNat ≠ 2 ^ 64 - 1) :
    Represents P rb
      { capacity := capacity.toNat, queue := [], live := true } := by
  simp only [RingBuffer.new] at hnew
  split at hnew
  next => cases hnew
  next hpos =>
    split at hnew
    next => cases hnew
    next hsize =>
      injection hnew with hrb
      subst hrb
      have hsum : (capacity + 1).toNat = capacity.toNat + 1 := by
        have hlt := capacity.toNat_lt
        rw [UInt64.toNat_add, UInt64.toNat_one, Nat.mod_eq_of_lt (by omega)]
      refine .live rfl ?_ ?_ ?_
      · rw [List.length_replicate, hsum]
      · refine Ring.Holds.nil ?_
        show 0 < (List.replicate (capacity + 1).toNat (0 : UInt8)).length
        rw [List.length_replicate, hsum]
        exact Nat.succ_pos _
      · intro m hm
        cases hm

-- ========================================================= the two copies

/-- `Push`'s lambda is one circular write at the head. -/
theorem pushSpan_eq {rb : RingBuffer} {d : Bytes}
    (hhead : rb.head < rb.buffer.length) (hd : d.length < rb.buffer.length) :
    rb.pushSpan d = .ok { rb with
      buffer := Ring.write rb.buffer rb.head d
      head := (rb.head + d.length) % rb.buffer.length } := by
  simp only [RingBuffer.pushSpan, Ring.write]
  by_cases hwrap : rb.buffer.length - rb.head < d.length
  · rw [if_pos hwrap, if_pos hwrap]
    have hfst : rb.head + (d.take (rb.buffer.length - rb.head)).length
        ≤ rb.buffer.length := by
      rw [List.length_take]
      omega
    have hsnd : 0 + (d.drop (rb.buffer.length - rb.head)).length
        ≤ (Ring.overwrite rb.buffer rb.head
          (d.take (rb.buffer.length - rb.head))).length := by
      rw [Ring.overwrite_length hfst, List.length_drop]
      omega
    have hrest : (d.drop (rb.buffer.length - rb.head)).take
        (d.length - (rb.buffer.length - rb.head))
          = d.drop (rb.buffer.length - rb.head) :=
      List.take_of_length_le (by rw [List.length_drop])
    have hpos : d.length - (rb.buffer.length - rb.head)
        = (rb.head + d.length) % rb.buffer.length := by
      rw [Ring.advance_eq hhead (Nat.le_of_lt hd), if_neg (by omega)]
      omega
    rw [memcpyFrom_of_le (by omega), ok_bind, List.drop_zero,
      memcpyTo_of_le hfst, ok_bind, memcpyFrom_of_le (by omega), ok_bind,
      hrest, memcpyTo_of_le hsnd, ok_bind, hpos]
    rfl
  · rw [if_neg hwrap, if_neg hwrap, memcpyTo_of_le (by omega)]
    rfl

/-- `Pop`'s lambda is one circular read. -/
theorem popSpan_eq {rb : RingBuffer} {n pos : Nat}
    (hpos : pos < rb.buffer.length) (hn : n < rb.buffer.length) :
    rb.popSpan n pos
      = .ok (Ring.read rb.buffer pos n, (pos + n) % rb.buffer.length) := by
  simp only [RingBuffer.popSpan, Ring.read]
  by_cases hwrap : rb.buffer.length - pos < n
  · rw [if_pos hwrap, if_pos hwrap]
    have hadv : (n - (rb.buffer.length - pos)) % rb.buffer.length
        = (pos + n) % rb.buffer.length := by
      rw [Ring.advance_eq hpos (Nat.le_of_lt hn), if_neg (by omega),
        Nat.mod_eq_of_lt (by omega)]
      omega
    have hrest : (rb.buffer.drop pos).take (rb.buffer.length - pos)
        = rb.buffer.drop pos :=
      List.take_of_length_le (by rw [List.length_drop])
    rw [memcpyFrom_of_le (by omega), ok_bind, memcpyFrom_of_le (by omega),
      ok_bind, hrest, List.drop_zero, hadv]
    rfl
  · rw [if_neg hwrap, if_neg hwrap, memcpyFrom_of_le (by omega),
      Nat.add_comm n pos]
    rfl

/-- Copying a span in appends it to what the buffer holds. -/
theorem pushSpan_holds {rb : RingBuffer} {c d : Bytes}
    (h : Ring.Holds rb.buffer rb.tail rb.head c)
    (hfit : c.length + d.length < rb.buffer.length) :
    ∃ rb', rb.pushSpan d = .ok rb'
      ∧ rb'.buffer.length = rb.buffer.length
      ∧ Ring.Holds rb'.buffer rb'.tail rb'.head (c ++ d) :=
  ⟨_, pushSpan_eq h.head_lt (by omega),
    Ring.write_length h.head_lt (by omega), h.write hfit⟩

/-- Copying a span out takes the oldest bytes held. -/
theorem popSpan_holds {rb : RingBuffer} {c : Bytes} {n pos : Nat}
    (h : Ring.Holds rb.buffer pos rb.head c) (hn : n ≤ c.length) :
    ∃ pos', rb.popSpan n pos = .ok (c.take n, pos')
      ∧ Ring.Holds rb.buffer pos' rb.head (c.drop n) := by
  have hfits := h.fits
  obtain ⟨hread, hrest⟩ := h.read hn
  refine ⟨_, ?_, hrest⟩
  rw [popSpan_eq h.tail_lt (by omega), hread]

-- =========================================================== operations

/-- `Push` refuses exactly what the queue does not accept. -/
theorem push_guard_iff {rb : RingBuffer} {f : Fifo}
    (h : Represents P rb f) (d : Bytes) :
    (d.isEmpty ∨ rb.freeSpace < d.length + P.sizeof ∨ P.max < d.length)
      ↔ ¬f.Accepts P d := by
  have hfree : rb.freeSpace + f.used P = f.capacity :=
    h.conforms.freeSpace.trans h.conforms.capacity
  rw [List.isEmpty_iff]
  unfold Fifo.Accepts
  constructor
  · rintro (hnil | hlt | hgt) ⟨hne, hmax, hfit⟩
    · exact hne hnil
    · omega
    · omega
  · intro hacc
    by_cases hne : d = []
    · exact Or.inl hne
    · by_cases hmax : P.max < d.length
      · exact Or.inr (Or.inr hmax)
      · have hlen := List.length_pos_of_ne_nil hne
        have hfit : ¬f.used P + d.length + P.sizeof ≤ f.capacity :=
          fun hle => hacc ⟨hne, by omega, hle⟩
        exact Or.inr (Or.inl (by omega))

/-- `Push` answers as the queue does and represents it afterwards; a
refused message leaves the buffer as it was. -/
theorem Represents.push {rb : RingBuffer} {f : Fifo}
    (h : Represents P rb f) (d : Bytes) :
    ∃ rb', rb.push P d = .ok ((f.push P d).1, rb')
      ∧ Represents P rb' (f.push P d).2 := by
  have hguard := push_guard_iff h d
  unfold RingBuffer.push Fifo.push
  by_cases hacc : f.Accepts P d
  · rw [if_neg (fun hg => hguard.mp hg hacc), if_pos hacc]
    obtain ⟨hne, hmax, hfit⟩ := hacc
    cases h with
    | moved =>
        -- a moved-from queue has no capacity to accept anything
        have hlen := List.length_pos_of_ne_nil hne
        have hcap : Fifo.movedFrom.capacity = 0 := rfl
        omega
    | live hlive hcap hholds hmsgs =>
        have hused := frames_length (P := P) f
        obtain ⟨rb₁, hsize, hlen₁, hholds₁⟩ :=
          pushSpan_holds (d := P.store d.length) hholds (by
            rw [PrefixSizeType.store_length]; omega)
        obtain ⟨rb₂, hdata, hlen₂, hholds₂⟩ :=
          pushSpan_holds (d := d) hholds₁ (by
            rw [List.length_append, PrefixSizeType.store_length]; omega)
        refine ⟨rb₂, ?_, .live hlive ?_ ?_ ?_⟩
        · rw [hsize, ok_bind, hdata]
          rfl
        · rw [hlen₂, hlen₁]
          exact hcap
        · rw [frames_snoc]
          exact hholds₂
        · intro m hm
          rcases List.mem_append.mp hm with hold | hnew
          · exact hmsgs m hold
          · rw [List.mem_singleton.mp hnew]
            exact ⟨hne, hmax⟩
  · rw [if_pos (hguard.mpr hacc), if_neg hacc]
    exact ⟨rb, rfl, h⟩

/-- `IsEmpty` says whether a message is queued. -/
theorem Represents.isEmpty_iff {rb : RingBuffer} {f : Fifo}
    (h : Represents P rb f) : rb.isEmpty = true ↔ f.queue = [] := by
  cases h with
  | moved => exact ⟨fun _ => rfl, fun _ => rfl⟩
  | live hlive hcap hholds hmsgs =>
      have hframes : frames P f.queue = [] ↔ f.queue = [] := by
        constructor
        · intro hnil
          cases hq : f.queue with
          | nil => rfl
          | cons d q =>
              have hd := (hmsgs d (by rw [hq]; exact List.mem_cons_self ..)).1
              rw [hq, frames_cons] at hnil
              obtain ⟨-, hrest⟩ := List.append_eq_nil_iff.mp hnil
              exact absurd (List.append_eq_nil_iff.mp hrest).1 hd
        · intro hnil
          rw [hnil]
          rfl
      unfold RingBuffer.isEmpty
      rw [beq_iff_eq, hholds.head_eq_tail_iff, hframes]

/-- `Pop` returns what the queue returns and represents it
afterwards. -/
theorem Represents.pop {rb : RingBuffer} {f : Fifo}
    (h : Represents P rb f) :
    ∃ rb', rb.pop P = .ok (f.pop.1, rb') ∧ Represents P rb' f.pop.2 := by
  have hempty := h.isEmpty_iff
  unfold RingBuffer.pop Fifo.pop
  cases hq : f.queue with
  | nil =>
      rw [if_pos (hempty.mpr hq)]
      exact ⟨rb, rfl, h⟩
  | cons d q =>
      rw [if_neg (fun he => by rw [hempty.mp he] at hq; cases hq)]
      cases h with
      | moved => cases hq
      | live hlive hcap hholds hmsgs =>
          rw [hq] at hmsgs
          have hmax := (hmsgs d (List.mem_cons_self ..)).2
          rw [hq, frames_cons] at hholds
          have hstore := P.store_length d.length
          obtain ⟨pos₁, hsize, hholds₁⟩ :=
            popSpan_holds (n := P.sizeof) hholds (by
              rw [List.length_append, hstore]
              exact Nat.le_add_right _ _)
          rw [List.take_left' hstore] at hsize
          rw [List.drop_left' hstore] at hholds₁
          obtain ⟨pos₂, hdata, hholds₂⟩ :=
            popSpan_holds (n := d.length) hholds₁ (by
              rw [List.length_append]
              exact Nat.le_add_right _ _)
          rw [List.take_left] at hdata
          rw [List.drop_left] at hholds₂
          refine ⟨{ rb with tail := pos₂ }, ?_, .live hlive hcap hholds₂ ?_⟩
          · rw [hsize, ok_bind]
            show (rb.popSpan (P.load (P.store d.length)) pos₁ >>= _) = _
            rw [P.load_store hmax, hdata]
            rfl
          · intro m hm
            exact hmsgs m (List.mem_cons_of_mem _ hm)

/-- `Clear` drops every message and keeps the storage. -/
theorem Represents.clear {rb : RingBuffer} {f : Fifo}
    (h : Represents P rb f) : Represents P rb.clear f.clear := by
  cases h with
  | moved => exact .moved
  | live hlive hcap hholds hmsgs =>
      have hpos : 0 < rb.buffer.length := by omega
      refine .live hlive hcap (Ring.Holds.nil hpos) ?_
      intro m hm
      cases hm

end Remc.Containers
