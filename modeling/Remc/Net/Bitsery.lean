/-
The part of bitsery (libs/bitsery) that packets go through: the output
adapter over a growing vector, the input adapter with its sticky error,
fixed-width values, and containers behind a size of one, two or four
bytes.

# Writing

The output adapter grows its vector in steps (`increaseBufferSize`) and
nobody cuts it back, so a serialised object is followed by the zeros of
the last step. `Written` says what has been written, how large the
vector is, and that the rest is zero.

# Reading

A read past the end zeroes its destination and makes the adapter fail
for good. Deserialisation is therefore a state computation, and `Reads`
says of one what it does on every buffer: it returns a function of the
next `n` bytes, or leaves the adapter failed.
-/
import Remc.Basic

namespace Remc.Bitsery

-- ============================================================= the vector

/-- A `std::vector<std::byte>` with the capacity it has allocated. -/
structure Vec where
  data : Bytes
  capacity : Nat
deriving DecidableEq, Repr

namespace Vec

def empty : Vec := { data := [], capacity := 0 }

/-- The capacity after `resize(n)`: growing beyond what is allocated
makes it `size + max(size, n - size)`, as libstdc++ does. -/
def grownCapacity (size capacity n : Nat) : Nat :=
  if n ≤ capacity then capacity else size + max size (n - size)

/-- `resize(n)` to at least the present size. -/
def resize (v : Vec) (n : Nat) : Vec where
  data := v.data ++ List.replicate (n - v.data.length) 0
  capacity := grownCapacity v.data.length v.capacity n

/-- The size that `increaseBufferSize` asks for: half as much again and
128 bytes, down to a multiple of 64. The source multiplies in `double`,
exactly at these sizes. -/
def grownSize (size capacity minSize : Nat) : Nat :=
  let newSize := size * 3 / 2 + 128
  let newSize := newSize - newSize % 64
  max (if minSize < newSize then newSize else minSize) capacity

/-- `increaseBufferSize`. -/
def increaseBufferSize (v : Vec) (minSize : Nat) : Vec :=
  v.resize (grownSize v.data.length v.capacity minSize)

theorem increaseBufferSize_data (v : Vec) (n : Nat) :
    (v.increaseBufferSize n).data = v.data ++ List.replicate
      (grownSize v.data.length v.capacity n - v.data.length) 0 := by
  rw [increaseBufferSize, resize]

theorem increaseBufferSize_capacity (v : Vec) (n : Nat) :
    (v.increaseBufferSize n).capacity
      = grownCapacity v.data.length v.capacity
        (grownSize v.data.length v.capacity n) := by
  rw [increaseBufferSize, resize]

theorem le_grownSize (size capacity minSize : Nat) :
    minSize ≤ grownSize size capacity minSize := by
  simp only [grownSize]
  split <;> omega

end Vec

-- ======================================================= the output adapter

/-- `OutputBufferAdapter`; its `_bufferSize` is the buffer's size at all
times. -/
structure OutputBufferAdapter where
  buffer : Vec
  currOffset : Nat
deriving DecidableEq, Repr

namespace OutputBufferAdapter

/-- The adapter over an empty vector. -/
def new : OutputBufferAdapter := { buffer := .empty, currOffset := 0 }

/-- `writeInternalImpl`. -/
def writeInternal (a : OutputBufferAdapter) (data : Bytes) :
    OutputBufferAdapter :=
  let newOffset := a.currOffset + data.length
  let buffer :=
    if a.buffer.data.length < newOffset
    then a.buffer.increaseBufferSize newOffset else a.buffer
  { buffer :=
      { buffer with data := Ring.overwrite buffer.data a.currOffset data }
    currOffset := newOffset }

/-- `writeBytes<n>`. -/
def writeBytes (a : OutputBufferAdapter) (n v : Nat) :
    OutputBufferAdapter :=
  a.writeInternal (LittleEndian.toBytes n v)

/-- `writeSize`. -/
def writeSize (a : OutputBufferAdapter) (size : Nat) :
    Checked OutputBufferAdapter := do
  if size < 0x80 then
    return a.writeBytes 1 size
  else if size < 0x4000 then
    let a := a.writeBytes 1 ((size >>> 8) ||| 0x80)
    return a.writeBytes 1 size
  else
    require (size < 0x40000000) .sizeLimit
    let a := a.writeBytes 1 ((size >>> 24) ||| 0xc0)
    let a := a.writeBytes 1 (size >>> 16)
    return a.writeBytes 2 size

/-- `container1b(obj, maxSize)`, writing. -/
def container1b (a : OutputBufferAdapter) (obj : Bytes) (maxSize : Nat) :
    Checked OutputBufferAdapter := do
  require (obj.length ≤ maxSize) .containerSize
  let a ← a.writeSize obj.length
  return if obj = [] then a else a.writeInternal obj

-- -------------------------------------------------- what has been written

/-- The adapter has written `bs` into a vector of `size` bytes and the
given capacity, and the rest of the vector is zero. -/
structure Written (a : OutputBufferAdapter) (bs : Bytes)
    (size capacity : Nat) : Prop where
  data : a.buffer.data = bs ++ List.replicate (size - bs.length) 0
  fits : bs.length ≤ size
  capacity : a.buffer.capacity = capacity
  currOffset : a.currOffset = bs.length

variable {a : OutputBufferAdapter} {bs : Bytes} {size capacity : Nat}

theorem written_new : Written new [] 0 0 := ⟨rfl, Nat.le_refl 0, rfl, rfl⟩

theorem Written.size_eq (h : Written a bs size capacity) :
    a.buffer.data.length = size := by
  have hfits := h.fits
  rw [h.data, List.length_append, List.length_replicate]
  omega

/-- Bytes written over the zeros behind what has been written. -/
theorem overwrite_zeros (bs d : Bytes) (n : Nat) :
    Ring.overwrite (bs ++ List.replicate (n - bs.length) 0) bs.length d
      = bs ++ d ++ List.replicate (n - (bs ++ d).length) 0 := by
  unfold Ring.overwrite
  rw [List.take_left, List.drop_append, List.drop_of_length_le (by omega),
    List.nil_append, List.drop_replicate, List.length_append]
  congr 2
  omega

/-- A write that fits leaves the size as it is. -/
theorem Written.write (h : Written a bs size capacity) {d : Bytes}
    (hfit : bs.length + d.length ≤ size) :
    Written (a.writeInternal d) (bs ++ d) size capacity := by
  have hsize := h.size_eq
  have hnot : ¬a.buffer.data.length < a.currOffset + d.length := by
    rw [hsize, h.currOffset]
    omega
  refine ⟨?_, ?_, ?_, ?_⟩
  · simp only [writeInternal, if_neg hnot]
    rw [h.data, h.currOffset, overwrite_zeros]
  · rw [List.length_append]
    exact hfit
  · simp only [writeInternal, if_neg hnot]
    exact h.capacity
  · show a.currOffset + d.length = _
    rw [h.currOffset, List.length_append]

/-- A write that does not fit grows the vector first. -/
theorem Written.write_grow (h : Written a bs size capacity) {d : Bytes}
    (hfit : size < bs.length + d.length) :
    Written (a.writeInternal d) (bs ++ d)
      (Vec.grownSize size capacity (bs.length + d.length))
      (Vec.grownCapacity size capacity
        (Vec.grownSize size capacity (bs.length + d.length))) := by
  have hsize := h.size_eq
  have hfits := h.fits
  have hle := Vec.le_grownSize size capacity (bs.length + d.length)
  have hgrow : a.buffer.data.length < a.currOffset + d.length := by
    rw [hsize, h.currOffset]
    exact hfit
  have hdata : (a.buffer.increaseBufferSize (a.currOffset + d.length)).data
      = bs ++ List.replicate
        (Vec.grownSize size capacity (bs.length + d.length) - bs.length) 0 := by
    rw [Vec.increaseBufferSize_data, hsize, h.capacity, h.currOffset, h.data, List.append_assoc,
      List.replicate_append_replicate]
    congr 2
    omega
  refine ⟨?_, ?_, ?_, ?_⟩
  · simp only [writeInternal, if_pos hgrow]
    rw [hdata, h.currOffset, overwrite_zeros]
  · rw [List.length_append]
    exact hle
  · simp only [writeInternal, if_pos hgrow]
    rw [Vec.increaseBufferSize_capacity, hsize, h.capacity, h.currOffset]
  · show a.currOffset + d.length = _
    rw [h.currOffset, List.length_append]

-- ---------------------------------------------------------- sizes, written

/-- The bytes `writeSize` writes. -/
def sizeBytes (size : Nat) : Bytes :=
  if size < 0x80 then LittleEndian.toBytes 1 size
  else if size < 0x4000 then
    LittleEndian.toBytes 1 ((size >>> 8) ||| 0x80)
      ++ LittleEndian.toBytes 1 size
  else
    LittleEndian.toBytes 1 ((size >>> 24) ||| 0xc0)
      ++ LittleEndian.toBytes 1 (size >>> 16) ++ LittleEndian.toBytes 2 size

/-- Below `0x4000` a size takes two bytes at most. -/
theorem sizeBytes_length_le_two {n : Nat} (h : n < 0x4000) :
    (sizeBytes n).length ≤ 2 := by
  unfold sizeBytes
  rw [if_pos h]
  split <;> simp

theorem Written.writeSize (h : Written a bs size capacity) {n : Nat}
    (hn : n < 0x40000000) (hfit : bs.length + 4 ≤ size) :
    ∃ a', a.writeSize n = .ok a'
      ∧ Written a' (bs ++ sizeBytes n) size capacity := by
  unfold OutputBufferAdapter.writeSize sizeBytes
  have hbyte : ∀ v, (LittleEndian.toBytes 1 v).length = 1 :=
    LittleEndian.toBytes_length 1
  have hpair : ∀ v, (LittleEndian.toBytes 2 v).length = 2 :=
    LittleEndian.toBytes_length 2
  by_cases hone : n < 0x80
  · rw [if_pos hone, if_pos hone]
    exact ⟨_, rfl, h.write (by rw [hbyte]; omega)⟩
  · rw [if_neg hone, if_neg hone]
    by_cases htwo : n < 0x4000
    · rw [if_pos htwo, if_pos htwo, ← List.append_assoc]
      have h₁ := h.write (d := LittleEndian.toBytes 1 ((n >>> 8) ||| 0x80))
        (by rw [hbyte]; omega)
      exact ⟨_, rfl, h₁.write (by rw [List.length_append, hbyte, hbyte]; omega)⟩
    · rw [if_neg htwo, if_neg htwo, require_of hn, ok_bind,
        ← List.append_assoc, ← List.append_assoc]
      have h₁ := h.write (d := LittleEndian.toBytes 1 ((n >>> 24) ||| 0xc0))
        (by rw [hbyte]; omega)
      have h₂ := h₁.write (d := LittleEndian.toBytes 1 (n >>> 16))
        (by rw [List.length_append, hbyte, hbyte]; omega)
      refine ⟨_, rfl, h₂.write ?_⟩
      rw [List.length_append, List.length_append, hbyte, hbyte, hpair]
      omega

/-- A written container: its size, then its bytes, in a vector that has
grown at most once. -/
theorem Written.container1b (h : Written a bs size capacity) {obj : Bytes}
    {maxSize : Nat} (hmax : obj.length ≤ maxSize)
    (hlimit : obj.length < 0x40000000) (hfit : bs.length + 4 ≤ size) :
    ∃ a' capacity', a.container1b obj maxSize = .ok a'
      ∧ Written a' (bs ++ sizeBytes obj.length ++ obj)
        (if (bs ++ sizeBytes obj.length ++ obj).length ≤ size then size
          else Vec.grownSize size capacity
            (bs ++ sizeBytes obj.length ++ obj).length) capacity' := by
  obtain ⟨a', hsize, hwritten⟩ := h.writeSize hlimit hfit
  unfold OutputBufferAdapter.container1b
  rw [require_of hmax, ok_bind, hsize, ok_bind]
  by_cases hnil : obj = []
  · refine ⟨a', capacity, by rw [if_pos hnil]; rfl, ?_⟩
    have hlen : (bs ++ sizeBytes obj.length ++ obj).length ≤ size := by
      rw [hnil, List.append_nil]
      rw [hnil] at hwritten
      exact hwritten.fits
    rw [if_pos hlen, hnil, List.append_nil]
    rwa [hnil] at hwritten
  · have hgrown : (bs ++ sizeBytes obj.length ++ obj).length
        = (bs ++ sizeBytes obj.length).length + obj.length :=
      List.length_append
    rw [if_neg hnil, hgrown]
    by_cases hlen : (bs ++ sizeBytes obj.length).length + obj.length ≤ size
    · rw [if_pos hlen]
      exact ⟨_, _, rfl, hwritten.write hlen⟩
    · rw [if_neg hlen]
      exact ⟨_, _, rfl, hwritten.write_grow (Nat.lt_of_not_le hlen)⟩

end OutputBufferAdapter

-- ======================================================== the input adapter

/-- `ReaderError`. -/
inductive ReaderError where
  | noError
  | readingError
  | dataOverflow
  | invalidData
  | invalidPointer
deriving DecidableEq, Repr

/-- `static_cast<int>` of it. -/
def ReaderError.toNat : ReaderError → Nat
  | .noError => 0
  | .readingError => 1
  | .dataOverflow => 2
  | .invalidData => 3
  | .invalidPointer => 4

/-- `InputBufferAdapter`. An error is recorded in the offsets: they all
become zero, except `currOffset`, which becomes the error. -/
structure InputBufferAdapter where
  buffer : Bytes
  currOffset : Nat
  endReadOffset : Nat
  bufferSize : Nat
deriving DecidableEq, Repr

namespace InputBufferAdapter

/-- The constructor, over a whole buffer. -/
def new (buffer : Bytes) : InputBufferAdapter where
  buffer := buffer
  currOffset := 0
  endReadOffset := buffer.length
  bufferSize := buffer.length

/-- `error()`, as its integer. -/
def error (a : InputBufferAdapter) : Nat :=
  if a.currOffset ≤ a.endReadOffset then ReaderError.noError.toNat
  else a.currOffset - a.endReadOffset

/-- `error(e)`: the first error stays. -/
def setError (e : ReaderError) (a : InputBufferAdapter) :
    InputBufferAdapter :=
  if a.currOffset ≤ a.endReadOffset then
    { a with endReadOffset := 0, bufferSize := 0, currOffset := e.toNat }
  else a

end InputBufferAdapter

/-- What reads from an input adapter. -/
abbrev Reader (α : Type) := StateM InputBufferAdapter α

/-- `readInternalImpl`; the buffer end is never moved, so an overflow is
an error. -/
def readInternal (size : Nat) : Reader Bytes := fun a =>
  let newOffset := a.currOffset + size
  if newOffset ≤ a.endReadOffset then
    ((a.buffer.drop a.currOffset).take size, { a with currOffset := newOffset })
  else (List.replicate size 0, a.setError .dataOverflow)

/-- `readBytes<n>`. -/
def readBytes (n : Nat) : Reader Nat := do
  let bs ← readInternal n
  return LittleEndian.ofBytes bs

/-- `handleReadMaxSize`. -/
def handleReadMaxSize (size maxSize : Nat) : Reader Nat := do
  if maxSize < size then
    modify (·.setError .invalidData)
    return 0
  else return size

/-- What `readSize` reads behind its first byte. -/
def readSizeRest (hb : Nat) : Reader Nat :=
  if hb < 0x80 then pure hb
  else do
    let lb ← readBytes 1
    if hb &&& 0x40 ≠ 0 then do
      let lw ← readBytes 2
      pure (((((hb &&& 0x3f) <<< 8) ||| lb) <<< 16) ||| lw)
    else pure (((hb &&& 0x7f) <<< 8) ||| lb)

/-- `readSize`. -/
def readSize (maxSize : Nat) : Reader Nat := do
  let hb ← readBytes 1
  let size ← readSizeRest hb
  handleReadMaxSize size maxSize

/-- `container1b(obj, maxSize)`, reading. -/
def readContainer1b (maxSize : Nat) : Reader Bytes := do
  let size ← readSize maxSize
  if size = 0 then return [] else readInternal size

-- ------------------------------------------------- the state of the adapter

/-- The adapter at a position of a buffer, without an error. -/
def readingAt (w : Bytes) (pos : Nat) : InputBufferAdapter :=
  ⟨w, pos, w.length, w.length⟩

/-- The adapter after an error. -/
def failed (w : Bytes) (e : ReaderError) : InputBufferAdapter :=
  ⟨w, e.toNat, 0, 0⟩

theorem error_readingAt {w : Bytes} {pos : Nat} (h : pos ≤ w.length) :
    (readingAt w pos).error = 0 := if_pos h

theorem error_failed {w : Bytes} {e : ReaderError} (h : e ≠ .noError) :
    (failed w e).error = e.toNat := by
  cases e with
  | noError => exact absurd rfl h
  | readingError => rfl
  | dataOverflow => rfl
  | invalidData => rfl
  | invalidPointer => rfl

theorem setError_readingAt {w : Bytes} {pos : Nat} (h : pos ≤ w.length)
    (e : ReaderError) : (readingAt w pos).setError e = failed w e :=
  if_pos h

theorem setError_failed {w : Bytes} {e : ReaderError} (h : e ≠ .noError)
    (e' : ReaderError) : (failed w e).setError e' = failed w e := by
  cases e with
  | noError => exact absurd rfl h
  | readingError => rfl
  | dataOverflow => rfl
  | invalidData => rfl
  | invalidPointer => rfl

/-- Running a bind is running its parts in turn. -/
theorem run_bind {α β : Type} {m : Reader α} {k : α → Reader β}
    {a a' : InputBufferAdapter} {x : α} (h : m a = (x, a')) :
    (m >>= k) a = k x a' := by
  show k (m a).1 (m a).2 = k x a'
  rw [h]

-- ------------------------------------------------------- fixed-width reads

/-- The computation `m` reads exactly `n` bytes and returns `f` of
them; where they are not there, it fails with an overflow, and after an
error it keeps the error. -/
structure Reads {α : Type} (m : Reader α) (n : Nat) (f : Bytes → α) :
    Prop where
  enough : ∀ w pos, pos + n ≤ w.length →
    m (readingAt w pos) = (f ((w.drop pos).take n), readingAt w (pos + n))
  short : ∀ w pos, pos ≤ w.length → w.length < pos + n →
    ∃ x, m (readingAt w pos) = (x, failed w .dataOverflow)
  failed : ∀ w e, e ≠ .noError →
    ∃ x, m (failed w e) = (x, failed w e)

theorem reads_pure {α : Type} (x : α) : Reads (pure x) 0 fun _ => x where
  enough _ _ _ := rfl
  short _ _ h₁ h₂ := absurd h₂ (Nat.not_lt_of_le h₁)
  failed _ _ _ := ⟨x, rfl⟩

theorem reads_internal (n : Nat) : Reads (readInternal n) n id where
  enough w pos h := if_pos h
  short w pos hpos h := by
    refine ⟨List.replicate n 0, ?_⟩
    have hnot : ¬pos + n ≤ w.length := Nat.not_le_of_lt h
    show (if pos + n ≤ w.length then _ else
      (List.replicate n 0, (readingAt w pos).setError .dataOverflow)) = _
    rw [if_neg hnot, setError_readingAt hpos]
  failed w e he := by
    refine ⟨List.replicate n 0, ?_⟩
    have hpos : 0 < e.toNat := by cases e <;> first | exact absurd rfl he | decide
    have hnot : ¬e.toNat + n ≤ 0 := by omega
    show (if e.toNat + n ≤ 0 then _ else
      (List.replicate n 0, (Bitsery.failed w e).setError .dataOverflow)) = _
    rw [if_neg hnot, setError_failed he]

/-- Two reads in a row read the bytes of both. -/
theorem Reads.bind {α β : Type} {m : Reader α} {k : α → Reader β}
    {n n' : Nat} {f : Bytes → α} {g : α → Bytes → β} (hm : Reads m n f)
    (hk : ∀ x, Reads (k x) n' (g x)) :
    Reads (m >>= k) (n + n') fun bs => g (f (bs.take n)) (bs.drop n) where
  enough w pos h := by
    rw [run_bind (hm.enough w pos (by omega)),
      (hk _).enough w (pos + n) (by omega), List.take_take, List.drop_take, List.drop_drop, Nat.min_eq_left (by omega),
      Nat.add_sub_cancel_left, Nat.add_assoc]
  short w pos hpos h := by
    by_cases hn : pos + n ≤ w.length
    · rw [run_bind (hm.enough w pos hn)]
      exact (hk _).short w (pos + n) hn (by omega)
    · obtain ⟨x, hx⟩ := hm.short w pos hpos (Nat.lt_of_not_le hn)
      rw [run_bind hx]
      exact (hk x).failed w .dataOverflow (by decide)
  failed w e he := by
    obtain ⟨x, hx⟩ := hm.failed w e he
    rw [run_bind hx]
    exact (hk x).failed w e he

/-- Only the value on strings of the right length matters. -/
theorem Reads.congr {α : Type} {m : Reader α} {n : Nat}
    {f g : Bytes → α} (hm : Reads m n f)
    (h : ∀ bs : Bytes, bs.length = n → f bs = g bs) : Reads m n g where
  enough w pos hw := by
    rw [hm.enough w pos hw, h]
    rw [List.length_take, List.length_drop]
    omega
  short := hm.short
  failed := hm.failed

/-- The number in the `n` bytes at a position. -/
def field (w : Bytes) (pos n : Nat) : Nat :=
  LittleEndian.ofBytes ((w.drop pos).take n)

theorem reads_bytes (n : Nat) :
    Reads (readBytes n) n fun bs => field bs 0 n :=
  (reads_internal n).bind fun bs => reads_pure (LittleEndian.ofBytes bs)

-- ------------------------------------------------------ sizes, containers

/-- How many bytes a size takes behind its first byte. -/
def restLength (hb : Nat) : Nat :=
  if hb < 0x80 then 0 else if hb &&& 0x40 ≠ 0 then 3 else 1

/-- The size with first byte `hb`, the other bytes read from `bs`. -/
def restValue (hb : Nat) (bs : Bytes) : Nat :=
  if hb < 0x80 then hb
  else if hb &&& 0x40 ≠ 0 then
    ((((hb &&& 0x3f) <<< 8) ||| field bs 0 1) <<< 16) ||| field bs 1 2
  else ((hb &&& 0x7f) <<< 8) ||| field bs 0 1

/-- How many bytes the size at a position takes. -/
def sizeLength (w : Bytes) (pos : Nat) : Nat :=
  1 + restLength (field w pos 1)

/-- The size at a position. -/
def sizeAt (w : Bytes) (pos : Nat) : Nat :=
  restValue (field w pos 1) (w.drop (pos + 1))

/-- The container at a position is there, and within the maximum. -/
def Delimited (w : Bytes) (pos maxSize : Nat) : Prop :=
  sizeAt w pos ≤ maxSize
    ∧ pos + sizeLength w pos + sizeAt w pos ≤ w.length

instance (w : Bytes) (pos maxSize : Nat) :
    Decidable (Delimited w pos maxSize) :=
  inferInstanceAs (Decidable (_ ∧ _))

/-- The bytes a delimited container is read from. -/
def containerBytes (w : Bytes) (pos : Nat) : Bytes :=
  (w.drop (pos + sizeLength w pos)).take (sizeAt w pos)

theorem readBytes_readingAt {w : Bytes} {pos n : Nat}
    (h : pos + n ≤ w.length) :
    readBytes n (readingAt w pos) = (field w pos n, readingAt w (pos + n)) := by
  have hread := (reads_bytes n).enough w pos h
  rwa [field, List.drop_zero, List.take_take, Nat.min_self] at hread

/-- The rest of a size is a fixed number of bytes, given the first. -/
theorem reads_sizeRest (hb : Nat) :
    Reads (readSizeRest hb) (restLength hb) (restValue hb) := by
  unfold readSizeRest restLength
  by_cases hone : hb < 0x80
  · rw [if_pos hone, if_pos hone]
    have hval : restValue hb = fun _ => hb := funext fun bs => if_pos hone
    rw [hval]
    exact reads_pure hb
  · rw [if_neg hone, if_neg hone]
    by_cases hfour : hb &&& 0x40 ≠ 0
    · rw [if_pos hfour]
      have hval : restValue hb = fun bs =>
          ((((hb &&& 0x3f) <<< 8) ||| field bs 0 1) <<< 16) ||| field bs 1 2 := by
        funext bs
        rw [restValue, if_neg hone, if_pos hfour]
      rw [hval]
      simp only [if_pos hfour]
      refine ((reads_bytes 1).bind fun lb => (reads_bytes 2).bind fun lw =>
        reads_pure (((((hb &&& 0x3f) <<< 8) ||| lb) <<< 16) ||| lw)).congr ?_
      intro bs _
      simp [field, List.take_take]
    · rw [if_neg hfour]
      have hval : restValue hb = fun bs =>
          ((hb &&& 0x7f) <<< 8) ||| field bs 0 1 := by
        funext bs
        rw [restValue, if_neg hone, if_neg hfour]
      rw [hval]
      simp only [if_neg hfour]
      refine ((reads_bytes 1).bind fun lb =>
        reads_pure (((hb &&& 0x7f) <<< 8) ||| lb)).congr ?_
      intro bs _
      simp [field, List.take_take]

theorem restValue_take (hb : Nat) (bs : Bytes) :
    restValue hb (bs.take (restLength hb)) = restValue hb bs := by
  unfold restValue restLength
  by_cases hone : hb < 0x80
  · rw [if_pos hone, if_pos hone]
  · rw [if_neg hone, if_neg hone, if_neg hone]
    by_cases hfour : hb &&& 0x40 ≠ 0
    · rw [if_pos hfour, if_pos hfour, if_pos hfour]
      simp [field, List.take_take, List.drop_take]
    · rw [if_neg hfour, if_neg hfour, if_neg hfour]
      simp [field, List.take_take]

/-- Reading a size that is there, up to the check of the maximum. -/
theorem readSize_enough {w : Bytes} {pos : Nat} (maxSize : Nat)
    (h : pos + sizeLength w pos ≤ w.length) :
    readSize maxSize (readingAt w pos)
      = handleReadMaxSize (sizeAt w pos) maxSize
        (readingAt w (pos + sizeLength w pos)) := by
  unfold sizeLength at h ⊢
  have hhb : readBytes 1 (readingAt w pos) = (field w pos 1, readingAt w (pos + 1)) :=
    readBytes_readingAt (by omega)
  have hrest := (reads_sizeRest (field w pos 1)).enough w (pos + 1) (by omega)
  rw [readSize, run_bind hhb, run_bind hrest, restValue_take, Nat.add_assoc]
  rfl

theorem handleReadMaxSize_le {size maxSize : Nat} (h : size ≤ maxSize)
    (a : InputBufferAdapter) : handleReadMaxSize size maxSize a = (size, a) := by
  rw [handleReadMaxSize, if_neg (Nat.not_lt_of_le h)]
  rfl

theorem handleReadMaxSize_gt {size maxSize : Nat} (h : maxSize < size)
    {w : Bytes} {pos : Nat} (hpos : pos ≤ w.length) :
    handleReadMaxSize size maxSize (readingAt w pos)
      = (0, failed w .invalidData) := by
  rw [handleReadMaxSize, if_pos h]
  exact congrArg (Prod.mk 0) (setError_readingAt hpos .invalidData)

theorem handleReadMaxSize_failed {w : Bytes} {e : ReaderError}
    (he : e ≠ .noError) (size maxSize : Nat) :
    ∃ x, handleReadMaxSize size maxSize (failed w e) = (x, failed w e) := by
  unfold handleReadMaxSize
  split
  next => exact ⟨0, congrArg (Prod.mk 0) (setError_failed he .invalidData)⟩
  next => exact ⟨size, rfl⟩

/-- A size that is cut off is an error. -/
theorem readSize_short {w : Bytes} {pos : Nat} (maxSize : Nat)
    (hpos : pos ≤ w.length) (h : w.length < pos + sizeLength w pos) :
    ∃ x, readSize maxSize (readingAt w pos) = (x, failed w .dataOverflow) := by
  have hne : ReaderError.dataOverflow ≠ .noError := by decide
  unfold readSize
  by_cases hhb : pos + 1 ≤ w.length
  · unfold sizeLength at h
    obtain ⟨x, hx⟩ :=
      (reads_sizeRest (field w pos 1)).short w (pos + 1) hhb (by omega)
    rw [run_bind (readBytes_readingAt hhb), run_bind hx]
    exact handleReadMaxSize_failed hne x maxSize
  · obtain ⟨hb, hx⟩ := (reads_bytes 1).short w pos hpos (by omega)
    obtain ⟨size, hsize⟩ := (reads_sizeRest hb).failed w .dataOverflow hne
    rw [run_bind hx, run_bind hsize]
    exact handleReadMaxSize_failed hne size maxSize

/-- After an error a size is read as some number, and the error stays. -/
theorem readSize_failed {w : Bytes} {e : ReaderError} (he : e ≠ .noError)
    (maxSize : Nat) :
    ∃ x, readSize maxSize (failed w e) = (x, failed w e) := by
  obtain ⟨hb, hx⟩ := (reads_bytes 1).failed w e he
  obtain ⟨size, hsize⟩ := (reads_sizeRest hb).failed w e he
  rw [readSize, run_bind hx, run_bind hsize]
  exact handleReadMaxSize_failed he size maxSize

theorem readContainer1b_failed {w : Bytes} {e : ReaderError}
    (he : e ≠ .noError) (maxSize : Nat) :
    ∃ x, readContainer1b maxSize (failed w e) = (x, failed w e) := by
  obtain ⟨size, hsize⟩ := readSize_failed (w := w) he maxSize
  rw [readContainer1b, run_bind hsize]
  split
  next => exact ⟨[], rfl⟩
  next => exact (reads_internal size).failed w e he

/-- A delimited container is read. -/
theorem readContainer1b_delimited {w : Bytes} {pos maxSize : Nat}
    (h : Delimited w pos maxSize) :
    readContainer1b maxSize (readingAt w pos)
      = (containerBytes w pos,
        readingAt w (pos + sizeLength w pos + sizeAt w pos)) := by
  obtain ⟨hmax, hlen⟩ := h
  have hsize := (readSize_enough maxSize (by omega)).trans
    (handleReadMaxSize_le hmax (readingAt w (pos + sizeLength w pos)))
  rw [readContainer1b, run_bind hsize]
  split
  next hzero =>
    rw [containerBytes, hzero]
    rfl
  next => exact (reads_internal _).enough w _ hlen

/-- Any other container is an error. -/
theorem readContainer1b_not_delimited {w : Bytes} {pos maxSize : Nat}
    (hpos : pos ≤ w.length) (h : ¬Delimited w pos maxSize) :
    ∃ x e, e ≠ ReaderError.noError
      ∧ readContainer1b maxSize (readingAt w pos) = (x, failed w e) := by
  unfold readContainer1b
  by_cases hthere : pos + sizeLength w pos ≤ w.length
  · have hsize := readSize_enough maxSize hthere
    by_cases hmax : sizeAt w pos ≤ maxSize
    · rw [handleReadMaxSize_le hmax] at hsize
      have hlen : w.length < pos + sizeLength w pos + sizeAt w pos :=
        Nat.lt_of_not_le fun hle => h ⟨hmax, hle⟩
      obtain ⟨x, hx⟩ := (reads_internal (sizeAt w pos)).short w _ hthere hlen
      refine ⟨x, .dataOverflow, by decide, ?_⟩
      rw [run_bind hsize, if_neg (by omega)]
      exact hx
    · rw [handleReadMaxSize_gt (Nat.lt_of_not_le hmax) hthere] at hsize
      refine ⟨[], .invalidData, by decide, ?_⟩
      rw [run_bind hsize]
      rfl
  · obtain ⟨size, hsize⟩ :=
      readSize_short maxSize hpos (Nat.lt_of_not_le hthere)
    have hne : ReaderError.dataOverflow ≠ .noError := by decide
    rw [run_bind hsize]
    split
    next => exact ⟨[], .dataOverflow, hne, rfl⟩
    next =>
      obtain ⟨x, hx⟩ := (reads_internal size).failed w .dataOverflow hne
      exact ⟨x, .dataOverflow, hne, hx⟩

-- --------------------------------------------- sizes, written and read back

theorem field_append_left (pre w : Bytes) (i n : Nat) :
    field (pre ++ w) (pre.length + i) n = field w i n := by
  unfold field
  rw [List.drop_append, List.drop_of_length_le (by omega), List.nil_append,
    Nat.add_sub_cancel_left]

/-- A first byte with both top bits clear, one or both of them set. -/
theorem size_tags : ∀ m < 64,
    (m ||| 0x80) &&& 0x40 = 0 ∧ (m ||| 0x80) &&& 0x7f = m
      ∧ (m ||| 0xc0) &&& 0x40 ≠ 0 ∧ (m ||| 0xc0) &&& 0x3f = m
      ∧ 0x80 ≤ m ||| 0x80 ∧ m ||| 0x80 < 0x100
      ∧ 0x80 ≤ m ||| 0xc0 ∧ m ||| 0xc0 < 0x100 := by
  decide

theorem field_cons_zero (b : UInt8) (w : Bytes) :
    field (b :: w) 0 1 = b.toNat := by
  simp [field, LittleEndian.ofBytes]

/-- The low byte of a number behind the rest of it. -/
theorem shiftLeft_or_low (n i : Nat) :
    ((n >>> i) <<< i) ||| (n % 2 ^ i) = n := by
  have hlow : n % 2 ^ i < 2 ^ i := Nat.mod_lt n (Nat.two_pow_pos i)
  rw [← Nat.shiftLeft_add_eq_or_of_lt hlow, Nat.shiftRight_eq_div_pow,
    Nat.shiftLeft_eq, Nat.div_add_mod']

/-- A written size is read back, whatever follows it. -/
theorem size_sizeBytes {n : Nat} (hn : n < 0x40000000) (rest : Bytes) :
    sizeLength (OutputBufferAdapter.sizeBytes n ++ rest) 0
        = (OutputBufferAdapter.sizeBytes n).length
      ∧ sizeAt (OutputBufferAdapter.sizeBytes n ++ rest) 0 = n := by
  unfold OutputBufferAdapter.sizeBytes sizeLength sizeAt
  by_cases hone : n < 0x80
  · rw [if_pos hone]
    have hhb : field (LittleEndian.toBytes 1 n ++ rest) 0 1 = n := by
      show field (UInt8.ofNat n :: rest) 0 1 = n
      rw [field_cons_zero, UInt8.toNat_ofNat', Nat.mod_eq_of_lt (by omega)]
    rw [hhb, restLength, restValue, if_pos hone, if_pos hone]
    exact ⟨rfl, rfl⟩
  · rw [if_neg hone]
    by_cases htwo : n < 0x4000
    · rw [if_pos htwo]
      have hm : n >>> 8 < 64 := by
        rw [Nat.shiftRight_eq_div_pow]
        omega
      obtain ⟨hbit, hmask, -, -, hge, hlt, -, -⟩ := size_tags _ hm
      have hhb : field (LittleEndian.toBytes 1 ((n >>> 8) ||| 0x80)
          ++ LittleEndian.toBytes 1 n ++ rest) 0 1 = (n >>> 8) ||| 0x80 := by
        show field (UInt8.ofNat ((n >>> 8) ||| 0x80) :: UInt8.ofNat n :: rest)
          0 1 = _
        rw [field_cons_zero, UInt8.toNat_ofNat', Nat.mod_eq_of_lt hlt]
      have hlb : field (UInt8.ofNat n :: rest) 0 1 = n % 2 ^ 8 := by
        rw [field_cons_zero, UInt8.toNat_ofNat']
      rw [hhb, restLength, restValue, if_neg (Nat.not_lt_of_le hge),
        if_neg (Nat.not_lt_of_le hge), if_neg (not_not_intro hbit),
        if_neg (not_not_intro hbit), hmask]
      refine ⟨rfl, ?_⟩
      show ((n >>> 8) <<< 8) ||| field (UInt8.ofNat n :: rest) 0 1 = n
      rw [hlb, shiftLeft_or_low]
    · rw [if_neg htwo]
      have hm : n >>> 24 < 64 := by
        rw [Nat.shiftRight_eq_div_pow]
        omega
      obtain ⟨-, -, hbit, hmask, -, -, hge, hlt⟩ := size_tags _ hm
      have hlist : LittleEndian.toBytes 1 ((n >>> 24) ||| 0xc0)
          ++ LittleEndian.toBytes 1 (n >>> 16) ++ LittleEndian.toBytes 2 n
          ++ rest
        = UInt8.ofNat ((n >>> 24) ||| 0xc0) :: UInt8.ofNat (n >>> 16)
          :: (LittleEndian.toBytes 2 n ++ rest) := rfl
      have hhb : field (UInt8.ofNat ((n >>> 24) ||| 0xc0)
          :: UInt8.ofNat (n >>> 16) :: (LittleEndian.toBytes 2 n ++ rest)) 0 1
          = (n >>> 24) ||| 0xc0 := by
        rw [field_cons_zero, UInt8.toNat_ofNat', Nat.mod_eq_of_lt hlt]
      have hlb : field (UInt8.ofNat (n >>> 16)
          :: (LittleEndian.toBytes 2 n ++ rest)) 0 1 = (n >>> 16) % 2 ^ 8 := by
        rw [field_cons_zero, UInt8.toNat_ofNat']
      have hlw : field (UInt8.ofNat (n >>> 16)
          :: (LittleEndian.toBytes 2 n ++ rest)) 1 2 = n % 2 ^ 16 :=
        LittleEndian.ofBytes_toBytes 2 n
      have hhigh : ((n >>> 24) <<< 8) ||| ((n >>> 16) % 2 ^ 8) = n >>> 16 := by
        have h := shiftLeft_or_low (n >>> 16) 8
        rwa [← Nat.shiftRight_add] at h
      rw [hlist, hhb, restLength, restValue, if_neg (Nat.not_lt_of_le hge),
        if_neg (Nat.not_lt_of_le hge), if_pos hbit, if_pos hbit, hmask,
        List.drop_succ_cons, List.drop_zero, hlb, hlw, hhigh, shiftLeft_or_low]
      exact ⟨rfl, rfl⟩

/-- A written size is read back where it was written. -/
theorem size_written (pre rest : Bytes) {n : Nat} (hn : n < 0x40000000) :
    sizeLength (pre ++ (OutputBufferAdapter.sizeBytes n ++ rest)) pre.length
        = (OutputBufferAdapter.sizeBytes n).length
      ∧ sizeAt (pre ++ (OutputBufferAdapter.sizeBytes n ++ rest)) pre.length
        = n := by
  obtain ⟨hlength, hat⟩ := size_sizeBytes hn rest
  have hfield := field_append_left pre
    (OutputBufferAdapter.sizeBytes n ++ rest) 0 1
  rw [Nat.add_zero] at hfield
  unfold sizeLength sizeAt at *
  rw [hfield, List.drop_append, List.drop_of_length_le (by omega),
    List.nil_append, Nat.add_sub_cancel_left]
  exact ⟨hlength, hat⟩

/-- A written container is delimited where it was written. -/
theorem delimited_written (pre rest : Bytes) {obj : Bytes} {maxSize : Nat}
    (hlimit : obj.length < 0x40000000) (hmax : obj.length ≤ maxSize) :
    Delimited (pre ++ (OutputBufferAdapter.sizeBytes obj.length ++ (obj ++ rest)))
      pre.length maxSize := by
  obtain ⟨hlength, hat⟩ := size_written pre (obj ++ rest) hlimit
  unfold Delimited
  rw [hlength, hat]
  refine ⟨hmax, ?_⟩
  simp only [List.length_append]
  omega

/-- A written container is what is read. -/
theorem containerBytes_written (pre rest : Bytes) {obj : Bytes}
    (hlimit : obj.length < 0x40000000) :
    containerBytes
      (pre ++ (OutputBufferAdapter.sizeBytes obj.length ++ (obj ++ rest)))
      pre.length = obj := by
  obtain ⟨hlength, hat⟩ := size_written pre (obj ++ rest) hlimit
  unfold containerBytes
  rw [hlength, hat, ← List.append_assoc, ← List.length_append, List.drop_left,
    List.take_left]

end Remc.Bitsery
