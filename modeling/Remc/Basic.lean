/-
Bytes, checked memory access and the little-endian helpers every layer
of the model shares.

# Preconditions are outcomes

The source states its preconditions as `assert`s and leaves the rest to
undefined behaviour (a `memcpy` past the end, a `span::first` longer
than the span). The model turns each of them into a value: a function
that can violate one returns `Checked α`, and `Violation` says which.
`std::expected` results stay inside (`Checked (Except PacketError α)`),
so "ends with a packet or an error" is a statement about the outer
layer.
-/
import Remc.Lib.LittleEndian
import Remc.Lib.Ring

namespace Remc

/-- A `std::vector<std::byte>` or a span of bytes. -/
abbrev Bytes := List UInt8

-- ======================================================== preconditions

/-- The preconditions the modelled functions have, one per place. -/
inductive Violation where
  /-- A `memcpy` outside the object it reads or writes. -/
  | copyOutOfRange
  /-- `assert(key.size() == KEYLEN)`. -/
  | keySize
  /-- `assert(blocks * BLOCKLEN == output.size())`. -/
  | wholeBlocks
  /-- `assert(size <= maxSize)` of a written container. -/
  | containerSize
  /-- `assert(size < 0x40000000u)` of a written size. -/
  | sizeLimit
  /-- `assert(out.size() == TAGLEN)`. -/
  | tagSize
  /-- `assert(input.size() == output.size())`. -/
  | cryptSize
  /-- `assert(cipher.size() == plain1.size() + plain2.size() + EXPANSION)`. -/
  | cipherSize
  /-- `span::first`, `span::last` or `span::subspan` beyond the span. -/
  | spanOutOfRange
  /-- `assert(other_public_key.size() == crypto_scalarmult_BYTES)`. -/
  | publicKeySize
  /-- The dereference of an empty `shared_ptr`. -/
  | nullPointer
deriving DecidableEq, Repr

/-- A computation that may violate a precondition of the source. -/
abbrev Checked (α : Type) := Except Violation α

/-- Go on only where the precondition holds. -/
def require (p : Prop) [Decidable p] (v : Violation) : Checked Unit :=
  if p then .ok () else .error v

theorem require_of {p : Prop} [Decidable p] {v : Violation} (h : p) :
    require p v = .ok () := if_pos h

theorem require_of_not {p : Prop} [Decidable p] {v : Violation}
    (h : ¬p) : require p v = .error v := if_neg h

/-- A bind that returns came through a first part that returned. -/
theorem bind_eq_ok {ε α β : Type} {x : Except ε α} {f : α → Except ε β}
    {b : β} (h : (x >>= f) = .ok b) : ∃ a, x = .ok a ∧ f a = .ok b := by
  cases x with
  | error e => cases h
  | ok a => exact ⟨a, rfl, h⟩

@[simp] theorem ok_bind {ε α β : Type} (a : α) (f : α → Except ε β) :
    ((Except.ok a : Except ε α) >>= f) = f a := rfl

@[simp] theorem error_bind {ε α β : Type} (e : ε) (f : α → Except ε β) :
    ((Except.error e : Except ε α) >>= f) = .error e := rfl

-- =============================================================== memory

/-- `memcpy(dst.data() + pos, src.data(), src.size())`. -/
def memcpyTo (dst : Bytes) (pos : Nat) (src : Bytes) : Checked Bytes := do
  require (pos + src.length ≤ dst.length) .copyOutOfRange
  return Ring.overwrite dst pos src

/-- The `n` bytes a `memcpy` reads from `src.data() + pos`. -/
def memcpyFrom (src : Bytes) (pos n : Nat) : Checked Bytes := do
  require (pos + n ≤ src.length) .copyOutOfRange
  return (src.drop pos).take n

theorem memcpyTo_of_le {dst src : Bytes} {pos : Nat}
    (h : pos + src.length ≤ dst.length) :
    memcpyTo dst pos src = .ok (Ring.overwrite dst pos src) := by
  rw [memcpyTo, require_of h]
  rfl

theorem memcpyFrom_of_le {src : Bytes} {pos n : Nat}
    (h : pos + n ≤ src.length) :
    memcpyFrom src pos n = .ok ((src.drop pos).take n) := by
  rw [memcpyFrom, require_of h]
  rfl

-- ======================================================= utils::ReadLE

/-- `utils::ReadLE<uint32_t>(ptr + pos)`. -/
def readLE32 (bs : Bytes) (pos : Nat) : UInt32 :=
  UInt32.ofNat (LittleEndian.ofBytes ((bs.drop pos).take 4))

/-- `utils::WriteLE` of a 32-bit word. -/
def writeLE32 (w : UInt32) : Bytes := LittleEndian.toBytes 4 w.toNat

/-- `utils::WriteLE` of a 64-bit size. -/
def writeLE64 (w : UInt64) : Bytes := LittleEndian.toBytes 8 w.toNat

/-- A word that is wholly inside the bytes is read without loss. -/
theorem readLE32_toNat {bs : Bytes} {pos : Nat}
    (h : pos + 4 ≤ bs.length) :
    (readLE32 bs pos).toNat = LittleEndian.ofBytes ((bs.drop pos).take 4) := by
  have hlen : ((bs.drop pos).take 4).length = 4 := by
    rw [List.length_take, List.length_drop]
    omega
  have hlt := LittleEndian.ofBytes_lt ((bs.drop pos).take 4)
  rw [hlen] at hlt
  rw [readLE32, UInt32.toNat_ofNat']
  exact Nat.mod_eq_of_lt hlt

@[simp] theorem writeLE32_length (w : UInt32) :
    (writeLE32 w).length = 4 := LittleEndian.toBytes_length _ _

end Remc
