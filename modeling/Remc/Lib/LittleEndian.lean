/-
Little-endian byte strings: fixed-width digits of a natural number, and
the number a byte string denotes.

`ofBytes` is `Nat.ofDigits 256` on the byte values; it is spelled out
on bytes so that the kernel evaluates it on literals. The two round
trips are stated at a fixed width, which is how every wire field and
every machine word of a program uses them.
-/
import Mathlib.Tactic.Ring

namespace LittleEndian

/-- The `n` little-endian bytes of `v`; what does not fit is dropped. -/
def toBytes : Nat → Nat → List UInt8
  | 0, _ => []
  | n + 1, v => UInt8.ofNat v :: toBytes n (v / 256)

/-- The number with the given little-endian bytes. -/
def ofBytes : List UInt8 → Nat
  | [] => 0
  | b :: bs => b.toNat + 256 * ofBytes bs

@[simp] theorem toBytes_length (n v : Nat) : (toBytes n v).length = n := by
  induction n generalizing v with
  | zero => rfl
  | succ n ih => simp [toBytes, ih]

/-- Writing and reading back keeps the low `n` bytes. -/
theorem ofBytes_toBytes (n v : Nat) :
    ofBytes (toBytes n v) = v % 256 ^ n := by
  induction n generalizing v with
  | zero => simp [toBytes, ofBytes, Nat.mod_one]
  | succ n ih =>
      have hb : (UInt8.ofNat v).toNat = v % 256 := by simp
      rw [toBytes, ofBytes, ih, hb, pow_succ', Nat.mod_mul]

/-- What fits in `n` bytes survives the round trip. -/
theorem ofBytes_toBytes_of_lt {n v : Nat} (h : v < 256 ^ n) :
    ofBytes (toBytes n v) = v := by
  rw [ofBytes_toBytes, Nat.mod_eq_of_lt h]

/-- `n` bytes denote a number below `256 ^ n`. -/
theorem ofBytes_lt (bs : List UInt8) : ofBytes bs < 256 ^ bs.length := by
  induction bs with
  | nil => simp [ofBytes]
  | cons b bs ih =>
      have hb : b.toNat < 256 := b.toNat_lt
      rw [ofBytes, List.length_cons, pow_succ]
      omega

theorem ofBytes_append (bs cs : List UInt8) :
    ofBytes (bs ++ cs) = ofBytes bs + 256 ^ bs.length * ofBytes cs := by
  induction bs with
  | nil => simp [ofBytes]
  | cons b bs ih =>
      rw [List.cons_append, ofBytes, ih, ofBytes, List.length_cons]
      ring

/-- The bytes from the `i`-th on denote the higher digits. -/
theorem ofBytes_drop (i : Nat) (bs : List UInt8) :
    ofBytes (bs.drop i) = ofBytes bs / 256 ^ i := by
  induction i generalizing bs with
  | zero => simp
  | succ i ih =>
      cases bs with
      | nil => simp [ofBytes]
      | cons b bs =>
          have hb : b.toNat < 256 := b.toNat_lt
          have hhigh : (b.toNat + 256 * ofBytes bs) / 256 = ofBytes bs := by
            omega
          rw [List.drop_succ_cons, ih, ofBytes, pow_succ', ← Nat.div_div_eq_div_mul,
            hhigh]

/-- The first `n` bytes denote the lower digits. -/
theorem ofBytes_take (n : Nat) (bs : List UInt8) :
    ofBytes (bs.take n) = ofBytes bs % 256 ^ n := by
  induction n generalizing bs with
  | zero => simp [ofBytes, Nat.mod_one]
  | succ n ih =>
      cases bs with
      | nil => simp [ofBytes]
      | cons b bs =>
          have hb : b.toNat < 256 := b.toNat_lt
          have hlow : (b.toNat + 256 * ofBytes bs) % 256 = b.toNat := by omega
          have hhigh : (b.toNat + 256 * ofBytes bs) / 256 = ofBytes bs := by
            omega
          rw [List.take_succ_cons, ofBytes, ih, ofBytes, pow_succ', Nat.mod_mul,
            hlow, hhigh]

/-- Zeros at the end do not count. -/
theorem ofBytes_append_zeros (bs : List UInt8) (n : Nat) :
    ofBytes (bs ++ List.replicate n 0) = ofBytes bs := by
  have hzero : ofBytes (List.replicate n 0) = 0 := by
    induction n with
    | zero => rfl
    | succ n ih =>
        rw [List.replicate_succ, ofBytes, ih]
        rfl
  rw [ofBytes_append, hzero, Nat.mul_zero, Nat.add_zero]

/-- Reading and writing back restores the bytes. -/
theorem toBytes_ofBytes (bs : List UInt8) :
    toBytes bs.length (ofBytes bs) = bs := by
  induction bs with
  | nil => rfl
  | cons b bs ih =>
      have hb : b.toNat < 256 := b.toNat_lt
      have hlow : UInt8.ofNat (b.toNat + 256 * ofBytes bs) = b := by
        apply UInt8.toNat_inj.mp
        rw [UInt8.toNat_ofNat', Nat.add_mul_mod_self_left,
          Nat.mod_eq_of_lt hb]
      have hhigh : (b.toNat + 256 * ofBytes bs) / 256 = ofBytes bs := by
        omega
      rw [List.length_cons, ofBytes, toBytes, hlow, hhigh, ih]

/-- What does not fit is dropped. -/
theorem toBytes_mod (n v : Nat) : toBytes n (v % 256 ^ n) = toBytes n v := by
  have h := toBytes_ofBytes (toBytes n v)
  rwa [toBytes_length, ofBytes_toBytes] at h

/-- The lower digits, then the higher ones. -/
theorem toBytes_add (a b v : Nat) :
    toBytes (a + b) v = toBytes a v ++ toBytes b (v / 256 ^ a) := by
  induction a generalizing v with
  | zero => simp [toBytes]
  | succ a ih =>
      have hdiv : v / 256 ^ (a + 1) = v / 256 / 256 ^ a := by
        rw [Nat.div_div_eq_div_mul, pow_succ']
      rw [Nat.add_right_comm, toBytes, ih, toBytes, hdiv, List.cons_append]

/-- The bytes of an XOR are the XORs of the bytes. -/
theorem toBytes_xor (n a b : Nat) :
    toBytes n (a ^^^ b)
      = List.zipWith (· ^^^ ·) (toBytes n a) (toBytes n b) := by
  induction n generalizing a b with
  | zero => rfl
  | succ n ih =>
      have hlow : UInt8.ofNat (a ^^^ b) = UInt8.ofNat a ^^^ UInt8.ofNat b := by
        apply UInt8.toNat_inj.mp
        rw [UInt8.toNat_xor, UInt8.toNat_ofNat', UInt8.toNat_ofNat',
          UInt8.toNat_ofNat', Nat.xor_mod_two_pow]
      have hhigh : (a ^^^ b) / 256 = a / 256 ^^^ b / 256 :=
        Nat.xor_div_two_pow (n := 8)
      rw [toBytes, toBytes, toBytes, List.zipWith_cons_cons, hlow, hhigh, ih]

end LittleEndian
