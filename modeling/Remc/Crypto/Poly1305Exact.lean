/-
poly1305.cpp over arithmetic that fails where a word would wrap: the same
statements as in `Poly1305`, each sum, product and narrowing conversion
checked, and each `|` checked to join words without a common bit.

Left as they are: the masks, which take the low bits of a word on purpose,
the shifts that move bits beyond a word to the next one, the subtraction in
`g4`, which wraps to tell whether `h` is below the prime, the `mask` made of
it, and the low words of the sums in `mac`.
-/
import Remc.Crypto.Poly1305
import Remc.Lib.ExactWords

namespace Remc.Crypto

open ExactWords (add32 mul32 add64 narrow join32)

-- ====================================================== poly1305_blocks

/-- `h += m[i]`. -/
def addBlockExact (h : Limbs) (hibit : UInt32) (m : Bytes) : Option Limbs := do
  let h0 ← add32 h.l0 (readLE32 m 0 &&& 0x3ffffff)
  let h1 ← add32 h.l1 ((readLE32 m 3 >>> 2) &&& 0x3ffffff)
  let h2 ← add32 h.l2 ((readLE32 m 6 >>> 4) &&& 0x3ffffff)
  let h3 ← add32 h.l3 ((readLE32 m 9 >>> 6) &&& 0x3ffffff)
  let top ← join32 (readLE32 m 12 >>> 8) hibit
  let h4 ← add32 h.l4 top
  return ⟨h0, h1, h2, h3, h4⟩

/-- `(uint64_t)a * b`. -/
def mul64Exact (a b : UInt32) : Option UInt64 :=
  ExactWords.mul64 a.toUInt64 b.toUInt64

/-- One column of `h *= r`: the limbs of `h` times five factors, and the sum
of the products. -/
def columnExact (h x : Limbs) : Option UInt64 := do
  let p0 ← mul64Exact h.l0 x.l0
  let p1 ← mul64Exact h.l1 x.l1
  let p2 ← mul64Exact h.l2 x.l2
  let p3 ← mul64Exact h.l3 x.l3
  let p4 ← mul64Exact h.l4 x.l4
  let d ← add64 p0 p1
  let d ← add64 d p2
  let d ← add64 d p3
  add64 d p4

/-- `h *= r`, before any carry. -/
def productsExact (r h : Limbs) : Option Columns := do
  let s1 ← mul32 r.l1 5
  let s2 ← mul32 r.l2 5
  let s3 ← mul32 r.l3 5
  let s4 ← mul32 r.l4 5
  let d0 ← columnExact h ⟨r.l0, s4, s3, s2, s1⟩
  let d1 ← columnExact h ⟨r.l1, r.l0, s4, s3, s2⟩
  let d2 ← columnExact h ⟨r.l2, r.l1, r.l0, s4, s3⟩
  let d3 ← columnExact h ⟨r.l3, r.l2, r.l1, r.l0, s4⟩
  let d4 ← columnExact h ⟨r.l4, r.l3, r.l2, r.l1, r.l0⟩
  return ⟨d0, d1, d2, d3, d4⟩

/-- `(partial) h %= p`. -/
def partialReduceExact (d : Columns) : Option Limbs := do
  let c ← narrow (d.d0 >>> 26)
  let h0 := d.d0.toUInt32 &&& 0x3ffffff
  let d1 ← add64 d.d1 c.toUInt64
  let c ← narrow (d1 >>> 26)
  let h1 := d1.toUInt32 &&& 0x3ffffff
  let d2 ← add64 d.d2 c.toUInt64
  let c ← narrow (d2 >>> 26)
  let h2 := d2.toUInt32 &&& 0x3ffffff
  let d3 ← add64 d.d3 c.toUInt64
  let c ← narrow (d3 >>> 26)
  let h3 := d3.toUInt32 &&& 0x3ffffff
  let d4 ← add64 d.d4 c.toUInt64
  let c ← narrow (d4 >>> 26)
  let h4 := d4.toUInt32 &&& 0x3ffffff
  let c5 ← mul32 c 5
  let h0 ← add32 h0 c5
  let c := h0 >>> 26
  let h0 := h0 &&& 0x3ffffff
  let h1 ← add32 h1 c
  return ⟨h0, h1, h2, h3, h4⟩

/-- One turn of the loop. -/
def blockStepExact (r : Limbs) (hibit : UInt32) (h : Limbs) (m : Bytes) :
    Option Limbs := do
  let h ← addBlockExact h hibit m
  let d ← productsExact r h
  partialReduceExact d

/-- The loop over `n` blocks, `m` moving along. -/
def blocksLoopExact (r : Limbs) (hibit : UInt32) :
    Nat → Limbs → Bytes → Option Limbs
  | 0, h, _ => some h
  | n + 1, h, m => do
      let h ← blockStepExact r hibit h m
      blocksLoopExact r hibit n h (m.drop poly1305BlockSize)

/-- `poly1305_blocks` over the whole of `m`. -/
def poly1305BlocksExact (st : Poly1305Context) (m : Bytes) :
    Option Poly1305Context := do
  let hibit : UInt32 := if st.final then 0 else (1 : UInt32) <<< 24
  let h ← blocksLoopExact st.r hibit (m.length / poly1305BlockSize) st.h m
  return { st with h := h }

-- ====================================================== poly1305_finish

/-- `fully carry h`. -/
def fullCarryExact (h : Limbs) : Option Limbs := do
  let c := h.l1 >>> 26
  let h1 := h.l1 &&& 0x3ffffff
  let h2 ← add32 h.l2 c
  let c := h2 >>> 26
  let h2 := h2 &&& 0x3ffffff
  let h3 ← add32 h.l3 c
  let c := h3 >>> 26
  let h3 := h3 &&& 0x3ffffff
  let h4 ← add32 h.l4 c
  let c := h4 >>> 26
  let h4 := h4 &&& 0x3ffffff
  let c5 ← mul32 c 5
  let h0 ← add32 h.l0 c5
  let c := h0 >>> 26
  let h0 := h0 &&& 0x3ffffff
  let h1 ← add32 h1 c
  return ⟨h0, h1, h2, h3, h4⟩

/-- `compute h + -p`, the sums checked. -/
def minusPExact (h : Limbs) : Option Limbs := do
  let g0 ← add32 h.l0 5
  let c := g0 >>> 26
  let g0 := g0 &&& 0x3ffffff
  let g1 ← add32 h.l1 c
  let c := g1 >>> 26
  let g1 := g1 &&& 0x3ffffff
  let g2 ← add32 h.l2 c
  let c := g2 >>> 26
  let g2 := g2 &&& 0x3ffffff
  let g3 ← add32 h.l3 c
  let c := g3 >>> 26
  let g3 := g3 &&& 0x3ffffff
  let g4 ← add32 h.l4 c
  -- wraps where `h` is below the prime
  return ⟨g0, g1, g2, g3, g4 - (1 : UInt32) <<< 26⟩

/-- `h = h % (2^128)`: no `|` meets a bit that is set already. -/
def repackExact (h : Limbs) : Option Words4 := do
  let w0 ← join32 h.l0 (h.l1 <<< 26)
  let w1 ← join32 (h.l1 >>> 6) (h.l2 <<< 20)
  let w2 ← join32 (h.l2 >>> 12) (h.l3 <<< 14)
  let w3 ← join32 (h.l3 >>> 18) (h.l4 <<< 8)
  return ⟨w0 &&& 0xffffffff, w1 &&& 0xffffffff, w2 &&& 0xffffffff,
    w3 &&& 0xffffffff⟩

/-- `mac = (h + pad) % (2^128)`, the sums checked. -/
def addPadExact (h pad : Words4) : Option Words4 := do
  let f ← add64 h.w0.toUInt64 pad.w0.toUInt64
  let w0 := f.toUInt32
  let s ← add64 h.w1.toUInt64 pad.w1.toUInt64
  let f ← add64 s (f >>> 32)
  let w1 := f.toUInt32
  let s ← add64 h.w2.toUInt64 pad.w2.toUInt64
  let f ← add64 s (f >>> 32)
  let w2 := f.toUInt32
  let s ← add64 h.w3.toUInt64 pad.w3.toUInt64
  let f ← add64 s (f >>> 32)
  return ⟨w0, w1, w2, f.toUInt32⟩

/-- `process the remaining block`. -/
def processRemainingExact (st : Poly1305Context) : Option Poly1305Context :=
  if st.leftover = 0 then some st
  else
    let buffer := st.buffer.take st.leftover ++ 1
      :: List.replicate (poly1305BlockSize - st.leftover - 1) 0
    poly1305BlocksExact { st with buffer := buffer, final := true } buffer

/-- `poly1305_finish`. -/
def poly1305FinishExact (st : Poly1305Context) :
    Option (Bytes × Poly1305Context) := do
  let st ← processRemainingExact st
  let h ← fullCarryExact st.h
  let g ← minusPExact h
  let words ← repackExact (select h g)
  let mac ← addPadExact words st.pad
  return (writeLE32 mac.w0 ++ writeLE32 mac.w1 ++ writeLE32 mac.w2
      ++ writeLE32 mac.w3,
    { st with h := .zero, r := .zero, pad := .zero })

-- ====================================================== poly1305_update

/-- `process full blocks` and `store leftover`. -/
def updateFreshExact (st : Poly1305Context) (m : Bytes) :
    Option Poly1305Context := do
  let want := m.length / poly1305BlockSize * poly1305BlockSize
  let st ← (if poly1305BlockSize ≤ m.length
    then poly1305BlocksExact st (m.take want) else some st)
  let m := m.drop want
  return { st with
    buffer := Ring.overwrite st.buffer st.leftover m
    leftover := st.leftover + m.length }

/-- `poly1305_update`. -/
def poly1305UpdateExact (st : Poly1305Context) (m : Bytes) :
    Option Poly1305Context :=
  -- handle leftover
  if st.leftover = 0 then updateFreshExact st m
  else
    let want := min (poly1305BlockSize - st.leftover) m.length
    let st := { st with
      buffer := Ring.overwrite st.buffer st.leftover (m.take want)
      leftover := st.leftover + want }
    if st.leftover < poly1305BlockSize then some st
    else do
      let st ← poly1305BlocksExact st st.buffer
      updateFreshExact { st with leftover := 0 } (m.drop want)

end Remc.Crypto
