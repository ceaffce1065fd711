/-
Poly1305 (poly1305.h, poly1305.cpp): the 32-bit arithmetic of
poly1305-donna on five 26-bit limbs, its buffering of partial blocks,
and the class around it.

All arithmetic is on the source's machine words, carries and masks
included. One turn of the loop of `poly1305_blocks` is `blockStep`,
itself the three groups of statements of the loop body: adding the
block (`addBlock`), multiplying (`products`), and the partial reduction
(`partialReduce`).
-/
import Remc.Basic

namespace Remc.Crypto

/-- Five 32-bit limbs: `r0` to `r4` or `h0` to `h4`. -/
structure Limbs where
  l0 : UInt32
  l1 : UInt32
  l2 : UInt32
  l3 : UInt32
  l4 : UInt32
deriving DecidableEq, Repr

/-- The 64-bit column sums `d0` to `d4`. -/
structure Columns where
  d0 : UInt64
  d1 : UInt64
  d2 : UInt64
  d3 : UInt64
  d4 : UInt64
deriving DecidableEq, Repr

/-- `pad[0]` to `pad[3]`, and the four words of a tag. -/
structure Words4 where
  w0 : UInt32
  w1 : UInt32
  w2 : UInt32
  w3 : UInt32
deriving DecidableEq, Repr

def Limbs.zero : Limbs := ⟨0, 0, 0, 0, 0⟩

def Words4.zero : Words4 := ⟨0, 0, 0, 0⟩

/-- `poly1305_context`. -/
structure Poly1305Context where
  r : Limbs
  h : Limbs
  pad : Words4
  leftover : Nat
  buffer : Bytes
  final : Bool
deriving DecidableEq, Repr

/-- `POLY1305_BLOCK_SIZE`. -/
abbrev poly1305BlockSize : Nat := 16

-- ======================================================== poly1305_init

/-- `poly1305_init`. The source leaves `buffer` uninitialised; nothing
below `leftover` is read before it is written. -/
def poly1305Init (key : Bytes) : Poly1305Context where
  r :=
    { l0 := readLE32 key 0 &&& 0x3ffffff
      l1 := (readLE32 key 3 >>> 2) &&& 0x3ffff03
      l2 := (readLE32 key 6 >>> 4) &&& 0x3ffc0ff
      l3 := (readLE32 key 9 >>> 6) &&& 0x3f03fff
      l4 := (readLE32 key 12 >>> 8) &&& 0x00fffff }
  h := .zero
  pad := ⟨readLE32 key 16, readLE32 key 20, readLE32 key 24, readLE32 key 28⟩
  leftover := 0
  buffer := List.replicate poly1305BlockSize 0
  final := false

-- ====================================================== poly1305_blocks

/-- `h += m[i]`. -/
def addBlock (h : Limbs) (hibit : UInt32) (m : Bytes) : Limbs where
  l0 := h.l0 + (readLE32 m 0 &&& 0x3ffffff)
  l1 := h.l1 + ((readLE32 m 3 >>> 2) &&& 0x3ffffff)
  l2 := h.l2 + ((readLE32 m 6 >>> 4) &&& 0x3ffffff)
  l3 := h.l3 + ((readLE32 m 9 >>> 6) &&& 0x3ffffff)
  l4 := h.l4 + ((readLE32 m 12 >>> 8) ||| hibit)

/-- `(uint64_t)a * b`. -/
def mul64 (a b : UInt32) : UInt64 := a.toUInt64 * b.toUInt64

/-- `h *= r`, before any carry; `s1` to `s4` are `r1 * 5` to
`r4 * 5`. -/
def products (r h : Limbs) : Columns :=
  let s1 := r.l1 * 5
  let s2 := r.l2 * 5
  let s3 := r.l3 * 5
  let s4 := r.l4 * 5
  { d0 := mul64 h.l0 r.l0 + mul64 h.l1 s4 + mul64 h.l2 s3
      + mul64 h.l3 s2 + mul64 h.l4 s1
    d1 := mul64 h.l0 r.l1 + mul64 h.l1 r.l0 + mul64 h.l2 s4
      + mul64 h.l3 s3 + mul64 h.l4 s2
    d2 := mul64 h.l0 r.l2 + mul64 h.l1 r.l1 + mul64 h.l2 r.l0
      + mul64 h.l3 s4 + mul64 h.l4 s3
    d3 := mul64 h.l0 r.l3 + mul64 h.l1 r.l2 + mul64 h.l2 r.l1
      + mul64 h.l3 r.l0 + mul64 h.l4 s4
    d4 := mul64 h.l0 r.l4 + mul64 h.l1 r.l3 + mul64 h.l2 r.l2
      + mul64 h.l3 r.l1 + mul64 h.l4 r.l0 }

/-- `(partial) h %= p`. -/
def partialReduce (d : Columns) : Limbs :=
  let c := (d.d0 >>> 26).toUInt32
  let h0 := d.d0.toUInt32 &&& 0x3ffffff
  let d1 := d.d1 + c.toUInt64
  let c := (d1 >>> 26).toUInt32
  let h1 := d1.toUInt32 &&& 0x3ffffff
  let d2 := d.d2 + c.toUInt64
  let c := (d2 >>> 26).toUInt32
  let h2 := d2.toUInt32 &&& 0x3ffffff
  let d3 := d.d3 + c.toUInt64
  let c := (d3 >>> 26).toUInt32
  let h3 := d3.toUInt32 &&& 0x3ffffff
  let d4 := d.d4 + c.toUInt64
  let c := (d4 >>> 26).toUInt32
  let h4 := d4.toUInt32 &&& 0x3ffffff
  let h0 := h0 + c * 5
  let c := h0 >>> 26
  let h0 := h0 &&& 0x3ffffff
  let h1 := h1 + c
  ⟨h0, h1, h2, h3, h4⟩

/-- One turn of the loop. -/
def blockStep (r : Limbs) (hibit : UInt32) (h : Limbs) (m : Bytes) :
    Limbs :=
  partialReduce (products r (addBlock h hibit m))

/-- The loop over `n` blocks, `m` moving along. -/
def blocksLoop (r : Limbs) (hibit : UInt32) : Nat → Limbs → Bytes → Limbs
  | 0, h, _ => h
  | n + 1, h, m =>
      blocksLoop r hibit n (blockStep r hibit h m) (m.drop poly1305BlockSize)

/-- `poly1305_blocks` over the whole of `m`. -/
def poly1305Blocks (st : Poly1305Context) (m : Bytes) : Poly1305Context :=
  let hibit : UInt32 := if st.final then 0 else (1 : UInt32) <<< 24
  { st with h := blocksLoop st.r hibit (m.length / poly1305BlockSize) st.h m }

-- ====================================================== poly1305_finish

/-- `fully carry h`. -/
def fullCarry (h : Limbs) : Limbs :=
  let c := h.l1 >>> 26
  let h1 := h.l1 &&& 0x3ffffff
  let h2 := h.l2 + c
  let c := h2 >>> 26
  let h2 := h2 &&& 0x3ffffff
  let h3 := h.l3 + c
  let c := h3 >>> 26
  let h3 := h3 &&& 0x3ffffff
  let h4 := h.l4 + c
  let c := h4 >>> 26
  let h4 := h4 &&& 0x3ffffff
  let h0 := h.l0 + c * 5
  let c := h0 >>> 26
  let h0 := h0 &&& 0x3ffffff
  let h1 := h1 + c
  ⟨h0, h1, h2, h3, h4⟩

/-- `compute h + -p`. -/
def minusP (h : Limbs) : Limbs :=
  let g0 := h.l0 + 5
  let c := g0 >>> 26
  let g0 := g0 &&& 0x3ffffff
  let g1 := h.l1 + c
  let c := g1 >>> 26
  let g1 := g1 &&& 0x3ffffff
  let g2 := h.l2 + c
  let c := g2 >>> 26
  let g2 := g2 &&& 0x3ffffff
  let g3 := h.l3 + c
  let c := g3 >>> 26
  let g3 := g3 &&& 0x3ffffff
  let g4 := h.l4 + c - (1 : UInt32) <<< 26
  ⟨g0, g1, g2, g3, g4⟩

/-- `select h if h < p, or h + -p if h >= p`. -/
def select (h g : Limbs) : Limbs :=
  let mask := (g.l4 >>> 31) - 1
  let unmask := ~~~mask
  { l0 := (h.l0 &&& unmask) ||| (g.l0 &&& mask)
    l1 := (h.l1 &&& unmask) ||| (g.l1 &&& mask)
    l2 := (h.l2 &&& unmask) ||| (g.l2 &&& mask)
    l3 := (h.l3 &&& unmask) ||| (g.l3 &&& mask)
    l4 := (h.l4 &&& unmask) ||| (g.l4 &&& mask) }

/-- `h = h % (2^128)`: five limbs repacked as four words. -/
def repack (h : Limbs) : Words4 where
  w0 := (h.l0 ||| (h.l1 <<< 26)) &&& 0xffffffff
  w1 := ((h.l1 >>> 6) ||| (h.l2 <<< 20)) &&& 0xffffffff
  w2 := ((h.l2 >>> 12) ||| (h.l3 <<< 14)) &&& 0xffffffff
  w3 := ((h.l3 >>> 18) ||| (h.l4 <<< 8)) &&& 0xffffffff

/-- `mac = (h + pad) % (2^128)`. -/
def addPad (h pad : Words4) : Words4 :=
  let f := h.w0.toUInt64 + pad.w0.toUInt64
  let w0 := f.toUInt32
  let f := h.w1.toUInt64 + pad.w1.toUInt64 + (f >>> 32)
  let w1 := f.toUInt32
  let f := h.w2.toUInt64 + pad.w2.toUInt64 + (f >>> 32)
  let w2 := f.toUInt32
  let f := h.w3.toUInt64 + pad.w3.toUInt64 + (f >>> 32)
  ⟨w0, w1, w2, f.toUInt32⟩

/-- `process the remaining block`: a one byte behind what is left,
zeros up to the end of the block. -/
def processRemaining (st : Poly1305Context) : Poly1305Context :=
  if st.leftover = 0 then st
  else
    let buffer := st.buffer.take st.leftover ++ 1
      :: List.replicate (poly1305BlockSize - st.leftover - 1) 0
    poly1305Blocks { st with buffer := buffer, final := true } buffer

/-- `poly1305_finish`: the 16 bytes it writes, and the zeroed state. -/
def poly1305Finish (st : Poly1305Context) : Bytes × Poly1305Context :=
  let st := processRemaining st
  let h := fullCarry st.h
  let h := select h (minusP h)
  let mac := addPad (repack h) st.pad
  (writeLE32 mac.w0 ++ writeLE32 mac.w1 ++ writeLE32 mac.w2
      ++ writeLE32 mac.w3,
    { st with h := .zero, r := .zero, pad := .zero })

-- ====================================================== poly1305_update

/-- `process full blocks` and `store leftover`, once nothing is left
over. -/
def updateFresh (st : Poly1305Context) (m : Bytes) : Poly1305Context :=
  let want := m.length / poly1305BlockSize * poly1305BlockSize
  let st := if poly1305BlockSize ≤ m.length
    then poly1305Blocks st (m.take want) else st
  let m := m.drop want
  { st with
    buffer := Ring.overwrite st.buffer st.leftover m
    leftover := st.leftover + m.length }

/-- `poly1305_update`. -/
def poly1305Update (st : Poly1305Context) (m : Bytes) : Poly1305Context :=
  -- handle leftover
  if st.leftover = 0 then updateFresh st m
  else
    let want := min (poly1305BlockSize - st.leftover) m.length
    let st := { st with
      buffer := Ring.overwrite st.buffer st.leftover (m.take want)
      leftover := st.leftover + want }
    if st.leftover < poly1305BlockSize then st
    else
      updateFresh { poly1305Blocks st st.buffer with leftover := 0 }
        (m.drop want)

-- ============================================================= Poly1305

/-- `Poly1305`: the class around the context. -/
structure Poly1305 where
  ctx : Poly1305Context
deriving DecidableEq, Repr

namespace Poly1305

/-- `TAGLEN`. -/
abbrev tagLen : Nat := 16

/-- `KEYLEN`. -/
abbrev keyLen : Nat := 32

/-- The constructor. -/
def new (key : Bytes) : Checked Poly1305 := do
  require (key.length = keyLen) .keySize
  return { ctx := poly1305Init key }

/-- `Update`. -/
def update (p : Poly1305) (msg : Bytes) : Poly1305 :=
  { ctx := poly1305Update p.ctx msg }

/-- `Finalize` into a span of `outSize` bytes. -/
def finalize (p : Poly1305) (outSize : Nat) : Checked Bytes := do
  require (outSize = tagLen) .tagSize
  return (poly1305Finish p.ctx).1

theorem new_of_length {key : Bytes} (h : key.length = 32) :
    new key = .ok { ctx := poly1305Init key } := by
  unfold new
  have hlen : key.length = keyLen := h
  rw [require_of hlen]
  rfl

theorem finalize_tagLen (p : Poly1305) :
    p.finalize 16 = .ok (poly1305Finish p.ctx).1 := by
  unfold finalize
  have hlen : 16 = tagLen := rfl
  rw [require_of hlen]
  rfl

/-- A tag has 16 bytes. -/
theorem poly1305Finish_length (st : Poly1305Context) :
    (poly1305Finish st).1.length = 16 := by
  simp only [poly1305Finish, List.length_append, writeLE32_length]

end Poly1305

end Remc.Crypto
