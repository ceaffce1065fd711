/-
Poly1305 as a whole: what `Update` calls absorb, and the tag that
`Finalize` makes of it.

# The invariant

`Hashed key m st`: the accumulator stands for the blocks of `m`, a whole
number of them. `Absorbed key m st` adds the buffer: `m` is a whole number
of blocks, already hashed, and a rest of fewer than 16 bytes, which is in
the buffer. `poly1305Init` establishes it for the empty message and
`poly1305Update` extends the message by its argument (`update_absorbed`),
whichever of its paths it takes. So the state after any sequence of calls
is absorbed for the concatenation (`updates_absorbed`), and `Finalize`
depends on nothing else (`finish_spec`).
-/
import Remc.Crypto.Poly1305Limbs

namespace Remc.Crypto

open LittleEndian PolyMac

-- ================================================================ invariant

/-- Whole blocks are in the accumulator. -/
structure Hashed (key m : Bytes) (st : Poly1305Context) : Prop where
  r : st.r = (poly1305Init key).r
  pad : st.pad = (poly1305Init key).pad
  final : st.final = false
  whole : ∃ n, m.length = 16 * n
  bounded : st.h.Bounded
  value : st.h.value ≡ horner (point key) (blocks 16 m) [MOD prime]

/-- The blocks are in the accumulator and the rest is in the buffer. -/
structure Absorbed (key m : Bytes) (st : Poly1305Context) : Prop where
  split : ∃ whole rest, m = whole ++ rest ∧ Hashed key whole st
    ∧ st.leftover = rest.length ∧ rest.length < 16
    ∧ st.buffer.take st.leftover = rest
  buffer : st.buffer.length = 16

variable {key m : Bytes} {st : Poly1305Context}

theorem zero_bounded : Limbs.zero.Bounded :=
  ⟨by decide, by decide, by decide, by decide, by decide⟩

theorem init_hashed (key : Bytes) : Hashed key [] (poly1305Init key) where
  r := rfl
  pad := rfl
  final := rfl
  whole := ⟨0, rfl⟩
  bounded := zero_bounded
  value := by
    rw [blocks_nil (by norm_num)]
    rfl

/-- The fields that hashing does not read may change. -/
theorem Hashed.of_fields {st' : Poly1305Context} (h : Hashed key m st)
    (hr : st'.r = st.r) (hh : st'.h = st.h) (hpad : st'.pad = st.pad)
    (hfinal : st'.final = st.final) : Hashed key m st' where
  r := hr.trans h.r
  pad := hpad.trans h.pad
  final := hfinal.trans h.final
  whole := h.whole
  bounded := hh ▸ h.bounded
  value := hh ▸ h.value

-- ================================================================ the loop

theorem point_value (key : Bytes) : (poly1305Init key).r.value = point key := by
  rw [Limbs.value, poly1305Init_r, Radix.Limbs.value_digits]

/-- A full block as a number. -/
theorem blockValue_full {b : Bytes} (h : b.length = 16) :
    blockValue b = ofBytes b + 2 ^ 128 * 1 := by
  rw [blockValue, ofBytes_append, h]
  rfl

/-- The loop absorbs block after block. -/
theorem blocksLoop_value (key : Bytes) {hibit : UInt32}
    (hb : hibit.toNat = 2 ^ 24 * 1) (n : Nat) (h : Limbs) (m : Bytes)
    (hm : m.length = 16 * n) (hh : h.Bounded) :
    (blocksLoop (poly1305Init key).r hibit n h m).Bounded
      ∧ (blocksLoop (poly1305Init key).r hibit n h m).value
          ≡ (blocks 16 m).foldl (absorb (point key)) h.value [MOD prime] := by
  induction n generalizing h m with
  | zero =>
      have hnil : m = [] := List.eq_nil_of_length_eq_zero hm
      rw [hnil, blocks_nil (by norm_num)]
      exact ⟨hh, rfl⟩
  | succ n ih =>
      have hlen : (m.take 16).length = 16 := by
        rw [List.length_take]
        omega
      have hblocks : blocks 16 m = m.take 16 :: blocks 16 (m.drop 16) := by
        have hne : m.take 16 ≠ [] := by
          intro hnil
          rw [hnil] at hlen
          cases hlen
        conv_lhs => rw [← List.take_append_drop 16 m]
        rw [blocks_append (q := 1) (by norm_num) hlen,
          blocks_of_le hne (Nat.le_of_eq hlen)]
        rfl
      obtain ⟨hbounded, hvalue⟩ := blockStep_value
        (poly1305Init_r_reduced key) hh (Nat.le_refl 1) hb m
      obtain ⟨hloop, hfold⟩ := ih
        (blockStep (poly1305Init key).r hibit h m) (m.drop 16)
        (by rw [List.length_drop]; omega) hbounded
      refine ⟨hloop, hfold.trans ?_⟩
      rw [point_value, ← blockValue_full hlen] at hvalue
      rw [hblocks]
      exact foldl_absorb_modEq _ hvalue

/-- `poly1305_blocks` on whole blocks. -/
theorem blocks_hashed (h : Hashed key m st) {d : Bytes} {n : Nat}
    (hd : d.length = 16 * n) : Hashed key (m ++ d) (poly1305Blocks st d) := by
  obtain ⟨k, hk⟩ := h.whole
  have hn : d.length / 16 = n := by omega
  have hbit : ((1 : UInt32) <<< 24).toNat = 2 ^ 24 * 1 := rfl
  have hloop := blocksLoop_value key hbit n st.h d hd h.bounded
  have hst : (poly1305Blocks st d).h
      = blocksLoop (poly1305Init key).r ((1 : UInt32) <<< 24) n st.h d := by
    simp only [poly1305Blocks, h.final, h.r, hn, poly1305BlockSize]
    rfl
  refine ⟨h.r, h.pad, h.final, ⟨k + n, ?_⟩, ?_, ?_⟩
  · rw [List.length_append, hk, hd]
    ring
  · rw [hst]
    exact hloop.1
  · rw [hst, blocks_append (by norm_num) hk, horner_append]
    exact hloop.2.trans (foldl_absorb_modEq _ h.value)

-- ==================================================================== Update

theorem init_absorbed (key : Bytes) : Absorbed key [] (poly1305Init key) where
  split := ⟨[], [], rfl, init_hashed key, rfl, by norm_num, rfl⟩
  buffer := rfl

/-- Bytes written behind what is in the buffer. -/
theorem take_overwrite {buf src : Bytes} {pos : Nat}
    (h : pos + src.length ≤ buf.length) :
    (Ring.overwrite buf pos src).take (pos + src.length)
      = buf.take pos ++ src := by
  have hlen : (buf.take pos ++ src).length = pos + src.length := by
    rw [List.length_append, List.length_take]
    omega
  rw [Ring.overwrite, ← hlen, List.take_left]

/-- `updateFresh` hashes the whole blocks and keeps the rest. -/
theorem updateFresh_absorbed (h : Hashed key m st)
    (hbuf : st.buffer.length = 16) (hleft : st.leftover = 0) (d : Bytes) :
    Absorbed key (m ++ d) (updateFresh st d) := by
  let want := d.length / 16 * 16
  have hwant : (d.take want).length = 16 * (d.length / 16) := by
    rw [List.length_take]
    omega
  have hrest : (d.drop want).length < 16 := by
    rw [List.length_drop]
    omega
  let st' := if 16 ≤ d.length then poly1305Blocks st (d.take want) else st
  have hblocks : Hashed key (m ++ d.take want) st'
      ∧ st'.buffer = st.buffer ∧ st'.leftover = 0 := by
    by_cases hle : 16 ≤ d.length
    · rw [show st' = _ from if_pos hle]
      exact ⟨blocks_hashed h hwant, rfl, hleft⟩
    · have hnone : d.take want = [] := by
        apply List.eq_nil_of_length_eq_zero
        omega
      rw [show st' = _ from if_neg hle, hnone, List.append_nil]
      exact ⟨h, rfl, hleft⟩
  obtain ⟨hhashed, hbuf', hleft'⟩ := hblocks
  have hroom : 0 + (d.drop want).length ≤ st'.buffer.length := by
    rw [hbuf', hbuf]
    omega
  have htake := take_overwrite hroom
  have hfresh : updateFresh st d
      = { st' with
          buffer := Ring.overwrite st'.buffer st'.leftover (d.drop want)
          leftover := st'.leftover + (d.drop want).length } := rfl
  rw [hfresh, hleft']
  refine ⟨⟨m ++ d.take want, d.drop want, ?_, ?_, ?_, hrest, ?_⟩, ?_⟩
  · rw [List.append_assoc, List.take_append_drop]
  · exact hhashed.of_fields rfl rfl rfl rfl
  · exact Nat.zero_add _
  · exact htake
  · rw [Ring.overwrite_length hroom, hbuf', hbuf]

/-- `poly1305_update` extends the message, on every path. -/
theorem update_absorbed (h : Absorbed key m st) (d : Bytes) :
    Absorbed key (m ++ d) (poly1305Update st d) := by
  obtain ⟨⟨whole, rest, rfl, hhashed, hleft, hlt, hrest⟩, hbuf⟩ := h
  unfold poly1305Update
  by_cases hempty : st.leftover = 0
  · rw [if_pos hempty]
    have hnil : rest = [] := List.eq_nil_of_length_eq_zero (by omega)
    rw [hnil, List.append_nil]
    exact updateFresh_absorbed hhashed hbuf hempty d
  · rw [if_neg hempty]
    let want := min (16 - st.leftover) d.length
    have hwant : (d.take want).length = want := by
      rw [List.length_take]
      omega
    have hroom : st.leftover + (d.take want).length ≤ st.buffer.length := by
      omega
    have htake := take_overwrite hroom
    rw [hrest, hwant] at htake
    let st' := { st with
      buffer := Ring.overwrite st.buffer st.leftover (d.take want)
      leftover := st.leftover + want }
    have hhashed' : Hashed key whole st' := hhashed.of_fields rfl rfl rfl rfl
    have hbuf' : st'.buffer.length = 16 := by
      rw [← hbuf]
      exact Ring.overwrite_length hroom
    show Absorbed key _ (if st'.leftover < 16 then st' else updateFresh
      { poly1305Blocks st' st'.buffer with leftover := 0 } (d.drop want))
    by_cases hfull : st'.leftover < 16
    · -- the buffer takes all of it
      have hshort : want = d.length := by
        have hlt' : st.leftover + want < 16 := hfull
        omega
      have hall : d.take want = d := List.take_of_length_le (by omega)
      rw [if_pos hfull]
      refine ⟨⟨whole, rest ++ d, List.append_assoc _ _ _, hhashed', ?_, ?_,
        htake.trans (by rw [hall])⟩, hbuf'⟩
      · show st.leftover + want = (rest ++ d).length
        rw [List.length_append, hshort, hleft]
      · rw [List.length_append, ← hleft, ← hshort]
        exact hfull
    · -- the buffer is full: one block, and what is left starts afresh
      have hwhole : st.leftover + want = 16 := by
        have hge : ¬st.leftover + want < 16 := hfull
        omega
      have hblock : st'.buffer = rest ++ d.take want := by
        rw [← htake, hwhole]
        exact (List.take_of_length_le (Nat.le_of_eq hbuf')).symm
      have hnext : Hashed key (whole ++ st'.buffer)
          { poly1305Blocks st' st'.buffer with leftover := 0 } :=
        (blocks_hashed hhashed' (n := 1) hbuf').of_fields rfl rfl rfl rfl
      have hmessage : whole ++ rest ++ d
          = whole ++ st'.buffer ++ d.drop want := by
        rw [hblock, List.append_assoc, List.append_assoc, List.append_assoc,
          List.take_append_drop]
      rw [if_neg hfull, hmessage]
      exact updateFresh_absorbed hnext hbuf' rfl _

/-- After any sequence of updates the state stands for the concatenation. -/
theorem updates_absorbed (key : Bytes) (ms : List Bytes) :
    Absorbed key ms.flatten (ms.foldl poly1305Update (poly1305Init key)) := by
  have hrun : ∀ (ms : List Bytes) {m : Bytes} {st : Poly1305Context},
      Absorbed key m st →
        Absorbed key (m ++ ms.flatten) (ms.foldl poly1305Update st) := by
    intro ms
    induction ms with
    | nil =>
        intro m st h
        rw [List.flatten_nil, List.append_nil]
        exact h
    | cons d ms ih =>
        intro m st h
        rw [List.flatten_cons, ← List.append_assoc]
        exact ih (update_absorbed h d)
  exact hrun ms (init_absorbed key)

-- ================================================================== Finalize

/-- The remaining block, a one byte behind it, counts like the others. -/
theorem processRemaining_value (h : Absorbed key m st) :
    (processRemaining st).h.Bounded
      ∧ (processRemaining st).h.value
          ≡ horner (point key) (blocks 16 m) [MOD prime] := by
  obtain ⟨⟨whole, rest, rfl, hhashed, hleft, hlt, hrest⟩, hbuf⟩ := h
  obtain ⟨k, hk⟩ := hhashed.whole
  rw [blocks_append (by norm_num) hk, horner_append]
  unfold processRemaining
  by_cases hempty : st.leftover = 0
  · rw [if_pos hempty]
    have hnil : rest = [] := List.eq_nil_of_length_eq_zero (by omega)
    rw [hnil, blocks_nil (by norm_num)]
    exact ⟨hhashed.bounded, hhashed.value⟩
  · rw [if_neg hempty]
    have hpos : 0 < rest.length := by omega
    have hne : rest ≠ [] := List.length_pos_iff.mp hpos
    let buffer := rest ++ 1 :: List.replicate (16 - st.leftover - 1) 0
    have hbuffer : buffer.length = 16 := by
      simp only [buffer, List.length_append, List.length_cons,
        List.length_replicate]
      omega
    have hvalue : ofBytes (buffer.take 16) + 2 ^ 128 * 0 = blockValue rest := by
      rw [List.take_of_length_le (Nat.le_of_eq hbuffer), Nat.mul_zero,
        Nat.add_zero, blockValue,
        ← ofBytes_append_zeros (rest ++ [1]) (16 - st.leftover - 1),
        List.append_assoc]
      rfl
    have hst : (poly1305Blocks
        { st with
          buffer := st.buffer.take st.leftover
            ++ 1 :: List.replicate (poly1305BlockSize - st.leftover - 1) 0
          final := true }
        (st.buffer.take st.leftover
          ++ 1 :: List.replicate (poly1305BlockSize - st.leftover - 1) 0)).h
        = blockStep (poly1305Init key).r 0 st.h buffer := by
      rw [hrest, ← hhashed.r]
      have hone : buffer.length / 16 = 1 := by omega
      show blocksLoop st.r 0 (buffer.length / 16) st.h buffer = _
      rw [hone]
      rfl
    have hbit : (0 : UInt32).toNat = 2 ^ 24 * 0 := rfl
    obtain ⟨hbounded, hstep⟩ := blockStep_value (poly1305Init_r_reduced key)
      hhashed.bounded (Nat.zero_le 1) hbit buffer
    rw [point_value, hvalue] at hstep
    rw [hst, blocks_of_le hne (Nat.le_of_lt hlt)]
    exact ⟨hbounded, hstep.trans (foldl_absorb_modEq [rest] hhashed.value)⟩

/-- `poly1305_finish` writes the tag of the message. -/
theorem finish_spec (h : Absorbed key m st) :
    (poly1305Finish st).1 = poly1305 key m := by
  obtain ⟨hbounded, hvalue⟩ := processRemaining_value h
  obtain ⟨⟨_, _, _, hhashed, _⟩, _⟩ := h
  have hpad : (processRemaining st).pad = (poly1305Init key).pad := by
    rw [← hhashed.pad]
    unfold processRemaining
    split <;> rfl
  obtain ⟨hred, hmod⟩ := reduced_value hbounded
  rw [horner_eq_poly] at hvalue
  have htag : ∀ st : Poly1305Context, (poly1305Finish st).1
      = toBytes 16 (addPad (repack (select (fullCarry (processRemaining st).h)
          (minusP (fullCarry (processRemaining st).h))))
          (processRemaining st).pad).value :=
    fun st => writeLE32_value _
  rw [htag, addPad_value, repack_value hred, hmod, hpad, poly1305Init_pad,
    hvalue, poly1305, Nat.mod_add_mod]

namespace Poly1305

theorem foldl_update (ms : List Bytes) (st : Poly1305Context) :
    ms.foldl update { ctx := st } = { ctx := ms.foldl poly1305Update st } := by
  induction ms generalizing st with
  | nil => rfl
  | cons m ms ih => exact ih (poly1305Update st m)

/-- For every key of 32 bytes and every sequence of updates `Finalize`
writes the polynomial authenticator of their concatenation. -/
theorem finalize_updates {key : Bytes} (hkey : key.length = 32)
    (ms : List Bytes) :
    ∃ p, new key = .ok p
      ∧ (ms.foldl update p).finalize 16 = .ok (poly1305 key ms.flatten) := by
  refine ⟨_, new_of_length hkey, ?_⟩
  rw [foldl_update, finalize_tagLen, finish_spec (updates_absorbed key ms)]

/-- One empty and two partial updates. -/
theorem finalize_updates_three :
    ∃ p, new (List.replicate 32 3) = .ok p
      ∧ ([[1, 2, 3], [], [4, 5]].foldl update p).finalize 16
        = .ok (poly1305 (List.replicate 32 3) [1, 2, 3, 4, 5]) :=
  finalize_updates rfl [[1, 2, 3], [], [4, 5]]

end Poly1305

end Remc.Crypto
