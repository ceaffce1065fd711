/-
Poly1305 over whole runs in exact arithmetic: no word wraps, whatever was
called before.

# The invariant

`Poly1305Context.Bounded`: the limbs of `r` are below 2^26 and those of `h`
are what a turn of the loop leaves. The masks of `poly1305_init` establish
it, the partial reduction at the end of each turn restores it, and
`poly1305_finish` leaves zeros. From a bounded state every function returns
in exact arithmetic what it returns on words (`poly1305UpdateExact_eq`,
`poly1305FinishExact_eq`), so every run does (`reached_exact`).
-/
import Remc.Crypto.Poly1305Mac

namespace Remc.Crypto

open ExactWords (bind_exact)

-- ================================================================ invariant

/-- The limbs leave room for the next block. -/
structure Poly1305Context.Bounded (st : Poly1305Context) : Prop where
  r : st.r.nat.Reduced (2 ^ 26)
  h : st.h.Bounded

theorem poly1305Init_bounded (key : Bytes) : (poly1305Init key).Bounded where
  r := poly1305Init_r_reduced key
  h := zero_bounded

-- ================================================================ the loop

variable {r h : Limbs} {st : Poly1305Context}

/-- One turn of the loop in exact arithmetic. -/
theorem blockStepExact_eq (hr : r.nat.Reduced (2 ^ 26)) (hh : h.Bounded)
    {hibit : UInt32} {k : Nat} (hk : k ≤ 1) (hb : hibit.toNat = 2 ^ 24 * k)
    (m : Bytes) :
    blockStepExact r hibit h m = some (blockStep r hibit h m)
      ∧ (blockStep r hibit h m).Bounded := by
  obtain ⟨hadd, -, hsummed⟩ := addBlockExact_eq hh hk hb m
  obtain ⟨hmul, -⟩ := productsExact_eq hr hsummed
  obtain ⟨-, hfit⟩ := products_nat hr hsummed
  obtain ⟨hreduce, -⟩ := partialReduceExact_eq hfit
  exact ⟨bind_exact hadd (bind_exact hmul hreduce), partialReduce_bounded hfit⟩

/-- Any number of turns. -/
theorem blocksLoopExact_eq (hr : r.nat.Reduced (2 ^ 26)) (hh : h.Bounded)
    {hibit : UInt32} {k : Nat} (hk : k ≤ 1) (hb : hibit.toNat = 2 ^ 24 * k)
    (n : Nat) (m : Bytes) :
    blocksLoopExact r hibit n h m = some (blocksLoop r hibit n h m)
      ∧ (blocksLoop r hibit n h m).Bounded := by
  induction n generalizing h m with
  | zero => exact ⟨rfl, hh⟩
  | succ n ih =>
      obtain ⟨hstep, hbounded⟩ := blockStepExact_eq hr hh hk hb m
      obtain ⟨hrest, hlast⟩ := ih hbounded (m.drop poly1305BlockSize)
      exact ⟨bind_exact hstep hrest, hlast⟩

/-- The bit behind a block, for full blocks and for the final one. -/
theorem hibit_nat (final : Bool) :
    ∃ k, k ≤ 1 ∧ (if final then 0 else (1 : UInt32) <<< 24 : UInt32).toNat
      = 2 ^ 24 * k := by
  cases final with
  | false => exact ⟨1, Nat.le_refl 1, rfl⟩
  | true => exact ⟨0, Nat.zero_le 1, rfl⟩

theorem poly1305BlocksExact_eq (hst : st.Bounded) (m : Bytes) :
    poly1305BlocksExact st m = some (poly1305Blocks st m)
      ∧ (poly1305Blocks st m).Bounded := by
  obtain ⟨k, hk, hb⟩ := hibit_nat st.final
  obtain ⟨hloop, hbounded⟩ := blocksLoopExact_eq hst.r hst.h hk hb
    (m.length / poly1305BlockSize) m
  exact ⟨bind_exact hloop rfl, hst.r, hbounded⟩

-- ==================================================================== Update

theorem updateFreshExact_eq (hst : st.Bounded) (m : Bytes) :
    updateFreshExact st m = some (updateFresh st m)
      ∧ (updateFresh st m).Bounded := by
  let want := m.length / poly1305BlockSize * poly1305BlockSize
  let st' := if poly1305BlockSize ≤ m.length
    then poly1305Blocks st (m.take want) else st
  have hblocks : (if poly1305BlockSize ≤ m.length
        then poly1305BlocksExact st (m.take want) else some st) = some st'
      ∧ st'.Bounded := by
    by_cases hle : poly1305BlockSize ≤ m.length
    · rw [if_pos hle, show st' = _ from if_pos hle]
      exact poly1305BlocksExact_eq hst _
    · rw [if_neg hle, show st' = _ from if_neg hle]
      exact ⟨rfl, hst⟩
  obtain ⟨hexact, hbounded⟩ := hblocks
  exact ⟨bind_exact hexact rfl, hbounded.r, hbounded.h⟩

/-- `poly1305_update` in exact arithmetic. -/
theorem poly1305UpdateExact_eq (hst : st.Bounded) (m : Bytes) :
    poly1305UpdateExact st m = some (poly1305Update st m)
      ∧ (poly1305Update st m).Bounded := by
  unfold poly1305UpdateExact poly1305Update
  by_cases hempty : st.leftover = 0
  · rw [if_pos hempty, if_pos hempty]
    exact updateFreshExact_eq hst m
  · rw [if_neg hempty, if_neg hempty]
    let want := min (poly1305BlockSize - st.leftover) m.length
    let st' := { st with
      buffer := Ring.overwrite st.buffer st.leftover (m.take want)
      leftover := st.leftover + want }
    have hst' : st'.Bounded := ⟨hst.r, hst.h⟩
    by_cases hfull : st'.leftover < poly1305BlockSize
    · rw [if_pos hfull, if_pos hfull]
      exact ⟨rfl, hst'⟩
    · obtain ⟨hblock, hbounded⟩ := poly1305BlocksExact_eq hst' st'.buffer
      have hnext : Poly1305Context.Bounded
          { poly1305Blocks st' st'.buffer with leftover := 0 } :=
        ⟨hbounded.r, hbounded.h⟩
      obtain ⟨hfresh, hlast⟩ := updateFreshExact_eq hnext (m.drop want)
      rw [if_neg hfull, if_neg hfull]
      exact ⟨bind_exact hblock hfresh, hlast⟩

-- ================================================================== Finalize

theorem processRemainingExact_eq (hst : st.Bounded) :
    processRemainingExact st = some (processRemaining st)
      ∧ (processRemaining st).Bounded := by
  unfold processRemainingExact processRemaining
  by_cases hempty : st.leftover = 0
  · rw [if_pos hempty, if_pos hempty]
    exact ⟨rfl, hst⟩
  · rw [if_neg hempty, if_neg hempty]
    let buffer := st.buffer.take st.leftover ++ 1
      :: List.replicate (poly1305BlockSize - st.leftover - 1) 0
    have hlast : Poly1305Context.Bounded
        { st with buffer := buffer, final := true } := ⟨hst.r, hst.h⟩
    exact poly1305BlocksExact_eq hlast buffer

/-- `poly1305_finish` in exact arithmetic. -/
theorem poly1305FinishExact_eq (hst : st.Bounded) :
    poly1305FinishExact st = some (poly1305Finish st)
      ∧ (poly1305Finish st).2.Bounded := by
  obtain ⟨hremaining, hbounded⟩ := processRemainingExact_eq hst
  obtain ⟨hcarry, -, hred⟩ := fullCarryExact_eq hbounded.h
  obtain ⟨hminus, -⟩ := minusPExact_eq hred
  obtain ⟨hselected, -⟩ := reduced_value hbounded.h
  obtain ⟨hrepack, -⟩ := repackExact_eq hselected
  obtain ⟨hpad, -⟩ := addPadExact_eq
    (repack (select (fullCarry (processRemaining st).h)
      (minusP (fullCarry (processRemaining st).h)))) (processRemaining st).pad
  have hzero : Limbs.zero.nat.Reduced (2 ^ 26) :=
    ⟨by decide, by decide, by decide, by decide, by decide⟩
  refine ⟨?_, hzero, zero_bounded⟩
  exact bind_exact hremaining (bind_exact hcarry (bind_exact hminus
    (bind_exact hrepack (bind_exact hpad rfl))))

-- ================================================================== the runs

namespace Poly1305Context

/-- What can be called on a context. -/
inductive Call where
  | update (m : Bytes)
  | finish
deriving DecidableEq, Repr

/-- The context after a call. -/
def call (st : Poly1305Context) : Call → Poly1305Context
  | .update m => poly1305Update st m
  | .finish => (poly1305Finish st).2

/-- The same in exact arithmetic. -/
def callExact (st : Poly1305Context) : Call → Option Poly1305Context
  | .update m => poly1305UpdateExact st m
  | .finish => (poly1305FinishExact st).map Prod.snd

/-- The context after any calls since `poly1305_init`. -/
def reached (key : Bytes) (calls : List Call) : Poly1305Context :=
  calls.foldl call (poly1305Init key)

/-- One call keeps the invariant and wraps nowhere. -/
theorem callExact_eq (hst : st.Bounded) (c : Call) :
    callExact st c = some (call st c) ∧ (call st c).Bounded := by
  cases c with
  | update m => exact poly1305UpdateExact_eq hst m
  | finish =>
      obtain ⟨hfinish, hbounded⟩ := poly1305FinishExact_eq hst
      refine ⟨?_, hbounded⟩
      unfold callExact
      rw [hfinish]
      rfl

theorem reached_exact (key : Bytes) (calls : List Call) :
    calls.foldlM callExact (poly1305Init key) = some (reached key calls)
      ∧ (reached key calls).Bounded :=
  ExactWords.foldlM_exact (I := Bounded) (fun _ c hst => callExact_eq hst c)
    (poly1305Init_bounded key) calls

-- ================================================================ the result

/-- For every key and any calls: the run returns in exact arithmetic what it
returns on words. In the state that it reaches the same holds of any number
of blocks of any content, whose limbs stay bounded, and of
`poly1305_finish`. There the carry pass leaves limbs below 2^26, the top bit
of `g4` tells whether they stand for less than 2^130 - 5, and repacking drops
only what is above 2^128. -/
theorem never_wraps (key : Bytes) (calls : List Call) :
    calls.foldlM callExact (poly1305Init key) = some (reached key calls)
      ∧ (∀ m, poly1305BlocksExact (reached key calls) m
            = some (poly1305Blocks (reached key calls) m)
          ∧ (poly1305Blocks (reached key calls) m).h.Bounded)
      ∧ poly1305FinishExact (reached key calls)
          = some (poly1305Finish (reached key calls))
      ∧ ∃ h g, h = fullCarry (processRemaining (reached key calls)).h
          ∧ g = minusP h
          ∧ (processRemaining (reached key calls)).h.Bounded
          ∧ h.nat.Reduced (2 ^ 26)
          ∧ (2 ^ 31 ≤ g.l4.toNat ↔ h.value < 2 ^ 130 - 5)
          ∧ (select h g).nat.Reduced (2 ^ 26)
          ∧ (repack (select h g)).value = (select h g).value % 2 ^ 128 := by
  obtain ⟨hrun, hst⟩ := reached_exact key calls
  obtain ⟨-, hremaining⟩ := processRemainingExact_eq hst
  obtain ⟨-, hred⟩ := fullCarry_nat hremaining.h
  obtain ⟨hselected, -⟩ := reduced_value hremaining.h
  refine ⟨hrun, ?_, (poly1305FinishExact_eq hst).1, _, _, rfl, rfl,
    hremaining.h, hred, ?_, hselected, repack_value hselected⟩
  · intro m
    obtain ⟨hblocks, hbounded⟩ := poly1305BlocksExact_eq hst m
    exact ⟨hblocks, hbounded.h⟩
  · rw [minusP_top hred]
    exact Nat.lt_sub_iff_add_lt.symm

end Poly1305Context

end Remc.Crypto
