/-
Which nonces `FSChaCha20Poly1305` uses under one key, and whether they meet
the nonce of the next key.

# The log

`uses` records every `Encrypt` of a run: how many keys were set before it,
its nonce, the nonce with which `NextPacket` would make the next key at that
moment, and the length of its text. A key epoch is what lies between two
`SetKey` calls. `place` names a byte of keystream by the block that it comes
from, so that a text longer than its nonce allows, whose counter carries into
the nonce, is seen to reach the blocks of other nonces.

# The two ways to meet the rekey nonce

The packet counter starts at 0 and stops at the interval, so within one epoch
the nonces are distinct (`uses_distinct`). The interval 0 is reached by
wrapping only, and then the last packet of the epoch has the rekey nonce. A
text of more than 2^38 bytes for every nonce that is left above its own
carries into it. Nothing else does (`nonceSafe_iff`).
-/
import Remc.Crypto.ForwardSecure

namespace Remc.Crypto

namespace FSChaCha20Poly1305

-- =================================================================== the log

/-- The arguments of an `Encrypt`. -/
structure Plain where
  plain1 : Bytes
  plain2 : Bytes
  aad : Bytes
deriving DecidableEq, Repr

/-- One `Encrypt`: the number of `SetKey` calls before it, its nonce, the
nonce that would make the next key, and the length of the text. -/
structure Use where
  epoch : Nat
  nonce : Nonce96
  rekeyNonce : Nonce96
  length : Nat
deriving DecidableEq, Repr

/-- `NextPacket` is about to switch keys. -/
def rekeyDue (f : FSChaCha20Poly1305) : Prop :=
  f.packetCounter + 1 = f.rekeyInterval

instance (f : FSChaCha20Poly1305) : Decidable f.rekeyDue :=
  inferInstanceAs (Decidable (f.packetCounter + 1 = f.rekeyInterval))

/-- The log of a run of `Encrypt` calls. -/
def uses (f : FSChaCha20Poly1305) (epoch : Nat) :
    List Plain → Checked (List Use)
  | [] => .ok []
  | p :: ps => do
      let (_, f') ← f.encrypt p.plain1 p.plain2 p.aad
        (p.plain1.length + p.plain2.length + Aead.expansion)
      let us ← f'.uses (if f.rekeyDue then epoch + 1 else epoch) ps
      return {
        epoch, nonce := f.nonce, rekeyNonce := ⟨0xFFFFFFFF, f.rekeyCounter⟩
        length := p.plain1.length + p.plain2.length } :: us

/-- Byte `i` of the stream behind the first block of a nonce: the counter
and the nonce of the block it comes from, and its offset there. -/
def place (nonce : Nonce96) (i : Nat) : UInt32 × ChaCha.Nonce × Nat :=
  (ChaCha.counterAt 1 (i / 64), ChaCha.nonceAt nonce.words 1 (i / 64), i % 64)

/-- What the wrapper promises of a log: within an epoch the nonces are
distinct and none is the one that makes the next key, and no byte of the
next key enciphers a text. -/
structure NonceSafe (us : List Use) : Prop where
  distinct : us.Pairwise fun u v => u.epoch = v.epoch → u.nonce ≠ v.nonce
  rekey : ∀ u ∈ us, ∀ v ∈ us, u.epoch = v.epoch → u.nonce ≠ v.rekeyNonce
  bytes : ∀ u ∈ us, ∀ v ∈ us, u.epoch = v.epoch →
    ∀ i < u.length, ∀ j < 32, place u.nonce i ≠ place v.rekeyNonce j

/-- The packet counter is below its maximum, and the text ends before its
counter carries into the rekey nonce. -/
def Use.Apart (u : Use) : Prop :=
  u.nonce.first ≠ 0xFFFFFFFF
    ∧ u.length ≤ (0xFFFFFFFF - u.nonce.first.toNat) * 2 ^ 38

/-- A byte of keystream is decided by its place. -/
theorem keystream_getElem (key : Bytes) (nonce : Nonce96) (n i : Nat)
    (hi : i < (ChaCha.keystream key nonce.words 1 0 n).length) :
    (ChaCha.keystream key nonce.words 1 0 n)[i]
      = (ChaCha.block key (place nonce i).1 (place nonce i).2.1).getD
          (place nonce i).2.2 0 := by
  simp only [ChaCha.keystream, List.getElem_map, List.getElem_range',
    Nat.zero_add, Nat.one_mul]
  rfl

-- =============================================================== the ratchet

namespace Ratchet

/-- The log of a run from a ratchet. -/
def uses : Ratchet → Nat → List Plain → List Use
  | _, _, [] => []
  | r, epoch, p :: ps =>
      ⟨epoch, r.nonce, r.rekeyNonce, p.plain1.length + p.plain2.length⟩
        :: r.next.uses (if r.packet + 1 = r.interval then epoch + 1 else epoch) ps

end Ratchet

variable {f : FSChaCha20Poly1305} {r : Ratchet}

theorem uses_follows (h : Follows f r) (epoch : Nat) (ps : List Plain) :
    f.uses epoch ps = .ok (r.uses epoch ps) := by
  induction ps generalizing f r epoch with
  | nil => rfl
  | cons p ps ih =>
      obtain ⟨f', hencrypt, h'⟩ := encrypt_follows h p.plain1 p.plain2 p.aad
      have hdue : f.rekeyDue = (r.packet + 1 = r.interval) := by
        rw [rekeyDue, h.packet, h.interval]
      rw [uses, hencrypt, ok_bind]
      simp only [ih h', ok_bind, h.nonce_eq, h.rekeys, hdue]
      rfl

namespace Ratchet

theorem zero_lt_interval {interval : UInt32} (h : interval ≠ 0) :
    (0 : UInt32).toNat < interval.toNat :=
  Nat.pos_of_ne_zero (mt (UInt32.toNat_inj (b := 0)).mp h)

/-- The packet counter has not passed the interval. -/
def Within (r : Ratchet) : Prop :=
  r.interval = 0 ∨ r.packet.toNat < r.interval.toNat

/-- Below the interval the packet counter does not wrap. -/
theorem Within.packet_succ (h : r.Within) (hnext : r.packet + 1 ≠ r.interval) :
    (r.packet + 1).toNat = r.packet.toNat + 1 := by
  have hp := r.packet.toNat_lt
  have hi := r.interval.toNat_lt
  have hsum : (r.packet + 1).toNat = (r.packet.toNat + 1) % 2 ^ 32 :=
    UInt32.toNat_add r.packet 1
  by_cases hwrap : r.packet.toNat + 1 < 2 ^ 32
  · rw [hsum, Nat.mod_eq_of_lt hwrap]
  · -- it wraps to 0, which only the interval 0 lets it reach
    have hzero : r.packet + 1 = 0 := UInt32.toNat_inj.mp (by
      rw [hsum]
      show (r.packet.toNat + 1) % 2 ^ 32 = 0
      omega)
    rcases h with h | h
    · exact absurd (hzero.trans h.symm) hnext
    · omega

theorem Within.next (h : r.Within) : r.next.Within := by
  unfold Ratchet.next
  by_cases hnext : r.packet + 1 ≠ r.interval
  · rw [if_pos hnext]
    have hsucc := h.packet_succ hnext
    have hne : (r.packet + 1).toNat ≠ r.interval.toNat :=
      mt UInt32.toNat_inj.mp hnext
    rcases h with h | h
    · exact .inl h
    · apply Or.inr
      show (r.packet + 1).toNat < r.interval.toNat
      omega
  · rw [if_neg hnext]
    by_cases hzero : r.interval = 0
    · exact .inl hzero
    · exact .inr (zero_lt_interval hzero)

theorem next_interval (r : Ratchet) : r.next.interval = r.interval := by
  unfold Ratchet.next
  split <;> rfl

/-- Where the log goes on after the first message. -/
theorem next_epoch (h : r.Within) (epoch : Nat) :
    (r.packet + 1 = r.interval
        ∧ (if r.packet + 1 = r.interval then epoch + 1 else epoch) = epoch + 1)
      ∨ ((if r.packet + 1 = r.interval then epoch + 1 else epoch) = epoch
        ∧ r.next.rekeys = r.rekeys
        ∧ r.next.packet.toNat = r.packet.toNat + 1) := by
  by_cases hdue : r.packet + 1 = r.interval
  · exact .inl ⟨hdue, if_pos hdue⟩
  · apply Or.inr
    have hnext : r.next = { r with packet := r.packet + 1 } := if_pos hdue
    rw [hnext]
    exact ⟨if_neg hdue, rfl, h.packet_succ hdue⟩

/-- Later nonces of the same epoch are not below the first one. -/
theorem uses_spec (h : r.Within) (epoch : Nat) (ps : List Plain) :
    ∀ u ∈ r.uses epoch ps,
      u.rekeyNonce = ⟨0xFFFFFFFF, u.nonce.second⟩ ∧ epoch ≤ u.epoch
        ∧ (u.epoch = epoch → u.nonce.second = r.rekeys
            ∧ r.packet.toNat ≤ u.nonce.first.toNat) := by
  induction ps generalizing r epoch with
  | nil => exact fun u hu => nomatch hu
  | cons p ps ih =>
      intro u hu
      rcases List.mem_cons.mp hu with rfl | hu
      · exact ⟨rfl, Nat.le_refl _, fun _ => ⟨rfl, Nat.le_refl _⟩⟩
      · obtain ⟨hrekey, hle, hsame⟩ := ih h.next _ u hu
        rcases next_epoch h epoch with ⟨-, hepoch⟩ | ⟨hepoch, hrekeys, hpacket⟩
        · rw [hepoch] at hle
          exact ⟨hrekey, by omega, fun heq => absurd heq (by omega)⟩
        · rw [hepoch] at hle hsame
          refine ⟨hrekey, hle, fun heq => ?_⟩
          obtain ⟨hsecond, hfirst⟩ := hsame heq
          exact ⟨hsecond.trans hrekeys, by omega⟩

/-- The interval 0 apart, no message is sealed at a packet counter that has
reached it. -/
theorem uses_below (h : r.Within) (hinterval : r.interval ≠ 0) (epoch : Nat)
    (ps : List Plain) :
    ∀ u ∈ r.uses epoch ps, u.nonce.first.toNat < r.interval.toNat := by
  induction ps generalizing r epoch with
  | nil => exact fun u hu => nomatch hu
  | cons p ps ih =>
      intro u hu
      rcases List.mem_cons.mp hu with rfl | hu
      · exact h.resolve_left hinterval
      · rw [← next_interval] at hinterval ⊢
        exact ih h.next hinterval _ u hu

/-- Within an epoch the nonces differ in their packet counters. -/
theorem uses_distinct (h : r.Within) (epoch : Nat) (ps : List Plain) :
    (r.uses epoch ps).Pairwise fun u v =>
      u.epoch = v.epoch → u.nonce ≠ v.nonce := by
  induction ps generalizing r epoch with
  | nil => exact List.Pairwise.nil
  | cons p ps ih =>
      refine List.Pairwise.cons ?_ (ih h.next _)
      intro v hv hepoch heq
      obtain ⟨-, hle, hsame⟩ := uses_spec h.next _ ps v hv
      rcases next_epoch h epoch with ⟨-, hnext⟩ | ⟨hnext, -, hpacket⟩
      · rw [hnext, ← hepoch] at hle
        exact absurd hle (Nat.not_succ_le_self epoch)
      · rw [hnext] at hsame
        obtain ⟨-, hfirst⟩ := hsame hepoch.symm
        have hpackets : r.packet = v.nonce.first := congrArg Nonce96.first heq
        rw [hpacket, ← hpackets] at hfirst
        exact absurd hfirst (Nat.not_succ_le_self _)

/-- The nonces of an epoch share their rekey counter. -/
theorem uses_second (h : r.Within) (epoch : Nat) (ps : List Plain) :
    ∀ u ∈ r.uses epoch ps, ∀ v ∈ r.uses epoch ps, u.epoch = v.epoch →
      u.nonce.second = v.nonce.second := by
  induction ps generalizing r epoch with
  | nil => exact fun u hu => nomatch hu
  | cons p ps ih =>
      intro u hu v hv hepoch
      have hspec := uses_spec h epoch (p :: ps)
      rcases List.mem_cons.mp hu with rfl | hu'
      · exact ((hspec v hv).2.2 hepoch.symm).1.symm
      · rcases List.mem_cons.mp hv with rfl | hv'
        · exact ((hspec u hu).2.2 hepoch).1
        · exact ih h.next _ u hu' v hv' hepoch

end Ratchet

-- ==================================================================== places

/-- Where a text meets the first bytes of the rekey nonce. -/
theorem place_eq_iff {nonce : Nonce96} {i j : Nat} (hj : j < 32) :
    place nonce i = place ⟨0xFFFFFFFF, nonce.second⟩ j
      ↔ i % 64 = j ∧ (i / 64) % 2 ^ 32 = 0
        ∧ (nonce.first.toNat + i / 64 / 2 ^ 32) % 2 ^ 32 = 2 ^ 32 - 1 := by
  have hblock : j / 64 = 0 := by omega
  have hoffset : j % 64 = j := by omega
  have hcounter : ChaCha.counterAt 1 (i / 64) = ChaCha.counterAt 1 0
      ↔ (i / 64) % 2 ^ 32 = 0 := by
    rw [← UInt32.toNat_inj]
    show (UInt32.ofNat (1 + i / 64)).toNat = 1 ↔ _
    rw [UInt32.toNat_ofNat']
    omega
  have hnonce : ChaCha.nonceAt nonce.words 1 (i / 64)
        = ChaCha.nonceAt (Nonce96.words ⟨0xFFFFFFFF, nonce.second⟩) 1 0
      ↔ (nonce.first.toNat + (1 + i / 64) / 2 ^ 32) % 2 ^ 32 = 2 ^ 32 - 1 := by
    have hsum : (nonce.first + UInt32.ofNat ((1 + i / 64) / 2 ^ 32)).toNat
        = (nonce.first.toNat + (1 + i / 64) / 2 ^ 32) % 2 ^ 32 := by
      rw [UInt32.toNat_add, UInt32.toNat_ofNat', Nat.add_mod_mod]
    have hfirst : nonce.first + UInt32.ofNat ((1 + i / 64) / 2 ^ 32)
          = 0xFFFFFFFF
        ↔ (nonce.first.toNat + (1 + i / 64) / 2 ^ 32) % 2 ^ 32 = 2 ^ 32 - 1 := by
      rw [← UInt32.toNat_inj, hsum]
      rfl
    rw [← hfirst]
    constructor
    · exact fun heq => congrArg ChaCha.Nonce.n0 heq
    · intro heq
      exact congrArg (ChaCha.Nonce.mk · _ _) heq
  unfold place
  rw [hblock, hoffset, Prod.mk.injEq, Prod.mk.injEq, hcounter, hnonce]
  omega

/-- A text meets the key of its rekey nonce where it is longer than the
nonces left above its own allow. -/
theorem meets_iff {nonce : Nonce96} {n : Nat} :
    (∃ i < n, ∃ j < 32, place nonce i = place ⟨0xFFFFFFFF, nonce.second⟩ j)
      ↔ (0xFFFFFFFF - nonce.first.toNat) * 2 ^ 38 < n := by
  have hfirst := nonce.first.toNat_lt
  constructor
  · intro ⟨i, hi, j, hj, heq⟩
    rw [place_eq_iff hj] at heq
    omega
  · intro hn
    refine ⟨(0xFFFFFFFF - nonce.first.toNat) * 2 ^ 38, hn, 0, by norm_num, ?_⟩
    rw [place_eq_iff (by norm_num)]
    omega

/-- Exactly when the log is safe. -/
theorem nonceSafe_iff_apart {r : Ratchet} (h : r.Within) (epoch : Nat)
    (ps : List Plain) :
    NonceSafe (r.uses epoch ps) ↔ ∀ u ∈ r.uses epoch ps, u.Apart := by
  have hspec := Ratchet.uses_spec h epoch ps
  constructor
  · intro hsafe u hu
    have hrekey := (hspec u hu).1
    have hne := hsafe.rekey u hu u hu rfl
    have hbytes := hsafe.bytes u hu u hu rfl
    rw [hrekey] at hne hbytes
    constructor
    · exact fun hfirst => hne (congrArg (Nonce96.mk · u.nonce.second) hfirst)
    · apply Nat.le_of_not_lt
      intro hlong
      obtain ⟨i, hi, j, hj, heq⟩ := meets_iff.mpr hlong
      exact hbytes i hi j hj heq
  · intro hapart
    refine ⟨Ratchet.uses_distinct h epoch ps, ?_, ?_⟩
    · intro u hu v hv _ heq
      rw [(hspec v hv).1] at heq
      exact (hapart u hu).1 (congrArg Nonce96.first heq)
    · intro u hu v hv hepoch i hi j hj heq
      have hsecond := Ratchet.uses_second h epoch ps u hu v hv hepoch
      rw [(hspec v hv).1, ← hsecond] at heq
      exact absurd (meets_iff.mp ⟨i, hi, j, hj, heq⟩)
        (Nat.not_lt_of_le (hapart u hu).2)

-- =============================================================== the results

theorem start_within (key : Bytes) (interval : UInt32) :
    (Ratchet.start key interval).Within := by
  by_cases hzero : interval = 0
  · exact .inl hzero
  · exact .inr (Ratchet.zero_lt_interval hzero)

/-- For every key, interval and run of `Encrypt` calls: the nonces are safe
exactly when every call has its packet counter below the maximum and a text
that ends before the rekey nonce. -/
theorem nonceSafe_iff {key : Bytes} (hkey : key.length = 32)
    (interval : UInt32) (ps : List Plain) :
    ∃ f us, new key interval = .ok f ∧ f.uses 0 ps = .ok us
      ∧ (NonceSafe us ↔ ∀ u ∈ us, u.Apart) := by
  obtain ⟨f, hnew, h⟩ := new_follows hkey interval
  exact ⟨f, _, hnew, uses_follows h 0 ps,
    nonceSafe_iff_apart (start_within key interval) 0 ps⟩

/-- A new object with the default interval. -/
theorem nonceSafe_iff_default :
    ∃ f us, new (List.replicate 32 7) 214 = .ok f
      ∧ f.uses 0 [⟨[1], [2], []⟩, ⟨[3], [], [4]⟩] = .ok us
      ∧ (NonceSafe us ↔ ∀ u ∈ us, u.Apart) :=
  nonceSafe_iff rfl 214 [⟨[1], [2], []⟩, ⟨[3], [], [4]⟩]

/-- With any other interval than 0 the packet counter stays below its
maximum: only the length of a text can then be unsafe. -/
theorem nonceSafe_iff_length {key : Bytes} (hkey : key.length = 32)
    {interval : UInt32} (hinterval : interval ≠ 0) (ps : List Plain) :
    ∃ f us, new key interval = .ok f ∧ f.uses 0 ps = .ok us
      ∧ (∀ u ∈ us, u.nonce.first ≠ 0xFFFFFFFF)
      ∧ (NonceSafe us ↔ ∀ u ∈ us,
        u.length ≤ (0xFFFFFFFF - u.nonce.first.toNat) * 2 ^ 38) := by
  obtain ⟨f, hnew, h⟩ := new_follows hkey interval
  have hwithin := start_within key interval
  have hmaximum : ∀ u ∈ (Ratchet.start key interval).uses 0 ps,
      u.nonce.first ≠ 0xFFFFFFFF := by
    intro u hu hfirst
    have hbelow : u.nonce.first.toNat < interval.toNat :=
      Ratchet.uses_below hwithin hinterval 0 ps u hu
    have hmaximum : u.nonce.first.toNat = 2 ^ 32 - 1 := by
      rw [hfirst]
      rfl
    have hlt := interval.toNat_lt
    omega
  refine ⟨f, _, hnew, uses_follows h 0 ps, hmaximum, ?_⟩
  rw [nonceSafe_iff_apart hwithin]
  exact forall₂_congr fun u hu => and_iff_right (hmaximum u hu)

/-- With the interval 0 the packet counter runs up to its maximum. -/
theorem uses_reaches_maximum {r : Ratchet} (hinterval : r.interval = 0)
    (epoch : Nat) (p : Plain) (n : Nat)
    (hn : r.packet.toNat + n = 2 ^ 32 - 1) :
    ∃ u ∈ r.uses epoch (List.replicate (n + 1) p),
      u.nonce.first = 0xFFFFFFFF := by
  induction n generalizing r epoch with
  | zero =>
      refine ⟨_, List.mem_cons_self, ?_⟩
      exact UInt32.toNat_inj.mp hn
  | succ n ih =>
      have hsucc : (r.packet + 1).toNat = r.packet.toNat + 1 := by
        have hsum : (r.packet + 1).toNat = (r.packet.toNat + 1) % 2 ^ 32 :=
          UInt32.toNat_add r.packet 1
        omega
      have hne : r.packet + 1 ≠ r.interval := by
        rw [hinterval]
        intro hzero
        rw [hzero] at hsucc
        exact Nat.succ_ne_zero _ hsucc.symm
      have hnext : r.next = { r with packet := r.packet + 1 } := if_pos hne
      obtain ⟨u, hu, hfirst⟩ := ih (r := r.next)
        (by rw [hnext]; exact hinterval) _ (by
          rw [hnext]
          show (r.packet + 1).toNat + n = 2 ^ 32 - 1
          omega)
      exact ⟨u, List.mem_cons_of_mem _ hu, hfirst⟩

/-- The interval 0 and 2^32 messages of one byte: the last of them has the
rekey nonce. -/
theorem interval_zero_meets :
    ∃ f us, new (List.replicate 32 7) 0 = .ok f
      ∧ f.uses 0 (List.replicate (2 ^ 32) ⟨[1], [], []⟩) = .ok us
      ∧ ¬NonceSafe us := by
  have hkey : (List.replicate 32 (7 : UInt8)).length = 32 :=
    List.length_replicate
  obtain ⟨f, hnew, h⟩ := new_follows hkey 0
  refine ⟨f, _, hnew, uses_follows h 0 _, ?_⟩
  rw [nonceSafe_iff_apart (start_within _ 0)]
  obtain ⟨u, hu, hfirst⟩ := uses_reaches_maximum
    (r := .start (List.replicate 32 7) 0) rfl 0 ⟨[1], [], []⟩ (2 ^ 32 - 1) rfl
  intro hapart
  exact (hapart u hu).1 hfirst

end FSChaCha20Poly1305

end Remc.Crypto
