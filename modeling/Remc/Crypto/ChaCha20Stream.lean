/-
The stream cipher through any sequence of calls.

# The position

What a `ChaCha20` object does next is decided by its position alone: the
key, the nonce and the counter of the last `SetKey` or `Seek`, and how many
bytes were used since (`Position`). A call outputs bytes of the RFC 8439
stream there and moves on by as many; `Seek` and `SetKey` go to the start of
a new stream. `calls_spec` is the refinement: from an object that stands at
a position, every sequence of calls outputs what the position says and ends
at the position it says. The buffered block is in the invariant `Stands`
only: how the calls cut the stream is not visible in what they output.
-/
import Remc.Crypto.ChaCha20Block

namespace Remc.Crypto

open Keystream

namespace ChaCha20

-- ==================================================================== calls

/-- `SetKey`. -/
def setKey (c : ChaCha20) (key : Bytes) : Checked ChaCha20 := do
  let aligned ← ChaCha20Aligned.setKey key
  return { aligned, bufleft := 0, buffer := List.replicate c.buffer.length 0 }

/-- A call of a member function. `Crypt` gets an output of its input's
size. -/
inductive Call where
  | setKey (key : Bytes)
  | seek (nonce : Nonce96) (blockCounter : UInt32)
  | keystream (size : Nat)
  | crypt (input : Bytes)
deriving DecidableEq, Repr

/-- The precondition of a call. -/
def Call.Valid : Call → Prop
  | .setKey key => key.length = 32
  | _ => True

/-- What a call outputs and where it leaves the object. -/
def call (c : ChaCha20) : Call → Checked (Bytes × ChaCha20)
  | .setKey key => do
      let c ← c.setKey key
      return ([], c)
  | .seek nonce blockCounter => .ok ([], c.seek nonce blockCounter)
  | .keystream size => c.keystream size
  | .crypt input => c.crypt input input.length

/-- A sequence of calls and their outputs. -/
def calls (c : ChaCha20) : List Call → Checked (List Bytes × ChaCha20)
  | [] => .ok ([], c)
  | k :: ks => do
      let (out, c) ← c.call k
      let (outs, c) ← c.calls ks
      return (out :: outs, c)

-- ================================================================= position

/-- A byte of the stream of a key, a nonce and a starting counter. -/
structure Position where
  key : Bytes
  nonce : Nonce96
  counter : UInt32
  offset : Nat
deriving DecidableEq, Repr

namespace Position

/-- The next `n` bytes of the stream. -/
def next (p : Position) (n : Nat) : Bytes :=
  ChaCha.keystream p.key p.nonce.words p.counter p.offset n

def skip (p : Position) (n : Nat) : Position :=
  { p with offset := p.offset + n }

/-- The start of the stream of a new key. -/
def start (key : Bytes) : Position := ⟨key, ⟨0, 0⟩, 0, 0⟩

/-- What a call does, in terms of the stream. -/
def call (p : Position) : Call → Bytes × Position
  | .setKey key => ([], start key)
  | .seek nonce counter => ([], { p with nonce, counter, offset := 0 })
  | .keystream size => (p.next size, p.skip size)
  | .crypt input => (xor input (p.next input.length), p.skip input.length)

def calls (p : Position) : List Call → List Bytes × Position
  | [] => ([], p)
  | k :: ks => ((p.call k).1 :: ((p.call k).2.calls ks).1, ((p.call k).2.calls ks).2)

end Position

/-- The object is at the position. -/
def Stands (c : ChaCha20) (p : Position) : Prop :=
  At c ((ChaCha20Aligned.keyed p.key).seek p.nonce p.counter) p.offset

-- =============================================================== refinement

theorem keyed_eq_seek (key : Bytes) :
    (ChaCha20Aligned.keyed key).seek ⟨0, 0⟩ 0 = ChaCha20Aligned.keyed key := rfl

theorem setKey_eq (c : ChaCha20) {key : Bytes} (hkey : key.length = 32) :
    c.setKey key = .ok
      { aligned := ChaCha20Aligned.keyed key
        buffer := List.replicate c.buffer.length 0
        bufleft := 0 } := by
  unfold setKey ChaCha20Aligned.setKey
  rw [require_of hkey]
  rfl

/-- A keyed object without a buffered block is at the start. -/
theorem stands_start {key buffer : Bytes} (h : buffer.length = 64) :
    Stands ⟨ChaCha20Aligned.keyed key, buffer, 0⟩ (.start key) := by
  refine ⟨by norm_num, h, ⟨0, (keyed_eq_seek key).symm, rfl⟩, ?_⟩
  show buffer.drop 64 = []
  rw [← h, List.drop_length]

/-- A seek goes to the start of a stream of the same key. -/
theorem Stands.seek {c : ChaCha20} {p : Position} (h : Stands c p)
    (nonce : Nonce96) (ctr : UInt32) :
    Stands (c.seek nonce ctr) ⟨p.key, nonce, ctr, 0⟩ := by
  have hat := at_seek h.buffer_length nonce ctr
  obtain ⟨n, hn, -⟩ := h.aligned
  rw [hn, ChaCha20Aligned.seek_iterate_next, ChaCha20Aligned.seek_seek] at hat
  exact hat

theorem new_eq {key : Bytes} (hkey : key.length = 32) :
    new key = .ok
      { aligned := ChaCha20Aligned.keyed key
        buffer := List.replicate 64 0
        bufleft := 0 } := by
  unfold new ChaCha20Aligned.setKey
  rw [require_of hkey]
  rfl

/-- The buffered bytes are the next bytes of the stream. -/
theorem Stands.buffered {c : ChaCha20} {p : Position} (h : Stands c p) :
    c.bufleft < 64 ∧ c.buffer.length = 64
      ∧ c.buffer.drop (64 - c.bufleft) = p.next c.bufleft :=
  ⟨h.bufleft_lt, h.buffer_length,
    (At.unused h).trans (ChaCha20Aligned.segment_eq _ _ _ _ _)⟩

/-- One call does what the position says. -/
theorem call_spec {c : ChaCha20} {p : Position} (h : Stands c p) {k : Call}
    (hk : k.Valid) :
    ∃ c', c.call k = .ok ((p.call k).1, c') ∧ Stands c' (p.call k).2 := by
  cases k with
  | setKey key =>
      have hlen : (List.replicate c.buffer.length (0 : UInt8)).length = 64 := by
        rw [List.length_replicate, h.buffer_length]
      refine ⟨_, ?_, stands_start hlen⟩
      rw [call, setKey_eq c hk]
      rfl
  | seek nonce counter =>
      exact ⟨_, rfl, h.seek nonce counter⟩
  | keystream size =>
      obtain ⟨c', hks, hat⟩ := keystream_spec h size
      rw [ChaCha20Aligned.segment_eq] at hks
      exact ⟨c', hks, hat⟩
  | crypt input =>
      obtain ⟨c', hcrypt, hat⟩ := crypt_spec h input
      rw [ChaCha20Aligned.segment_eq] at hcrypt
      exact ⟨c', hcrypt, hat⟩

/-- Every sequence of calls does what the position says. -/
theorem calls_spec {c : ChaCha20} {p : Position} (h : Stands c p)
    {ks : List Call} (hks : ∀ k ∈ ks, k.Valid) :
    ∃ c', c.calls ks = .ok ((p.calls ks).1, c') ∧ Stands c' (p.calls ks).2 := by
  induction ks generalizing c p with
  | nil => exact ⟨c, rfl, h⟩
  | cons k ks ih =>
      obtain ⟨c₁, hcall, h₁⟩ := call_spec h (hks k List.mem_cons_self)
      obtain ⟨c', hcalls, h'⟩ :=
        ih h₁ fun k hk => hks k (List.mem_cons_of_mem _ hk)
      refine ⟨c', ?_, h'⟩
      simp only [calls, hcall, ok_bind, hcalls]
      rfl

-- ============================================================== the outputs

/-- A call that uses the stream. -/
def Call.Uses : Call → Prop
  | .keystream _ => True
  | .crypt _ => True
  | _ => False

/-- The text it XORs: `Keystream` is `Crypt` of zeros. -/
def Call.text : Call → Bytes
  | .keystream size => List.replicate size 0
  | .crypt input => input
  | _ => []

theorem Call.Uses.valid {k : Call} (h : k.Uses) : k.Valid := by
  cases k with
  | setKey => exact h.elim
  | seek => trivial
  | keystream => trivial
  | crypt => trivial

theorem Position.next_length (p : Position) (n : Nat) :
    (p.next n).length = n := ChaCha.keystream_length _ _ _ _ _

theorem Position.next_append (p : Position) (m n : Nat) :
    p.next (m + n) = p.next m ++ (p.skip m).next n :=
  ChaCha.keystream_append _ _ _ _ _ _

theorem Position.call_uses (p : Position) {k : Call} (h : k.Uses) :
    p.call k = (xor k.text (p.next k.text.length), p.skip k.text.length) := by
  cases k with
  | setKey => exact h.elim
  | seek => exact h.elim
  | crypt input => rfl
  | keystream size =>
      have hzeros := xor_zeros (p.next_length size)
      simp only [Position.call, Call.text, List.length_replicate, hzeros]

/-- The outputs of any calls that use the stream, one after the other, are
one piece of it XORed with their texts. -/
theorem Position.calls_flatten (p : Position) {ks : List Call}
    (h : ∀ k ∈ ks, k.Uses) :
    (p.calls ks).1.flatten
      = xor (ks.flatMap Call.text) (p.next (ks.flatMap Call.text).length) := by
  induction ks generalizing p with
  | nil => rfl
  | cons k ks ih =>
      have hk := p.call_uses (h k List.mem_cons_self)
      have hks := ih (p.call k).2 fun k hk => h k (List.mem_cons_of_mem _ hk)
      have hlen : k.text.length = (p.next k.text.length).length :=
        (p.next_length _).symm
      rw [Position.calls, List.flatten_cons, hks, hk, List.flatMap_cons,
        List.length_append, p.next_append, xor_append hlen]

/-- From `c` on, calls that use the stream output the stream of a key, a
nonce and a starting counter, however they cut it. -/
def Streams (c : ChaCha20) (key : Bytes) (nonce : Nonce96) (ctr : UInt32) :
    Prop :=
  ∀ ks : List Call, (∀ k ∈ ks, k.Uses) → ∃ outs c', c.calls ks = .ok (outs, c')
    ∧ outs = (Position.calls ⟨key, nonce, ctr, 0⟩ ks).1
    ∧ outs.flatten = xor (ks.flatMap Call.text)
        (ChaCha.keystream key nonce.words ctr 0 (ks.flatMap Call.text).length)

theorem Stands.streams {c : ChaCha20} {key : Bytes} {nonce : Nonce96}
    {ctr : UInt32} (h : Stands c ⟨key, nonce, ctr, 0⟩) :
    Streams c key nonce ctr := by
  intro ks hks
  obtain ⟨c', hcalls, -⟩ := calls_spec h fun k hk => (hks k hk).valid
  exact ⟨_, c', hcalls, rfl, Position.calls_flatten _ hks⟩

theorem Position.calls_uses_key (p : Position) {ks : List Call}
    (h : ∀ k ∈ ks, k.Uses) : (p.calls ks).2.key = p.key := by
  induction ks generalizing p with
  | nil => rfl
  | cons k ks ih =>
      have hk := p.call_uses (h k List.mem_cons_self)
      refine (ih (p.call k).2 fun k hk => h k (List.mem_cons_of_mem _ hk)).trans ?_
      rw [hk]
      rfl

theorem flatMap_text_crypt (ms : List Bytes) :
    (ms.map Call.crypt).flatMap Call.text = ms.flatten := by
  rw [List.flatMap_map]
  exact List.flatMap_id

/-- Seeking to the same place again, any chunked `Crypt` of what any chunked
`Crypt` put out restores the message. -/
theorem Stands.restores {c : ChaCha20} {p : Position} (h : Stands c p)
    (nonce : Nonce96) (ctr : UInt32) (ms : List Bytes) :
    ∃ outs c₁, (c.seek nonce ctr).calls (ms.map .crypt) = .ok (outs, c₁)
      ∧ ∀ cs : List Bytes, cs.flatten = outs.flatten → ∃ outs' c₂,
        (c₁.seek nonce ctr).calls (cs.map .crypt) = .ok (outs', c₂)
          ∧ outs'.flatten = ms.flatten := by
  have huses : ∀ (ms : List Bytes), ∀ k ∈ ms.map Call.crypt, k.Uses := by
    intro ms k hk
    obtain ⟨m, -, rfl⟩ := List.mem_map.mp hk
    trivial
  obtain ⟨c₁, hcalls, h₁⟩ := calls_spec (h.seek nonce ctr)
    fun k hk => (huses ms k hk).valid
  have hout := Position.calls_flatten ⟨p.key, nonce, ctr, 0⟩ (huses ms)
  rw [flatMap_text_crypt] at hout
  refine ⟨_, c₁, hcalls, ?_⟩
  intro cs hcs
  have hseek := h₁.seek nonce ctr
  rw [Position.calls_uses_key _ (huses ms)] at hseek
  obtain ⟨outs', c₂, hcalls', -, hout'⟩ := hseek.streams _ (huses cs)
  refine ⟨outs', c₂, hcalls', ?_⟩
  have hlen := Position.next_length ⟨p.key, nonce, ctr, 0⟩ ms.flatten.length
  rw [flatMap_text_crypt, hcs, hout, xor_length hlen] at hout'
  exact hout'.trans (xor_xor hlen)

-- ================================================================ the result

/-- Whatever calls were made since an object was built: the end of the
buffer holds the next bytes of the stream, `Seek` and `SetKey` discard them
and start a stream that later calls may cut as they like, and two such
passes from the same place restore the message. -/
theorem position_exact {key : Bytes} (hkey : key.length = 32)
    (before : List Call) (hbefore : ∀ k ∈ before, k.Valid) :
    ∃ c₀ outs c p, new key = .ok c₀ ∧ Streams c₀ key ⟨0, 0⟩ 0
      ∧ c₀.calls before = .ok (outs, c)
      ∧ (outs, p) = (Position.start key).calls before
      ∧ c.bufleft < 64
      ∧ c.buffer.drop (c.buffer.length - c.bufleft) = p.next c.bufleft
      ∧ (∀ nonce ctr, (c.seek nonce ctr).bufleft = 0
          ∧ Streams (c.seek nonce ctr) p.key nonce ctr)
      ∧ (∀ key' : Bytes, key'.length = 32 → ∃ c', c.setKey key' = .ok c'
          ∧ c'.bufleft = 0 ∧ Streams c' key' ⟨0, 0⟩ 0)
      ∧ ∀ nonce ctr (ms : List Bytes), ∃ outs c₁,
          (c.seek nonce ctr).calls (ms.map .crypt) = .ok (outs, c₁)
            ∧ ∀ cs : List Bytes, cs.flatten = outs.flatten → ∃ outs' c₂,
              (c₁.seek nonce ctr).calls (cs.map .crypt) = .ok (outs', c₂)
                ∧ outs'.flatten = ms.flatten := by
  have hstart : Stands ⟨ChaCha20Aligned.keyed key, List.replicate 64 0, 0⟩
      (.start key) := stands_start List.length_replicate
  obtain ⟨c, hcalls, h⟩ := calls_spec hstart hbefore
  obtain ⟨hleft, hlen, hbuffered⟩ := h.buffered
  refine ⟨_, _, c, _, new_eq hkey, hstart.streams, hcalls, rfl, hleft, ?_, ?_,
    ?_, h.restores⟩
  · rw [hlen]
    exact hbuffered
  · intro nonce ctr
    exact ⟨rfl, (h.seek nonce ctr).streams⟩
  · intro key' hkey'
    have hbuffer : (List.replicate c.buffer.length (0 : UInt8)).length = 64 := by
      rw [List.length_replicate, hlen]
    exact ⟨_, c.setKey_eq hkey', rfl, (stands_start hbuffer).streams⟩

/-- Three calls on a new object. -/
theorem position_exact_three :
    ∃ c₀ outs c, new (List.replicate 32 7) = .ok c₀
      ∧ c₀.calls [.keystream 3, .crypt [1, 2], .keystream 0] = .ok (outs, c)
      ∧ c.bufleft < 64 := by
  have hkey : (List.replicate 32 (7 : UInt8)).length = 32 :=
    List.length_replicate
  obtain ⟨c₀, outs, c, p, hnew, -, hcalls, -, hleft, -⟩ := position_exact hkey
    [.keystream 3, .crypt [1, 2], .keystream 0] (by simp [Call.Valid])
  exact ⟨c₀, outs, c, hnew, hcalls, hleft⟩

end ChaCha20

end Remc.Crypto
