/-
Under which keys a session encrypts.

`shared_key_` starts as 32 zero bytes, and a session encrypts with
whatever is there: `CreatePacket` refuses an empty key, and an array of
32 bytes is never empty. So application data goes out under a key that
`ComputeSharedKey` has set exactly if its closure runs after such a call
has succeeded (`appData_keyed_iff`); a `Write` before that goes out under
the zero key.
-/
import Remc.Net.Peer

namespace Remc.Net

open Crypto Runs

variable {sodium : Sodium}

/-- What a session does with a shared key: `ComputeSharedKey` sets it, or
`CreatePacket` encrypts a packet with these flags under it. -/
inductive KeyUse where
  | computed (key : Key)
  | sealed (flags : UInt32) (key : Key)

/-- `ComputeSharedKey` with some public key succeeds and leaves these
keys. -/
def Computes (sodium : Sodium) (keys keys' : KeysWrapper) : Prop :=
  ∃ other, keys.computeSharedKey sodium other = .ok (true, keys')

namespace Peer

open Classical in
/-- The uses of keys that an event makes. What a callback has done with
the keys of its session is seen from what it leaves. -/
noncomputable def keyUses (sodium : Sodium) (p : Peer) : Event → List KeyUse
  | .handler _ _ =>
      match p.posted with
      | [] => []
      | w :: _ =>
          if NoCrypto w.flags then []
          else [.sealed w.flags p.session.keys.sharedKey]
  | .task k _ =>
      match p.tasks[k]? with
      | some (.serverKey payload) =>
          match p.session.keys.computeSharedKey sodium payload with
          | .ok (true, keys) => [.computed keys.sharedKey]
          | _ => []
      | some (.clientCallback cb packet) =>
          match cb packet p.session.keys with
          | .ok keys =>
              if Computes sodium p.session.keys keys then
                [.computed keys.sharedKey]
              else []
          | .error _ => []
      | _ => []
  | _ => []

/-- Callbacks change the keys of their session only by calling
`ComputeSharedKey`. -/
def CallbacksCompute (sodium : Sodium) (p : Peer) (e : Event) : Prop :=
  ∀ k now cb packet keys, e = .task k now →
    p.tasks[k]? = some (.clientCallback cb packet) →
      cb packet p.session.keys = .ok keys →
        keys = p.session.keys ∨ Computes sodium p.session.keys keys

/-- Anything but a handshake is encrypted under a key that was computed
before. -/
def UnderComputedKey (before : List KeyUse) : KeyUse → Prop
  | .computed _ => True
  | .sealed flags key => flags ≠ Flags.handshake → .computed key ∈ before

/-- A closure that encrypts anything but a handshake runs after
`ComputeSharedKey` has succeeded. -/
def AfterComputing (s : Peer × List KeyUse) : Event → Prop
  | .handler _ _ =>
      ∀ w rest, s.1.posted = w :: rest → ¬NoCrypto w.flags →
        w.flags ≠ Flags.handshake → ∃ key, .computed key ∈ s.2
  | _ => True

theorem keyUses_length_le (sodium : Sodium) (p : Peer) (e : Event) :
    (p.keyUses sodium e).length ≤ 1 := by
  unfold keyUses
  split
  next =>
    split
    next => exact Nat.zero_le 1
    next => split <;> simp
  next =>
    split
    next => split <;> simp
    next =>
      split
      next => split <;> simp
      next => exact Nat.zero_le 1
    next => exact Nat.zero_le 1
  next => exact Nat.zero_le 1

/-- A closure that encrypts does so under the session's key. -/
theorem keyUses_handler {p : Peer} {w : PostedWrite} {rest : List PostedWrite}
    (hposted : p.posted = w :: rest) (hcrypto : ¬NoCrypto w.flags)
    (now : Int64) (drawn : UInt64) :
    p.keyUses sodium (.handler now drawn)
      = [.sealed w.flags p.session.keys.sharedKey] := by
  unfold keyUses
  dsimp only
  rw [hposted]
  exact if_neg hcrypto

/-- The key that `CreatePacket` encrypts with is the one in the log. -/
theorem mem_keyUses_sealed {p : Peer} {e : Event} {flags : UInt32} {key : Key}
    (h : KeyUse.sealed flags key ∈ p.keyUses sodium e) :
    ∃ now drawn w rest, e = .handler now drawn ∧ p.posted = w :: rest
      ∧ ¬NoCrypto w.flags ∧ flags = w.flags
      ∧ key = p.session.keys.sharedKey := by
  unfold keyUses at h
  split at h
  next now drawn =>
    split at h
    next => cases h
    next w rest hposted =>
      split at h
      next => cases h
      next hcrypto =>
        cases List.mem_singleton.mp h
        exact ⟨now, drawn, w, rest, rfl, hposted, hcrypto, rfl, rfl⟩
  next =>
    split at h
    next => split at h <;> simp at h
    next =>
      split at h
      next => split at h <;> simp at h
      next => cases h
    next => cases h
  next => cases h

/-- Only a pool task changes keys. -/
theorem keys_step {p q : Peer} {e : Event} (hp : p.Sound)
    (he : ∀ k now, e ≠ .task k now) (h : Step sodium p e q) :
    q.session.keys = p.session.keys := by
  cases e with
  | write w =>
      cases h
      rfl
  | handler now drawn =>
      obtain ⟨w, rest, messageQueue, -, -, rfl⟩ := handler_step hp h
      rfl
  | transfer i n =>
      cases h
      rfl
  | written i ec now =>
      obtain ⟨w, -, -, rfl⟩ := written_step hp h
      rfl
  | close =>
      obtain ⟨isOpen, messageQueue, -, rfl⟩ := close_step hp h
      rfl
  | read chunk now =>
      cases h
      rfl
  | task k now => exact absurd rfl (he k now)

/-- A failed `ComputeSharedKey` leaves the keys alone. -/
theorem computeSharedKey_false {keys keys' : KeysWrapper} {other : Bytes}
    (h : keys.computeSharedKey sodium other = .ok (false, keys')) :
    keys' = keys := by
  unfold KeysWrapper.computeSharedKey at h
  split at h
  next =>
    split at h
    next =>
      cases h
      rfl
    next => cases h
  next => cases h

/-- A pool task leaves the key alone, or logs the key that it leaves. -/
theorem keyUses_task {p q : Peer} {k : Nat} {now : Int64}
    (hcb : CallbacksCompute sodium p (.task k now))
    (h : Step sodium p (.task k now) q) :
    q.session.keys = p.session.keys ∧ p.keyUses sodium (.task k now) = []
      ∨ p.keyUses sodium (.task k now) = [.computed q.session.keys.sharedKey]
    := by
  cases h with
  | @task _ _ τ r hτ hrun =>
      unfold keyUses
      dsimp only
      rw [hτ]
      cases τ with
      | serverRead buffer =>
          obtain ⟨result, -, hr⟩ := bind_eq_ok hrun
          cases hr
          exact Or.inl ⟨(Role.afterRead_frame _ result .server).1, rfl⟩
      | serverAnswer packet =>
          cases hrun
          refine Or.inl ⟨?_, rfl⟩
          unfold SessionServer.callbackAnswer
          split
          next => rfl
          next => split <;> rfl
      | serverKey payload =>
          obtain ⟨⟨computed, keys⟩, hcompute, hr⟩ := bind_eq_ok hrun
          cases hr
          dsimp only
          rw [hcompute]
          cases computed with
          | false => exact Or.inl ⟨computeSharedKey_false hcompute, rfl⟩
          | true => exact Or.inr rfl
      | clientRead buffer =>
          obtain ⟨result, -, hr⟩ := bind_eq_ok hrun
          cases hr
          exact Or.inl ⟨(Role.afterRead_frame _ result .client).1, rfl⟩
      | clientCallback cb packet =>
          obtain ⟨keys, hkeys, hr⟩ := bind_eq_ok hrun
          cases hr
          dsimp only
          rw [hkeys]
          dsimp only
          split
          next => exact Or.inr rfl
          next hnot =>
            rcases hcb k now cb packet keys rfl hτ hkeys with hsame | hcomputes
            · exact Or.inl ⟨hsame, rfl⟩
            · exact absurd hcomputes hnot
      | done =>
          cases hrun
          exact Or.inl ⟨rfl, rfl⟩

-- ======================================================= one step, and a run

/-- Where a key has been computed, the session's key is one of those. -/
def LastComputed (s : Peer × List KeyUse) : Prop :=
  ∀ key, .computed key ∈ s.2 → .computed s.1.session.keys.sharedKey ∈ s.2

theorem lastComputed_step {s t : Peer × List KeyUse} {e : Event}
    (hs : s.1.Sound) (hlast : LastComputed s)
    (h : Logged (When (Step sodium) (CallbacksCompute sodium))
      (keyUses sodium) s e t) : LastComputed t := by
  obtain ⟨⟨hstep, hcb⟩, hlog⟩ := h
  unfold LastComputed
  rw [hlog]
  intro key hkey
  have hkept : t.1.session.keys = s.1.session.keys →
      (∀ key', .computed key' ∉ s.1.keyUses sodium e) →
      .computed t.1.session.keys.sharedKey ∈ s.2 ++ s.1.keyUses sodium e := by
    intro hkeys hnone
    rcases List.mem_append.mp hkey with hold | hnew
    · rw [hkeys]
      exact List.mem_append_left _ (hlast key hold)
    · exact absurd hnew (hnone key)
  by_cases htask : ∃ k now, e = .task k now
  · obtain ⟨k, now, rfl⟩ := htask
    rcases keyUses_task hcb hstep with ⟨hkeys, hnone⟩ | hnew
    · refine hkept hkeys fun key' hkey' => ?_
      rw [hnone] at hkey'
      cases hkey'
    · rw [hnew]
      exact List.mem_append_right _ (List.mem_singleton_self _)
  · have he : ∀ k now, e ≠ .task k now := fun k now he => htask ⟨k, now, he⟩
    refine hkept (keys_step hs he hstep) fun key' hkey' => ?_
    unfold keyUses at hkey'
    split at hkey'
    next =>
      split at hkey'
      next => cases hkey'
      next => split at hkey' <;> simp at hkey'
    next => exact absurd rfl (he _ _)
    next => cases hkey'

/-- In every run of either session class, whose key is zero at first,
application data is encrypted only under keys that `ComputeSharedKey` has
set exactly if every closure that encrypts application data runs after
such a call has succeeded. -/
theorem appData_keyed_iff (sodium : Sodium) (role : Role) (privateKey : Key)
    (now : Int64) (es : List Event) (q : Peer) (log : List KeyUse) :
    (Run (Logged (When (Step sodium) (CallbacksCompute sodium))
          (keyUses sodium)) (start role { privateKey } now, []) es (q, log)
        ∧ EachAfter UnderComputedKey log)
      ↔ Run (When (Logged (When (Step sodium) (CallbacksCompute sodium))
          (keyUses sodium)) AfterComputing)
        (start role { privateKey } now, []) es (q, log) := by
  have hpres : ∀ s e t, (Sound s.1 ∧ LastComputed s) →
      Logged (When (Step sodium) (CallbacksCompute sodium)) (keyUses sodium)
        s e t → Sound t.1 ∧ LastComputed t := by
    rintro s e t ⟨hs, hlast⟩ h
    exact ⟨hs.step h.1.1, lastComputed_step hs hlast h⟩
  have hiff : ∀ s e t, (Sound s.1 ∧ LastComputed s) →
      Logged (When (Step sodium) (CallbacksCompute sodium)) (keyUses sodium)
        s e t →
      ((∀ c ∈ s.1.keyUses sodium e, UnderComputedKey s.2 c)
        ↔ AfterComputing s e) := by
    rintro s e t ⟨-, hlast⟩ -
    constructor
    · intro hunder
      cases e with
      | handler now drawn =>
          intro w rest hposted hcrypto hflags
          have hentry := hunder (.sealed w.flags s.1.session.keys.sharedKey) (by
            rw [keyUses_handler hposted hcrypto]
            exact List.mem_singleton_self _)
          exact ⟨_, hentry hflags⟩
      | _ => trivial
    · intro hafter c hc
      cases c with
      | computed key => trivial
      | sealed flags key =>
          obtain ⟨now, drawn, w, rest, rfl, hposted, hcrypto, rfl, rfl⟩ :=
            mem_keyUses_sealed hc
          intro hflags
          obtain ⟨key, hkey⟩ := hafter w rest hposted hcrypto hflags
          exact hlast key hkey
  rw [Run.logged_eachAfter (keyUses_length_le sodium), Run.when_congr hpres hiff
    ⟨start_sound role _ now, fun key hkey => by cases hkey⟩]
  exact and_iff_right (eachAfter_nil _)

/-- A client that writes before it has shaken hands: the text goes out
under the zero key. -/
theorem text_before_handshake :
    ¬∀ (sodium : Sodium) (role : Role) (privateKey : Key) (now : Int64)
        (es : List Event) (q : Peer) (log : List KeyUse),
        Run (Logged (When (Step sodium) (CallbacksCompute sodium))
          (keyUses sodium)) (start role { privateKey } now, []) es (q, log) →
        EachAfter UnderComputedKey log := by
  intro hall
  let sodium : Sodium := ⟨id, fun _ _ => none, id⟩
  let p : Peer := start .client { privateKey := Key.zero } 0
  let w : PostedWrite := .client Flags.noFlags [104, 105] none
  let p₁ : Peer := { p with posted := [w] }
  have hcb : ∀ p e, (∀ k now, e ≠ .task k now) → CallbacksCompute sodium p e :=
    fun p e he k now _ _ _ hk => absurd hk (he k now)
  have h₁ : Step sodium p (.write w) p₁ := write_step rfl (by decide)
  obtain ⟨q, h₂, -⟩ := handler_enabled sodium
    ((start_sound .client _ 0).step h₁) rfl 0 0
  have hsealed : p₁.keyUses sodium (.handler 0 0)
      = [.sealed Flags.noFlags Key.zero] :=
    keyUses_handler (w := w) rfl (by decide) 0 0
  have hrun : Run (Logged (When (Step sodium) (CallbacksCompute sodium))
      (keyUses sodium)) (p, []) [.write w, .handler 0 0]
      (q, [.sealed Flags.noFlags Key.zero]) :=
    .cons (⟨⟨h₁, hcb _ _ (fun _ _ he => by cases he)⟩, rfl⟩ :
        Logged _ _ _ _ (p₁, []))
      (.cons ⟨⟨h₂, hcb _ _ (fun _ _ he => by cases he)⟩, hsealed.symm⟩
        (.nil _))
  have hafter := hall sodium .client Key.zero 0 _ q _ hrun
  have hcomputed := hafter [] _ [] rfl (by decide)
  cases hcomputed

end Peer

end Remc.Net
