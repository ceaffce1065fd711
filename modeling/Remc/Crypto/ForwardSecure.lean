/-
`FSChaCha20Poly1305`: the AEAD with a nonce per message and a new key every
`m_rekey_interval` messages.

# The ratchet

Which key and nonce a message is sealed with depends on the first key, the
interval and the number of messages before it, and on nothing else:
`Ratchet.next` says how they move on. An object `Follows` a ratchet, and
`Encrypt` and `Decrypt` both move it on by one, `Decrypt` on failure as on
success (`encrypt_follows`, `decrypt_follows`). Two peers that follow one
ratchet so stay in lockstep over every sequence of messages, through rekeys
and through ciphertexts that were replaced on the way (`lockstep`).
-/
import Remc.Crypto.AeadCalls

namespace Remc.Crypto

/-- `FSChaCha20Poly1305`. -/
structure FSChaCha20Poly1305 where
  aead : Aead
  rekeyInterval : UInt32
  packetCounter : UInt32
  rekeyCounter : UInt64
deriving DecidableEq, Repr

namespace FSChaCha20Poly1305

/-- `KEYLEN`. -/
abbrev keyLen : Nat := 32

/-- The constructor. -/
def new (key : Bytes) (rekeyInterval : UInt32) : Checked FSChaCha20Poly1305 := do
  let aead ← Aead.new key
  return { aead, rekeyInterval, packetCounter := 0, rekeyCounter := 0 }

/-- `NextPacket`. -/
def nextPacket (f : FSChaCha20Poly1305) : Checked FSChaCha20Poly1305 := do
  let packetCounter := f.packetCounter + 1
  if packetCounter ≠ f.rekeyInterval then return { f with packetCounter }
  -- a full block of keystream, of which the head is the next key
  let (oneBlock, aead) ←
    f.aead.keystream ⟨0xFFFFFFFF, f.rekeyCounter⟩ ChaCha20Aligned.blockLen
  let key ← spanFirst oneBlock keyLen
  let aead ← aead.setKey key
  return { f with aead, packetCounter := 0, rekeyCounter := f.rekeyCounter + 1 }

/-- The nonce of the next message. -/
def nonce (f : FSChaCha20Poly1305) : Nonce96 := ⟨f.packetCounter, f.rekeyCounter⟩

/-- `Encrypt` into a span of `cipherSize` bytes. -/
def encrypt (f : FSChaCha20Poly1305) (plain1 plain2 aad : Bytes)
    (cipherSize : Nat) : Checked (Bytes × FSChaCha20Poly1305) := do
  let (cipher, aead) ← f.aead.encrypt plain1 plain2 aad f.nonce cipherSize
  let f ← { f with aead }.nextPacket
  return (cipher, f)

/-- `Decrypt` into the spans `plain1` and `plain2`: what it returns, and
what the spans hold afterwards. -/
def decrypt (f : FSChaCha20Poly1305) (cipher aad plain1 plain2 : Bytes) :
    Checked (Bool × Bytes × Bytes × FSChaCha20Poly1305) := do
  let (ret, out1, out2, aead) ← f.aead.decrypt cipher aad f.nonce plain1 plain2
  let f ← { f with aead }.nextPacket
  return (ret, out1, out2, f)

-- ================================================================ the ratchet

/-- What decides the key and the nonce of the next message. -/
structure Ratchet where
  key : Bytes
  interval : UInt32
  packet : UInt32
  rekeys : UInt64
deriving DecidableEq, Repr

namespace Ratchet

def nonce (r : Ratchet) : Nonce96 := ⟨r.packet, r.rekeys⟩

/-- The nonce that generates the next key. -/
def rekeyNonce (r : Ratchet) : Nonce96 := ⟨0xFFFFFFFF, r.rekeys⟩

/-- The next key: the head of the stream behind the first block. -/
def nextKey (r : Ratchet) : Bytes :=
  ChaCha.keystream r.key r.rekeyNonce.words 1 0 32

/-- One message on. -/
def next (r : Ratchet) : Ratchet :=
  if r.packet + 1 ≠ r.interval then { r with packet := r.packet + 1 }
  else { r with key := r.nextKey, packet := 0, rekeys := r.rekeys + 1 }

/-- Before the first message. -/
def start (key : Bytes) (interval : UInt32) : Ratchet := ⟨key, interval, 0, 0⟩

end Ratchet

/-- The object is where the ratchet is. -/
structure Follows (f : FSChaCha20Poly1305) (r : Ratchet) : Prop where
  keyed : Keyed f.aead.chacha20 r.key
  interval : f.rekeyInterval = r.interval
  packet : f.packetCounter = r.packet
  rekeys : f.rekeyCounter = r.rekeys

variable {f g : FSChaCha20Poly1305} {r : Ratchet}

theorem Follows.nonce_eq (h : Follows f r) : f.nonce = r.nonce := by
  rw [nonce, h.packet, h.rekeys, Ratchet.nonce]

theorem Follows.with_aead (h : Follows f r) {a : Aead}
    (ha : Keyed a.chacha20 r.key) : Follows { f with aead := a } r :=
  ⟨ha, h.interval, h.packet, h.rekeys⟩

theorem new_follows {key : Bytes} (hkey : key.length = 32) (interval : UInt32) :
    ∃ f, new key interval = .ok f ∧ Follows f (.start key interval) := by
  obtain ⟨a, hnew, ha⟩ := Aead.new_eq_ok hkey
  refine ⟨⟨a, interval, 0, 0⟩, ?_, ha, rfl, rfl, rfl⟩
  rw [new, hnew]
  rfl

/-- `NextPacket` moves the object on by one message. -/
theorem nextPacket_follows (h : Follows f r) :
    ∃ f', f.nextPacket = .ok f' ∧ Follows f' r.next := by
  unfold nextPacket Ratchet.next
  by_cases hnext : r.packet + 1 ≠ r.interval
  · refine ⟨{ f with packetCounter := f.packetCounter + 1 }, ?_, ?_⟩
    · rw [if_pos (by rw [h.packet, h.interval]; exact hnext)]
      rfl
    · rw [if_pos hnext]
      exact ⟨h.keyed, h.interval, congrArg (· + 1) h.packet, h.rekeys⟩
  · obtain ⟨a₁, hks, h₁⟩ := Aead.keystream_spec h.keyed r.rekeyNonce 64
    have hlen : r.nextKey.length = 32 := ChaCha.keystream_length _ _ _ _ _
    have hhead : spanFirst (ChaCha.keystream r.key r.rekeyNonce.words 1 0 64) 32
        = .ok r.nextKey := by
      rw [spanFirst_of_le (by rw [ChaCha.keystream_length]; norm_num),
        ChaCha.keystream_take _ _ _ _ (by norm_num), Ratchet.nextKey]
    obtain ⟨a₂, hset, h₂⟩ := Aead.setKey_spec h₁ hlen
    refine ⟨{ f with
      aead := a₂, packetCounter := 0, rekeyCounter := f.rekeyCounter + 1 },
      ?_, ?_⟩
    · have hnonce : (⟨0xFFFFFFFF, f.rekeyCounter⟩ : Nonce96) = r.rekeyNonce := by
        rw [h.rekeys, Ratchet.rekeyNonce]
      rw [if_neg (by rw [h.packet, h.interval]; exact hnext)]
      simp only [hnonce, hks, ok_bind, hhead, hset]
      rfl
    · rw [if_neg hnext]
      exact ⟨h₂, h.interval, rfl, congrArg (· + 1) h.rekeys⟩

/-- `Encrypt` seals with the ratchet's key and nonce and moves on. -/
theorem encrypt_follows (h : Follows f r) (plain1 plain2 aad : Bytes) :
    ∃ f', f.encrypt plain1 plain2 aad (plain1.length + plain2.length + 16)
        = .ok (sealed r.key r.nonce aad (plain1 ++ plain2), f')
      ∧ Follows f' r.next := by
  obtain ⟨a, hencrypt, ha⟩ :=
    Aead.encrypt_spec h.keyed plain1 plain2 aad r.nonce
  obtain ⟨f', hnext, h'⟩ := nextPacket_follows (h.with_aead ha)
  refine ⟨f', ?_, h'⟩
  unfold encrypt
  simp only [h.nonce_eq, hencrypt, ok_bind, hnext]
  rfl

/-- `Decrypt` opens with the ratchet's key and nonce and moves on, whether
it opened or not. -/
theorem decrypt_follows (h : Follows f r) {cipher plain1 plain2 : Bytes}
    (aad : Bytes) (hsize : cipher.length = plain1.length + plain2.length + 16) :
    ∃ ret out1 out2 f', f.decrypt cipher aad plain1 plain2
        = .ok (ret, out1, out2, f')
      ∧ Follows f' r.next
      ∧ ∀ m, opened r.key r.nonce aad cipher = some m →
          ret = true ∧ out1 = m.take plain1.length
            ∧ out2 = m.drop plain1.length := by
  obtain ⟨a, hdecrypt, ha⟩ := Aead.decrypt_spec h.keyed aad r.nonce hsize
  obtain ⟨f', hnext, h'⟩ := nextPacket_follows (h.with_aead ha)
  cases hopened : opened r.key r.nonce aad cipher with
  | none =>
      rw [hopened] at hdecrypt
      refine ⟨false, plain1, plain2, f', ?_, h', fun m hm => nomatch hm⟩
      unfold decrypt
      simp only [h.nonce_eq, hdecrypt, ok_bind, hnext]
      rfl
  | some m =>
      rw [hopened] at hdecrypt
      refine ⟨true, m.take plain1.length, m.drop plain1.length, f', ?_, h', ?_⟩
      · unfold decrypt
        simp only [h.nonce_eq, hdecrypt, ok_bind, hnext]
        rfl
      · intro m' hm'
        cases hm'
        exact ⟨rfl, rfl, rfl⟩

-- ================================================================== lockstep

/-- A message: as the sender splits it, and the spans that the receiver has
for it. -/
structure Message where
  plain1 : Bytes
  plain2 : Bytes
  aad : Bytes
  out1 : Bytes
  out2 : Bytes
  sizes : out1.length + out2.length = plain1.length + plain2.length

/-- The sender encrypts the messages in order. -/
def sendAll (f : FSChaCha20Poly1305) :
    List Message → Checked (List Bytes × FSChaCha20Poly1305)
  | [] => .ok ([], f)
  | m :: ms => do
      let (cipher, f) ← f.encrypt m.plain1 m.plain2 m.aad
        (m.plain1.length + m.plain2.length + Aead.expansion)
      let (ciphers, f) ← f.sendAll ms
      return (cipher :: ciphers, f)

/-- The receiver decrypts what arrived for them in order. -/
def receiveAll (g : FSChaCha20Poly1305) :
    List (Message × Bytes) →
      Checked (List (Bool × Bytes × Bytes) × FSChaCha20Poly1305)
  | [] => .ok ([], g)
  | (m, cipher) :: rest => do
      let (ret, out1, out2, g) ← g.decrypt cipher m.aad m.out1 m.out2
      let (results, g) ← g.receiveAll rest
      return ((ret, out1, out2) :: results, g)

/-- What a sender at a ratchet puts out. -/
def Ratchet.seals : Ratchet → List Message → List Bytes
  | _, [] => []
  | r, m :: ms =>
      sealed r.key r.nonce m.aad (m.plain1 ++ m.plain2) :: r.next.seals ms

theorem Ratchet.seals_length (r : Ratchet) (ms : List Message) :
    (r.seals ms).length = ms.length := by
  induction ms generalizing r with
  | nil => rfl
  | cons m ms ih => rw [seals, List.length_cons, List.length_cons, ih]

theorem sendAll_follows (h : Follows f r) (ms : List Message) :
    ∃ f', f.sendAll ms = .ok (r.seals ms, f')
      ∧ Follows f' (Ratchet.next^[ms.length] r) := by
  induction ms generalizing f r with
  | nil => exact ⟨f, rfl, h⟩
  | cons m ms ih =>
      obtain ⟨f₁, hencrypt, h₁⟩ := encrypt_follows h m.plain1 m.plain2 m.aad
      obtain ⟨f', hsend, h'⟩ := ih h₁
      refine ⟨f', ?_, h'⟩
      rw [sendAll, hencrypt, ok_bind]
      simp only [hsend, ok_bind]
      rfl

/-- A result is the message that was sent, in the receiver's spans. -/
def Message.Received (m : Message) (result : Bool × Bytes × Bytes) : Prop :=
  result.1 = true ∧ result.2.1.length = m.out1.length
    ∧ result.2.2.length = m.out2.length
    ∧ result.2.1 ++ result.2.2 = m.plain1 ++ m.plain2

/-- Whatever arrives, of the right lengths: the receiver moves on with the
sender, and what arrives as it was sent is received. -/
theorem receiveAll_follows (h : Follows g r) (ms : List Message)
    {ds : List Bytes}
    (hds : List.Forall₂ (fun d c => d.length = c.length) ds (r.seals ms)) :
    ∃ results g', g.receiveAll (ms.zip ds) = .ok (results, g')
      ∧ results.length = ms.length
      ∧ Follows g' (Ratchet.next^[ms.length] r)
      ∧ ∀ (i : Nat) m c, ms[i]? = some m → (r.seals ms)[i]? = some c →
          ds[i]? = some c → ∃ result, results[i]? = some result
            ∧ m.Received result := by
  induction ms generalizing g r ds with
  | nil => exact ⟨[], g, rfl, rfl, h, fun i m c hm => nomatch hm⟩
  | cons m ms ih =>
      cases hds with
      | @cons d _ ds _ hd hds =>
      rw [sealed_length, List.length_append, ← m.sizes] at hd
      obtain ⟨ret, out1, out2, g₁, hdecrypt, h₁, hopen⟩ :=
        decrypt_follows h m.aad hd
      obtain ⟨results, g', hreceive, hlen, h', hresults⟩ := ih h₁ hds
      refine ⟨(ret, out1, out2) :: results, g', ?_, ?_, h', ?_⟩
      · rw [List.zip_cons_cons, receiveAll, hdecrypt, ok_bind]
        simp only [hreceive, ok_bind]
        rfl
      · rw [List.length_cons, List.length_cons, hlen]
      · intro i m' c hm hc hdi
        cases i with
        | succ i => exact hresults i m' c hm hc hdi
        | zero =>
            cases hm
            cases hc
            cases hdi
            obtain ⟨rfl, rfl, rfl⟩ :=
              hopen (m.plain1 ++ m.plain2) (opened_sealed _ _ _ _)
            exact ⟨_, rfl, rfl,
              Aead.opened_spans (m.sizes.trans List.length_append.symm)⟩

/-- Two peers with the same key and interval stay in lockstep: whatever
ciphertexts were replaced by others of their length, every one that was not
is received as it was sent, and afterwards the two hold the same counters and
the same key. -/
theorem lockstep {key : Bytes} (hkey : key.length = 32) (interval : UInt32)
    (ms : List Message) :
    ∃ s cs s', new key interval = .ok s ∧ s.sendAll ms = .ok (cs, s')
      ∧ cs.length = ms.length
      ∧ ∀ ds : List Bytes, List.Forall₂ (fun d c => d.length = c.length) ds cs →
        ∃ results g', s.receiveAll (ms.zip ds) = .ok (results, g')
          ∧ results.length = ms.length
          ∧ (∀ (i : Nat) m c, ms[i]? = some m → cs[i]? = some c →
              ds[i]? = some c → ∃ result, results[i]? = some result
                ∧ m.Received result)
          ∧ g'.packetCounter = s'.packetCounter
          ∧ g'.rekeyCounter = s'.rekeyCounter
          ∧ ∃ key', Keyed s'.aead.chacha20 key' ∧ Keyed g'.aead.chacha20 key' := by
  obtain ⟨s, hnew, h⟩ := new_follows hkey interval
  obtain ⟨s', hsend, hs'⟩ := sendAll_follows h ms
  refine ⟨s, _, s', hnew, hsend, Ratchet.seals_length _ ms, ?_⟩
  intro ds hds
  obtain ⟨results, g', hreceive, hlen, hg', hresults⟩ :=
    receiveAll_follows h ms hds
  exact ⟨results, g', hreceive, hlen, hresults,
    hg'.packet.trans hs'.packet.symm, hg'.rekeys.trans hs'.rekeys.symm,
    _, hs'.keyed, hg'.keyed⟩

/-- Four messages, split in different places on the two sides. -/
def fourMessages : List Message :=
  [⟨[1], [2], [3], [], [0, 0], rfl⟩, ⟨[4, 5], [], [], [0], [0], rfl⟩,
    ⟨[], [6], [7], [0], [], rfl⟩, ⟨[8], [9, 10], [], [0, 0], [0], rfl⟩]

/-- The second of four ciphertexts is replaced by zeros, and there is a new
key after every second: the first and the last two are received. -/
theorem lockstep_replaced :
    ∃ s c₀ c₁ c₂ c₃ s', new (List.replicate 32 7) 2 = .ok s
      ∧ s.sendAll fourMessages = .ok ([c₀, c₁, c₂, c₃], s')
      ∧ ∃ results g',
        s.receiveAll (fourMessages.zip
            [c₀, List.replicate c₁.length 0, c₂, c₃]) = .ok (results, g')
          ∧ results.length = 4
          ∧ (∀ i ∈ [0, 2, 3], ∃ m result, fourMessages[i]? = some m
            ∧ results[i]? = some result ∧ m.Received result)
          ∧ g'.packetCounter = s'.packetCounter
          ∧ g'.rekeyCounter = s'.rekeyCounter
          ∧ ∃ key', Keyed s'.aead.chacha20 key'
            ∧ Keyed g'.aead.chacha20 key' := by
  have hkey : (List.replicate 32 (7 : UInt8)).length = 32 :=
    List.length_replicate
  obtain ⟨s, cs, s', hnew, hsend, hlen, hreceive⟩ := lockstep hkey 2 fourMessages
  obtain ⟨c₀, c₁, c₂, c₃, rfl⟩ : ∃ c₀ c₁ c₂ c₃, cs = [c₀, c₁, c₂, c₃] := by
    match cs, hlen with
    | [c₀, c₁, c₂, c₃], _ => exact ⟨c₀, c₁, c₂, c₃, rfl⟩
  obtain ⟨results, g', hresults, hlength, hreceived, hcounters⟩ :=
    hreceive [c₀, List.replicate c₁.length 0, c₂, c₃]
      (.cons rfl (.cons List.length_replicate (.cons rfl (.cons rfl .nil))))
  refine ⟨s, c₀, c₁, c₂, c₃, s', hnew, hsend, results, g', hresults, hlength,
    ?_, hcounters⟩
  have harrived : ∀ (i : Nat) (m : Message) (c : Bytes),
      fourMessages[i]? = some m → [c₀, c₁, c₂, c₃][i]? = some c →
      [c₀, List.replicate c₁.length 0, c₂, c₃][i]? = some c →
      ∃ m result, fourMessages[i]? = some m ∧ results[i]? = some result
        ∧ m.Received result := by
    intro i m c hm hc hd
    obtain ⟨result, hresult, hreceived⟩ := hreceived i m c hm hc hd
    exact ⟨m, result, hm, hresult, hreceived⟩
  simp only [List.forall_mem_cons]
  exact ⟨harrived 0 _ c₀ rfl rfl rfl, harrived 2 _ c₂ rfl rfl rfl,
    harrived 3 _ c₃ rfl rfl rfl, fun i hi => by cases hi⟩

end FSChaCha20Poly1305

end Remc.Crypto
