/-
Requests with callbacks, and the replies that call them.

A registry keeps the callback of a request under the request's id, and
does not overwrite what is there. A reply takes the callback of its id
out, if there is one, and calls it later: what is taken and not yet called
is held by the task that handles the reply. `Reaches` is what can happen,
with the history of it.

# Every callback is called at most once

Each request's callback is in one place: queued under its id, taken by a
task, or called. `Holder` names the places, and `Held` says which
request's callback is at each of them; a step moves one callback or adds
that of a new request, so no two places hold the callback of one request
(`Exclusive`). Hence every call is that of an earlier request, and no two
calls are of the same (`Reaches.matched`).

# The first reply

The callback of a request whose id is no other's goes to the first reply
with that id (`Served`). Where replies come only when asked for
(`AskedFor`), such a callback has been called once, as soon as a reply with
its id was accepted and nothing is held any more (`Reaches.called`).
-/
import Mathlib.Logic.Function.Basic
import Mathlib.Data.List.Basic

namespace Replies

universe u v w

variable {κ : Type u} {γ : Type v} {π : Type w}

-- =============================================================== holders

section Exclusive

variable {η : Type u} [DecidableEq η] {owner : η → Option Nat}

/-- No two places hold the same thing. -/
def Exclusive (owner : η → Option Nat) : Prop :=
  ∀ a b i, owner a = some i → owner b = some i → a = b

/-- A place may get what no place holds. -/
theorem Exclusive.give (h : Exclusive owner) {a : η} {i : Nat}
    (hnew : ∀ b, owner b ≠ some i) :
    Exclusive (Function.update owner a (some i)) := by
  intro b c j hb hc
  by_cases hba : b = a
  · subst hba
    rw [Function.update_self] at hb
    cases hb
    by_cases hca : c = b
    · exact hca.symm
    · rw [Function.update_of_ne hca] at hc
      exact absurd hc (hnew c)
  · rw [Function.update_of_ne hba] at hb
    by_cases hca : c = a
    · subst hca
      rw [Function.update_self] at hc
      cases hc
      exact absurd hb (hnew b)
    · rw [Function.update_of_ne hca] at hc
      exact h b c j hb hc

/-- What one place holds may move to another. -/
def move (owner : η → Option Nat) (a b : η) : η → Option Nat :=
  Function.update (Function.update owner a none) b (owner a)

theorem Exclusive.move (h : Exclusive owner) (a b : η) :
    Exclusive (move owner a b) := by
  have hold : ∀ c i, Replies.move owner a b c = some i →
      (c = b ∧ owner a = some i) ∨ (c ≠ b ∧ c ≠ a ∧ owner c = some i) := by
    intro c i hc
    unfold Replies.move at hc
    by_cases hcb : c = b
    · subst hcb
      rw [Function.update_self] at hc
      exact Or.inl ⟨rfl, hc⟩
    · rw [Function.update_of_ne hcb] at hc
      by_cases hca : c = a
      · subst hca
        rw [Function.update_self] at hc
        cases hc
      · rw [Function.update_of_ne hca] at hc
        exact Or.inr ⟨hcb, hca, hc⟩
  intro c d i hc hd
  rcases hold c i hc with ⟨rfl, hca⟩ | ⟨-, hca, hc'⟩
  · rcases hold d i hd with ⟨rfl, -⟩ | ⟨-, hda, hd'⟩
    · rfl
    · exact absurd (h d a i hd' hca) hda
  · rcases hold d i hd with ⟨-, hda'⟩ | ⟨-, hda, hd'⟩
    · exact absurd (h c a i hc' hda') hca
    · exact h c d i hc' hd'

theorem move_other {a b c : η} (hca : c ≠ a) (hcb : c ≠ b) :
    move owner a b c = owner c := by
  rw [move, Function.update_of_ne hcb, Function.update_of_ne hca]

theorem move_target (a b : η) : move owner a b b = owner a :=
  Function.update_self ..

end Exclusive

-- =============================================================== registry

/-- What happened: a request was made, task `n` has accepted a reply, or
task `n` has called a callback with the reply it had accepted. -/
inductive Entry (κ : Type u) (γ : Type v) (π : Type w) where
  | request (id : κ) (cb : Option γ)
  | accepted (n : Nat) (reply : π)
  | called (n : Nat) (reply : π) (cb : γ)

/-- The callbacks queued under an id, and those a task has taken together
with the reply that took them. -/
structure Registry (κ : Type u) (γ : Type v) (π : Type w) where
  queue : κ → Option γ
  taken : Nat → Option (γ × π)

/-- Nothing queued, nothing taken. -/
def Registry.empty : Registry κ γ π := ⟨fun _ => none, fun _ => none⟩

section

variable [DecidableEq κ]

/-- Queue a callback, if there is one, under an id that has none. -/
def enqueue (queue : κ → Option γ) (id : κ) (cb : Option γ) : κ → Option γ :=
  if queue id = none then Function.update queue id cb else queue

variable (id : π → κ)

/-- One step: `id` is the id a reply carries. -/
inductive Step (r : Registry κ γ π) :
    List (Entry κ γ π) → Registry κ γ π → Prop
  | quiet : Step r [] r
  | request (k : κ) (cb : Option γ) :
      Step r [.request k cb] { r with queue := enqueue r.queue k cb }
  | unclaimed (n : Nat) (reply : π) (hnone : r.queue (id reply) = none) :
      Step r [.accepted n reply] r
  | claimed (n : Nat) (reply : π) (cb : γ)
      (hsome : r.queue (id reply) = some cb) (hidle : r.taken n = none) :
      Step r [.accepted n reply]
        { queue := Function.update r.queue (id reply) none
          taken := Function.update r.taken n (some (cb, reply)) }
  | called (n : Nat) (reply : π) (cb : γ) (htaken : r.taken n = some (cb, reply)) :
      Step r [.called n reply cb]
        { r with taken := Function.update r.taken n none }

/-- The histories of a registry that starts empty. -/
inductive Reaches : List (Entry κ γ π) → Registry κ γ π → Prop
  | start : Reaches [] .empty
  | step {log : List (Entry κ γ π)} {r r' : Registry κ γ π}
      {new : List (Entry κ γ π)} :
      Reaches log r → Step id r new r' → Reaches (log ++ new) r'

end

-- ================================================================ history

/-- An entry stays where it is. -/
theorem getElem?_append_of_some {β : Type u} {log new : List β} {i : Nat}
    {b : β} (h : log[i]? = some b) : (log ++ new)[i]? = some b := by
  obtain ⟨hlt, -⟩ := List.getElem?_eq_some_iff.mp h
  rw [List.getElem?_append_left hlt]
  exact h

/-- An entry of a longer history is an old one or the last. -/
theorem getElem?_snoc {β : Type u} {log : List β} {c b : β} {i : Nat}
    (h : (log ++ [c])[i]? = some b) :
    log[i]? = some b ∨ i = log.length ∧ b = c := by
  rcases Nat.lt_trichotomy i log.length with hlt | rfl | hgt
  · rw [List.getElem?_append_left hlt] at h
    exact Or.inl h
  · rw [List.getElem?_concat_length] at h
    cases h
    exact Or.inr ⟨rfl, rfl⟩
  · rw [List.getElem?_eq_none (by rw [List.length_append]; exact hgt)] at h
    cases h

-- ============================================================== matching

/-- Where the callback of a request may be. -/
inductive Holder (κ : Type u) where
  | queued (k : κ)
  | taken (n : Nat)
  | called (j : Nat)
deriving DecidableEq

variable {id : π → κ} {log new : List (Entry κ γ π)} {r r' : Registry κ γ π}
  {owner : Holder κ → Option Nat}

/-- The callback is that of request `i` of the history, and request `i` was
made under the reply's id before task `n` accepted the reply. -/
def Answers (id : π → κ) (log : List (Entry κ γ π)) (i n : Nat) (reply : π)
    (cb : γ) : Prop :=
  log[i]? = some (.request (id reply) (some cb))
    ∧ ∃ a, i < a ∧ log[a]? = some (.accepted n reply)

theorem Answers.append {i n : Nat} {reply : π} {cb : γ}
    (h : Answers id log i n reply cb) (new : List (Entry κ γ π)) :
    Answers id (log ++ new) i n reply cb := by
  obtain ⟨hi, a, hlt, ha⟩ := h
  exact ⟨getElem?_append_of_some hi, a, hlt, getElem?_append_of_some ha⟩

/-- Each place of the registry, and each call of the history, holds the
callback of one request, and no two hold that of the same. -/
structure Held (id : π → κ) (log : List (Entry κ γ π)) (r : Registry κ γ π)
    (owner : Holder κ → Option Nat) : Prop where
  exclusive : Exclusive owner
  issued : ∀ h i, owner h = some i → i < log.length
  queued : ∀ k cb, r.queue k = some cb →
    ∃ i, owner (.queued k) = some i ∧ log[i]? = some (.request k (some cb))
  taken : ∀ n cb reply, r.taken n = some (cb, reply) →
    ∃ i, owner (.taken n) = some i ∧ Answers id log i n reply cb
  called : ∀ j n reply cb, log[j]? = some (.called n reply cb) →
    ∃ i, owner (.called j) = some i ∧ i < j ∧ Answers id log i n reply cb

/-- Entries that are not calls leave every callback where it is. -/
theorem Held.append (h : Held id log r owner)
    (hnew : ∀ n reply cb, .called n reply cb ∉ new) :
    Held id (log ++ new) r owner where
  exclusive := h.exclusive
  issued a i ha := by
    have hlt := h.issued a i ha
    rw [List.length_append]
    omega
  queued k cb hk := by
    obtain ⟨i, hi, hreq⟩ := h.queued k cb hk
    exact ⟨i, hi, getElem?_append_of_some hreq⟩
  taken n cb reply hn := by
    obtain ⟨i, hi, hans⟩ := h.taken n cb reply hn
    exact ⟨i, hi, hans.append new⟩
  called j n reply cb hj := by
    rcases Nat.lt_or_ge j log.length with hlt | hge
    · rw [List.getElem?_append_left hlt] at hj
      obtain ⟨i, hi, hij, hans⟩ := h.called j n reply cb hj
      exact ⟨i, hi, hij, hans.append new⟩
    · rw [List.getElem?_append_right hge] at hj
      exact absurd (List.mem_of_getElem? hj) (hnew n reply cb)

-- ========================================================== the first reply

/-- Request `i` has this id and callback, and no other request has the
id. -/
def Only (log : List (Entry κ γ π)) (i : Nat) (k : κ) (cb : γ) : Prop :=
  log[i]? = some (.request k (some cb))
    ∧ ∀ i' cb', log[i']? = some (.request k cb') → i' = i

/-- No reply with this id has been accepted since request `i`. -/
def Waiting (id : π → κ) (log : List (Entry κ γ π)) (i : Nat) (k : κ) : Prop :=
  ∀ a n reply, i < a → log[a]? = some (.accepted n reply) → id reply ≠ k

/-- Entry `a` is the first reply with this id to be accepted since request
`i`. -/
def FirstReply (id : π → κ) (log : List (Entry κ γ π)) (i : Nat) (k : κ)
    (a n : Nat) (reply : π) : Prop :=
  i < a ∧ log[a]? = some (.accepted n reply) ∧ id reply = k
    ∧ ∀ a' n' reply', i < a' → a' < a →
      log[a']? = some (.accepted n' reply') → id reply' ≠ k

variable {i a n : Nat} {k : κ} {cb : γ} {reply : π} {c : Entry κ γ π}

/-- The only request with an id is an old one, or the last entry. -/
theorem Only.of_snoc (h : Only (log ++ [c]) i k cb) :
    (Only log i k cb ∧ i < log.length ∧ ∀ cb', c ≠ .request k cb')
      ∨ i = log.length ∧ c = .request k (some cb)
        ∧ ∀ (i' : Nat) cb', log[i']? ≠ some (Entry.request k cb') := by
  obtain ⟨hi, honly⟩ := h
  rcases getElem?_snoc hi with hold | ⟨rfl, hlast⟩
  · have hlt := (List.getElem?_eq_some_iff.mp hold).1
    refine Or.inl ⟨⟨hold, fun i' cb' hi' => ?_⟩, hlt, ?_⟩
    · exact honly i' cb' (getElem?_append_of_some hi')
    · rintro cb' rfl
      have heq := honly log.length cb' List.getElem?_concat_length
      omega
  · refine Or.inr ⟨rfl, hlast.symm, fun i' cb' hi' => ?_⟩
    have hlt := (List.getElem?_eq_some_iff.mp hi').1
    have heq := honly i' cb' (getElem?_append_of_some hi')
    omega

theorem Waiting.of_append (h : Waiting id (log ++ new) i k) :
    Waiting id log i k :=
  fun a n reply ha hacc => h a n reply ha (getElem?_append_of_some hacc)

/-- The first reply is an old entry, or the last after no other. -/
theorem FirstReply.of_snoc (h : FirstReply id (log ++ [c]) i k a n reply) :
    FirstReply id log i k a n reply
      ∨ c = .accepted n reply ∧ id reply = k ∧ i < log.length
        ∧ Waiting id log i k := by
  obtain ⟨hlt, hacc, hid, hbefore⟩ := h
  have hbefore' : ∀ a' n' reply', i < a' → a' < a →
      log[a']? = some (.accepted n' reply') → id reply' ≠ k :=
    fun a' n' reply' hia haa hacc' =>
      hbefore a' n' reply' hia haa (getElem?_append_of_some hacc')
  rcases getElem?_snoc hacc with hold | ⟨rfl, hlast⟩
  · exact Or.inl ⟨hlt, hold, hid, hbefore'⟩
  · refine Or.inr ⟨hlast.symm, hid, hlt, fun a' n' reply' hia hacc' => ?_⟩
    exact hbefore' a' n' reply' hia (List.getElem?_eq_some_iff.mp hacc').1 hacc'

/-- The callback of request `i` under an id that no other request has: it is
queued until the first reply with that id is accepted. From then on nothing
is queued under the id, and the callback is taken by the task of that reply,
or has been called with it. -/
structure Served (id : π → κ) (log : List (Entry κ γ π)) (r : Registry κ γ π)
    (i : Nat) (k : κ) (cb : γ) : Prop where
  waiting : Waiting id log i k → r.queue k = some cb
  answered : ∀ a n reply, FirstReply id log i k a n reply →
    r.queue k = none ∧ (r.taken n = some (cb, reply)
      ∨ ∃ j : Nat, log[j]? = some (Entry.called n reply cb))

/-- Entries that are no replies change nothing for it, if what is queued
under its id and what is taken stay the same. -/
theorem Served.append {r' : Registry κ γ π} (h : Served id log r i k cb)
    (hc : ∀ n reply, c ≠ .accepted n reply) (hqueue : r'.queue k = r.queue k)
    (htaken : ∀ n reply, r.taken n = some (cb, reply) →
      r'.taken n = some (cb, reply) ∨ c = .called n reply cb) :
    Served id (log ++ [c]) r' i k cb where
  waiting hw := hqueue.trans (h.waiting hw.of_append)
  answered a n reply hreply := by
    rcases hreply.of_snoc with hreply | ⟨hlast, -⟩
    · obtain ⟨hnone, hold | ⟨j, hj⟩⟩ := h.answered a n reply hreply
      · refine ⟨hqueue.trans hnone, (htaken n reply hold).imp_right ?_⟩
        rintro rfl
        exact ⟨log.length, List.getElem?_concat_length⟩
      · exact ⟨hqueue.trans hnone, Or.inr ⟨j, getElem?_append_of_some hj⟩⟩
    · exact absurd hlast (hc n reply)

/-- A reply that nothing is queued for has another id, or is not the first. -/
theorem Served.unclaimed (h : Served id log r i k cb)
    (hnone : r.queue (id reply) = none) :
    Served id (log ++ [.accepted n reply]) r i k cb where
  waiting hw := h.waiting hw.of_append
  answered a n' reply' hreply := by
    rcases hreply.of_snoc with hreply | ⟨hlast, hid, -, hw⟩
    · obtain ⟨hq, htaken⟩ := h.answered a n' reply' hreply
      refine ⟨hq, htaken.imp_right ?_⟩
      rintro ⟨j, hj⟩
      exact ⟨j, getElem?_append_of_some hj⟩
    · cases hlast
      rw [hid, h.waiting hw] at hnone
      cases hnone

-- ===================================================== replies asked for

/-- Every reply is accepted after a request with its id. -/
def AskedFor (id : π → κ) (log : List (Entry κ γ π)) : Prop :=
  ∀ (a n : Nat) (reply : π), log[a]? = some (.accepted n reply) →
    ∃ (i : Nat) (cb : Option γ), i < a ∧ log[i]? = some (.request (id reply) cb)

theorem askedFor_nil : AskedFor id ([] : List (Entry κ γ π)) := by
  intro a n reply h
  cases h

/-- New replies have their requests among the old entries. -/
theorem AskedFor.append (h : AskedFor id log)
    (hnew : ∀ n reply, .accepted n reply ∈ new →
      ∃ cb, .request (id reply) cb ∈ log) : AskedFor id (log ++ new) := by
  intro a n reply ha
  rcases Nat.lt_or_ge a log.length with hlt | hge
  · rw [List.getElem?_append_left hlt] at ha
    obtain ⟨i, cb, hia, hi⟩ := h a n reply ha
    exact ⟨i, cb, hia, getElem?_append_of_some hi⟩
  · rw [List.getElem?_append_right hge] at ha
    obtain ⟨cb, hcb⟩ := hnew n reply (List.mem_of_getElem? ha)
    obtain ⟨i, hi⟩ := List.getElem?_of_mem hcb
    have hlt := (List.getElem?_eq_some_iff.mp hi).1
    exact ⟨i, cb, Nat.lt_of_lt_of_le hlt hge, getElem?_append_of_some hi⟩

/-- Where there is a reply since request `i`, there is a first one. -/
theorem exists_firstReply (hlt : i < a)
    (hacc : log[a]? = some (.accepted n reply)) (hid : id reply = k) :
    ∃ a' n' reply', FirstReply id log i k a' n' reply' := by
  induction a using Nat.strongRecOn generalizing n reply with
  | ind a ih =>
      by_cases hearlier : ∃ a' n' reply', i < a' ∧ a' < a
          ∧ log[a']? = some (.accepted n' reply') ∧ id reply' = k
      · obtain ⟨a', n', reply', hia, haa, hacc', hid'⟩ := hearlier
        exact ih a' haa hia hacc' hid'
      · refine ⟨a, n, reply, hlt, hacc, hid, ?_⟩
        intro a' n' reply' hia haa hacc' hid'
        exact hearlier ⟨a', n', reply', hia, haa, hacc', hid'⟩

/-- The id of a request. -/
def Entry.requested : Entry κ γ π → Option κ
  | .request k _ => some k
  | _ => none

theorem mem_requested {l : List (Entry κ γ π)} :
    k ∈ l.filterMap Entry.requested ↔ ∃ cb, .request k cb ∈ l := by
  rw [List.mem_filterMap]
  constructor
  · rintro ⟨c, hc, hk⟩
    cases c with
    | request k' cb =>
        cases hk
        exact ⟨cb, hc⟩
    | accepted n reply => cases hk
    | called n reply cb => cases hk
  · rintro ⟨cb, hcb⟩
    exact ⟨_, hcb, rfl⟩

/-- In a list of things made for the requests, in their order and with
their ids, there is only one with an id that only one request has. -/
theorem Only.unique {β : Type*} {f : β → κ} {l : List β}
    (h : Only log i k cb) (hl : l.map f = log.filterMap Entry.requested)
    {x y : β} (hx : x ∈ l) (hy : y ∈ l) (hfx : f x = k) (hfy : f y = k) :
    x = y := by
  obtain ⟨hi, honly⟩ := h
  obtain ⟨hlt, hget⟩ := List.getElem?_eq_some_iff.mp hi
  have hbefore : k ∉ (log.take i).filterMap Entry.requested := by
    rw [mem_requested]
    rintro ⟨cb', hcb'⟩
    obtain ⟨i', hi'⟩ := List.getElem?_of_mem hcb'
    rw [List.getElem?_take] at hi'
    split at hi'
    next hlt' => exact absurd (honly i' cb' hi') (Nat.ne_of_lt hlt')
    next => cases hi'
  have hafter : k ∉ (log.drop (i + 1)).filterMap Entry.requested := by
    rw [mem_requested]
    rintro ⟨cb', hcb'⟩
    obtain ⟨i', hi'⟩ := List.getElem?_of_mem hcb'
    rw [List.getElem?_drop] at hi'
    have heq := honly _ cb' hi'
    omega
  have hsplit : l.map f = (log.take i).filterMap Entry.requested
      ++ k :: (log.drop (i + 1)).filterMap Entry.requested := by
    have hcons : log.drop i = .request k (some cb) :: log.drop (i + 1) := by
      rw [← hget]
      exact List.drop_eq_getElem_cons hlt
    rw [hl]
    conv_lhs => rw [← List.take_append_drop i log, hcons]
    rw [List.filterMap_append, List.filterMap_cons]
    rfl
  obtain ⟨l₁, l₂, rfl, h₁, h₂⟩ := List.map_eq_append_iff.mp hsplit
  obtain ⟨w, l₃, rfl, -, h₃⟩ := List.map_eq_cons_iff.mp h₂
  have hmember : ∀ z ∈ l₁ ++ w :: l₃, f z = k → z = w := by
    intro z hz hfz
    rcases List.mem_append.mp hz with hz | hz
    · refine absurd ?_ hbefore
      rw [← h₁, ← hfz]
      exact List.mem_map_of_mem hz
    · rcases List.mem_cons.mp hz with hz | hz
      · exact hz
      · refine absurd ?_ hafter
        rw [← h₃, ← hfz]
        exact List.mem_map_of_mem hz
  rw [hmember x hx hfx, hmember y hy hfy]

-- ============================================================= every history

variable [DecidableEq κ]

theorem enqueue_of_ne {queue : κ → Option γ} {k k' : κ} {cb : Option γ}
    (h : k ≠ k') : enqueue queue k' cb k = queue k := by
  unfold enqueue
  split
  next => exact Function.update_of_ne h ..
  next => rfl

/-- A request whose callback is queued holds it under its id. -/
theorem Held.request (h : Held id log r owner) (k : κ) (cb : Option γ) :
    ∃ owner', Held id (log ++ [.request k cb])
      { r with queue := enqueue r.queue k cb } owner' := by
  have happ : Held id (log ++ [.request k cb]) r owner :=
    h.append fun n reply cb' hmem => by
      cases List.mem_singleton.mp hmem
  unfold enqueue
  by_cases hfree : r.queue k = none
  · rw [if_pos hfree]
    refine ⟨Function.update owner (.queued k) (some log.length), ?_, ?_, ?_, ?_,
      ?_⟩
    · refine h.exclusive.give fun b hb => ?_
      exact absurd (h.issued b _ hb) (Nat.lt_irrefl _)
    · intro a i ha
      rw [List.length_append]
      by_cases hak : a = .queued k
      · subst hak
        rw [Function.update_self] at ha
        cases ha
        exact Nat.lt_succ_self _
      · rw [Function.update_of_ne hak] at ha
        exact Nat.lt_succ_of_lt (h.issued a i ha)
    · intro k' cb' hk'
      dsimp only at hk'
      by_cases hkk : k' = k
      · subst hkk
        rw [Function.update_self] at hk'
        subst hk'
        exact ⟨_, Function.update_self .., List.getElem?_concat_length⟩
      · rw [Function.update_of_ne hkk] at hk'
        rw [Function.update_of_ne (by
          intro heq
          cases heq
          exact hkk rfl)]
        exact happ.queued k' cb' hk'
    · intro n cb' reply hn
      rw [Function.update_of_ne (by rintro ⟨⟩)]
      exact happ.taken n cb' reply hn
    · intro j n reply cb' hj
      rw [Function.update_of_ne (by rintro ⟨⟩)]
      exact happ.called j n reply cb' hj
  · rw [if_neg hfree]
    exact ⟨owner, happ⟩

/-- A reply moves the callback of its id to its task. -/
theorem Held.claim (h : Held id log r owner) {n : Nat} {reply : π} {cb : γ}
    (hsome : r.queue (id reply) = some cb) :
    Held id (log ++ [.accepted n reply])
      { queue := Function.update r.queue (id reply) none
        taken := Function.update r.taken n (some (cb, reply)) }
      (move owner (.queued (id reply)) (.taken n)) := by
  have happ : Held id (log ++ [.accepted n reply]) r owner :=
    h.append fun n reply cb' hmem => by
      cases List.mem_singleton.mp hmem
  refine ⟨h.exclusive.move _ _, ?_, ?_, ?_, ?_⟩
  · intro a i ha
    by_cases hat : a = .taken n
    · subst hat
      rw [move_target] at ha
      exact happ.issued _ i ha
    · by_cases haq : a = .queued (id reply)
      · subst haq
        rw [move, Function.update_of_ne hat, Function.update_self] at ha
        cases ha
      · rw [move_other haq hat] at ha
        exact happ.issued a i ha
  · intro k cb' hk
    dsimp only at hk
    by_cases hkr : k = id reply
    · subst hkr
      rw [Function.update_self] at hk
      cases hk
    · rw [Function.update_of_ne hkr] at hk
      rw [move_other (by
        intro heq
        cases heq
        exact hkr rfl) (by rintro ⟨⟩)]
      exact happ.queued k cb' hk
  · intro n' cb' reply' hn'
    dsimp only at hn'
    by_cases hnn : n' = n
    · subst hnn
      rw [Function.update_self] at hn'
      cases hn'
      obtain ⟨i, hi, hreq⟩ := h.queued _ _ hsome
      rw [move_target]
      refine ⟨i, hi, getElem?_append_of_some hreq, log.length, h.issued _ i hi,
        List.getElem?_concat_length⟩
    · rw [Function.update_of_ne hnn] at hn'
      rw [move_other (by rintro ⟨⟩) (by
        intro heq
        cases heq
        exact hnn rfl)]
      exact happ.taken n' cb' reply' hn'
  · intro j n' reply' cb' hj
    rw [move_other (by rintro ⟨⟩) (by rintro ⟨⟩)]
    exact happ.called j n' reply' cb' hj

/-- A call moves the callback that its task has taken. -/
theorem Held.call (h : Held id log r owner) {n : Nat} {reply : π} {cb : γ}
    (htaken : r.taken n = some (cb, reply)) :
    Held id (log ++ [.called n reply cb])
      { r with taken := Function.update r.taken n none }
      (move owner (.taken n) (.called log.length)) := by
  refine ⟨h.exclusive.move _ _, ?_, ?_, ?_, ?_⟩
  · intro a i ha
    rw [List.length_append]
    by_cases hac : a = .called log.length
    · subst hac
      rw [move_target] at ha
      exact Nat.lt_succ_of_lt (h.issued _ i ha)
    · by_cases hat : a = .taken n
      · subst hat
        rw [move, Function.update_of_ne hac, Function.update_self] at ha
        cases ha
      · rw [move_other hat hac] at ha
        exact Nat.lt_succ_of_lt (h.issued a i ha)
  · intro k cb' hk
    obtain ⟨i, hi, hreq⟩ := h.queued k cb' hk
    rw [move_other (by rintro ⟨⟩) (by rintro ⟨⟩)]
    exact ⟨i, hi, getElem?_append_of_some hreq⟩
  · intro n' cb' reply' hn'
    dsimp only at hn'
    by_cases hnn : n' = n
    · subst hnn
      rw [Function.update_self] at hn'
      cases hn'
    · rw [Function.update_of_ne hnn] at hn'
      obtain ⟨i, hi, hans⟩ := h.taken n' cb' reply' hn'
      rw [move_other (by
        intro heq
        cases heq
        exact hnn rfl) (by rintro ⟨⟩)]
      exact ⟨i, hi, hans.append _⟩
  · intro j n' reply' cb' hj
    rcases getElem?_snoc hj with hold | ⟨rfl, heq⟩
    · obtain ⟨i, hi, hij, hans⟩ := h.called j n' reply' cb' hold
      have hlt := (List.getElem?_eq_some_iff.mp hold).1
      rw [move_other (by rintro ⟨⟩) (by
        intro heq
        cases heq
        exact Nat.lt_irrefl _ hlt)]
      exact ⟨i, hi, hij, hans.append _⟩
    · cases heq
      obtain ⟨i, hi, hans⟩ := h.taken n cb reply htaken
      rw [move_target]
      exact ⟨i, hi, h.issued _ i hi, hans.append _⟩

/-- In every history the callbacks are held. -/
theorem Reaches.held (h : Reaches id log r) : ∃ owner, Held id log r owner := by
  induction h with
  | start =>
      refine ⟨fun _ => none, ?_, ?_, ?_, ?_, ?_⟩
      · intro a b i ha
        cases ha
      · intro a i ha
        cases ha
      · intro k cb hk
        cases hk
      · intro n cb reply hn
        cases hn
      · intro j n reply cb hj
        cases hj
  | step _ hstep ih =>
      obtain ⟨owner, hheld⟩ := ih
      cases hstep with
      | quiet =>
          rw [List.append_nil]
          exact ⟨owner, hheld⟩
      | request k cb => exact hheld.request k cb
      | unclaimed n reply hnone =>
          refine ⟨owner, hheld.append fun n' reply' cb hmem => ?_⟩
          cases List.mem_singleton.mp hmem
      | claimed n reply cb hsome hidle => exact ⟨_, hheld.claim hsome⟩
      | called n reply cb htaken => exact ⟨_, hheld.call htaken⟩

/-- Every call is that of an earlier request under the id of a reply that
its task had accepted, and no two calls are of the same request. -/
theorem Reaches.matched (h : Reaches id log r) :
    ∃ request : Nat → Nat,
      (∀ j n reply cb, log[j]? = some (.called n reply cb) →
        request j < j ∧ Answers id log (request j) n reply cb)
      ∧ ∀ j j' n n' reply reply' cb cb',
        log[j]? = some (.called n reply cb) →
        log[j']? = some (.called n' reply' cb') →
          request j = request j' → j = j' := by
  obtain ⟨owner, hheld⟩ := h.held
  refine ⟨fun j => (owner (.called j)).getD 0, ?_, ?_⟩
  · intro j n reply cb hj
    obtain ⟨i, hi, hij, hans⟩ := hheld.called j n reply cb hj
    dsimp only
    rw [hi]
    exact ⟨hij, hans⟩
  · intro j j' n n' reply reply' cb cb' hj hj' heq
    obtain ⟨i, hi, -⟩ := hheld.called j n reply cb hj
    obtain ⟨i', hi', -⟩ := hheld.called j' n' reply' cb' hj'
    dsimp only at heq
    rw [hi, hi'] at heq
    have hii : i = i' := heq
    rw [← hii] at hi'
    cases hheld.exclusive _ _ i hi hi'
    rfl

/-- The request itself queues it. -/
theorem Held.served (h : Held id log r owner)
    (hnone : ∀ (i : Nat) cb', log[i]? ≠ some (Entry.request k cb')) :
    Served id (log ++ [.request k (some cb)])
      { r with queue := enqueue r.queue k (some cb) } log.length k cb where
  waiting _ := by
    have hfree : r.queue k = none := by
      cases hq : r.queue k with
      | none => rfl
      | some cb' =>
          obtain ⟨i, -, hi⟩ := h.queued k cb' hq
          exact absurd hi (hnone i _)
    show enqueue r.queue k (some cb) k = some cb
    rw [enqueue, if_pos hfree, Function.update_self]
  answered a n reply hreply := by
    rcases hreply.of_snoc with ⟨hlt, hacc, -⟩ | ⟨hlast, -⟩
    · have hlen := (List.getElem?_eq_some_iff.mp hacc).1
      omega
    · cases hlast

/-- A reply that takes a callback takes this one if it is the first with its
id, and has another id if it is not. -/
theorem Served.claimed {cb' : γ} (h : Served id log r i k cb)
    (hlt : i < log.length) (hsome : r.queue (id reply) = some cb')
    (hidle : r.taken n = none) :
    Served id (log ++ [.accepted n reply])
      { queue := Function.update r.queue (id reply) none
        taken := Function.update r.taken n (some (cb', reply)) } i k cb where
  waiting hw := by
    have hid : k ≠ id reply := fun heq =>
      hw log.length n reply hlt List.getElem?_concat_length heq.symm
    exact (Function.update_of_ne hid ..).trans (h.waiting hw.of_append)
  answered a n' reply' hreply := by
    rcases hreply.of_snoc with hreply | ⟨hlast, hid, -, hw⟩
    · obtain ⟨hq, htaken⟩ := h.answered a n' reply' hreply
      have hid : k ≠ id reply := by
        rintro rfl
        rw [hq] at hsome
        cases hsome
      refine ⟨(Function.update_of_ne hid ..).trans hq, ?_⟩
      rcases htaken with htaken | ⟨j, hj⟩
      · have hn : n' ≠ n := by
          rintro rfl
          rw [hidle] at htaken
          cases htaken
        exact Or.inl ((Function.update_of_ne hn ..).trans htaken)
      · exact Or.inr ⟨j, getElem?_append_of_some hj⟩
    · cases hlast
      rw [hid, h.waiting hw] at hsome
      cases hsome
      refine ⟨?_, Or.inl (Function.update_self ..)⟩
      rw [hid]
      exact Function.update_self ..

/-- In every history the callback of such a request is served. -/
theorem Reaches.served (h : Reaches id log r) (honly : Only log i k cb) :
    Served id log r i k cb := by
  induction h generalizing i k cb with
  | start => cases honly.1
  | step hreach hstep ih =>
      cases hstep with
      | quiet =>
          rw [List.append_nil] at honly ⊢
          exact ih honly
      | request k' cb' =>
          rcases honly.of_snoc with ⟨hold, -, hother⟩ | ⟨rfl, heq, hnone⟩
          · have hkk : k ≠ k' := by
              rintro rfl
              exact hother cb' rfl
            exact (ih hold).append (fun _ _ hc => by cases hc)
              (enqueue_of_ne hkk) fun _ _ htaken => Or.inl htaken
          · cases heq
            obtain ⟨owner, hheld⟩ := hreach.held
            exact hheld.served hnone
      | unclaimed n reply hnone =>
          rcases honly.of_snoc with ⟨hold, -⟩ | ⟨-, heq, -⟩
          · exact (ih hold).unclaimed hnone
          · cases heq
      | claimed n reply cb' hsome hidle =>
          rcases honly.of_snoc with ⟨hold, hlt, -⟩ | ⟨-, heq, -⟩
          · exact (ih hold).claimed hlt hsome hidle
          · cases heq
      | called n reply cb' hcalled =>
          rcases honly.of_snoc with ⟨hold, -⟩ | ⟨-, heq, -⟩
          · refine (ih hold).append (fun _ _ hc => by cases hc) rfl
              fun n' reply' htaken => ?_
            by_cases hn : n' = n
            · subst hn
              rw [hcalled] at htaken
              cases htaken
              exact Or.inr rfl
            · exact Or.inl ((Function.update_of_ne hn ..).trans htaken)
          · cases heq

/-- If replies come only when asked for and no task holds a callback, the
callback of a request under an id of its own, with which a reply was
accepted, has been called; and no other call was for that id. -/
theorem Reaches.called (h : Reaches id log r) (hasked : AskedFor id log)
    (honly : Only log i k cb) (hidle : ∀ n, r.taken n = none)
    (hacc : .accepted n reply ∈ log) (hid : id reply = k) :
    r.queue k = none ∧ ∃ (j n : Nat) (reply : π),
      log[j]? = some (Entry.called n reply cb) ∧ id reply = k
        ∧ .accepted n reply ∈ log
        ∧ ∀ (j' n' : Nat) reply' cb',
          log[j']? = some (Entry.called n' reply' cb') →
            id reply' = k → j' = j := by
  obtain ⟨a, ha⟩ := List.getElem?_of_mem hacc
  obtain ⟨i', cb', hia, hi'⟩ := hasked a n reply ha
  rw [hid] at hi'
  rw [honly.2 i' cb' hi'] at hia
  obtain ⟨a', n', reply', hfirst⟩ := exists_firstReply hia ha hid
  obtain ⟨hqueue, htaken⟩ := (h.served honly).answered a' n' reply' hfirst
  obtain ⟨-, hacc', hid', -⟩ := hfirst
  obtain ⟨j, hj⟩ := htaken.resolve_left fun hn => by
    rw [hidle] at hn
    cases hn
  obtain ⟨request, hcalls, hmatched⟩ := h.matched
  have hrequest : ∀ (j n : Nat) reply cb,
      log[j]? = some (Entry.called n reply cb) →
        id reply = k → request j = i := by
    intro j n reply cb hj hk
    have hreq := (hcalls j n reply cb hj).2.1
    rw [hk] at hreq
    exact honly.2 _ _ hreq
  refine ⟨hqueue, j, n', reply', hj, hid', List.mem_of_getElem? hacc', ?_⟩
  intro j' n'' reply'' cb'' hj' hk
  refine hmatched j' j n'' n' reply'' reply' cb'' cb hj' hj ?_
  rw [hrequest j' n'' reply'' cb'' hj' hk, hrequest j n' reply' cb hj hid']

end Replies
