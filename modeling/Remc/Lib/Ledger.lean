/-
Ledgers: what the entries of a list stand for, as a multiset.

A system that moves items from stage to stage keeps every stage in a
list whose entries stand for some items each. `total f l` is all of them
together. Items are neither lost nor made twice if what leaves one stage
enters the next, and that is an equation between totals which every step
preserves; the lemmas here say how a total changes with its list.
-/
import Mathlib.Algebra.GroupWithZero.Nat
import Mathlib.Data.List.Perm.Basic
import Mathlib.Data.Multiset.Bind

namespace Ledger

universe u v

variable {α : Type u} {β : Type v} {f g : α → Multiset β}

/-- What all entries of a list stand for. -/
def total (f : α → Multiset β) (l : List α) : Multiset β :=
  (l : Multiset α).bind f

-- ============================================================== the stages

@[simp] theorem total_nil (f : α → Multiset β) : total f [] = 0 :=
  Multiset.zero_bind f

@[simp] theorem total_cons (f : α → Multiset β) (a : α) (l : List α) :
    total f (a :: l) = f a + total f l :=
  Multiset.cons_bind a l f

@[simp] theorem total_append (f : α → Multiset β) (l m : List α) :
    total f (l ++ m) = total f l + total f m := by
  rw [total, ← Multiset.coe_add, Multiset.add_bind]
  rfl

/-- The order of the entries does not matter. -/
theorem total_perm {l m : List α} (h : l.Perm m) : total f l = total f m := by
  rw [total, Multiset.coe_eq_coe.mpr h]
  rfl

/-- A new entry takes the place of the old one. -/
theorem total_set {l : List α} {i : Nat} {a : α} (ha : l[i]? = some a) (b : α) :
    total f (l.set i b) + f a = total f l + f b := by
  obtain ⟨hi, hget⟩ := List.getElem?_eq_some_iff.mp ha
  have hold := total_perm (f := f) (List.getElem_cons_eraseIdx_perm hi)
  have hnew := total_perm (f := f) (List.set_perm_cons_eraseIdx hi b)
  rw [total_cons, hget] at hold
  rw [total_cons] at hnew
  rw [hnew, ← hold, add_comm (f b), add_comm (f a), add_right_comm]

/-- An entry's items are among them all. -/
theorem le_total {l : List α} {a : α} (ha : a ∈ l) : f a ≤ total f l :=
  Multiset.le_bind (l : Multiset α) ha

/-- A list that begins with another one stands for more. -/
theorem total_le_total {l m : List α} (h : l <+: m) :
    total f l ≤ total f m := by
  obtain ⟨k, rfl⟩ := h
  rw [total_append]
  exact Multiset.le_add_right _ _

/-- Entries that stand for nothing. -/
theorem total_eq_zero {l : List α} (h : ∀ a ∈ l, f a = 0) : total f l = 0 := by
  rw [total, Multiset.bind_congr (g := fun _ => 0) h, Multiset.bind_zero]

-- =========================================================== what they are

/-- An item comes from one of the entries. -/
theorem mem_total {l : List α} {b : β} : b ∈ total f l ↔ ∃ a ∈ l, b ∈ f a :=
  Multiset.mem_bind

/-- Entries that stand for one item each. -/
theorem total_singleton (g : α → β) (l : List α) :
    total (fun a => {g a}) l = (l.map g : Multiset β) := by
  rw [total, Multiset.bind_singleton]
  rfl

theorem card_total_singleton (g : α → β) (l : List α) :
    (total (fun a => {g a}) l).card = l.length := by
  rw [total_singleton, Multiset.coe_card, List.length_map]

-- ============================================================== numbers

/-- The same for numbers: a new entry counts in the place of the old one. -/
theorem sum_map_set {l : List α} {i : Nat} {a : α} (ha : l[i]? = some a)
    (f : α → Nat) (b : α) :
    ((l.set i b).map f).sum + f a = (l.map f).sum + f b := by
  obtain ⟨hi, hget⟩ := List.getElem?_eq_some_iff.mp ha
  have hold := ((List.getElem_cons_eraseIdx_perm hi).map f).sum_eq
  have hnew := ((List.set_perm_cons_eraseIdx hi b).map f).sum_eq
  rw [List.map_cons, List.sum_cons, hget] at hold
  rw [List.map_cons, List.sum_cons] at hnew
  omega

/-- An entry counts no more than all of them. -/
theorem le_sum_map {l : List α} {a : α} (ha : a ∈ l) (f : α → Nat) :
    f a ≤ (l.map f).sum := by
  obtain ⟨i, hi, rfl⟩ := List.getElem_of_mem ha
  have hsum := ((List.getElem_cons_eraseIdx_perm hi).map f).sum_eq
  rw [List.map_cons, List.sum_cons] at hsum
  omega

end Ledger
