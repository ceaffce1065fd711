/-
Tables of unique keys with the insertions of a C++ map, over Mathlib's
association lists: `emplace` keeps an entry that is there, and `index`
(`operator[]`) inserts a default under a key that is not.

The order of the entries is that of the list and means nothing; what a
table holds is `lookup`.
-/
import Mathlib.Data.List.AList
import Mathlib.Data.List.Perm.Subperm

universe u v

variable {κ : Type u} {ν : Type v}

/-- A table. -/
abbrev FlatHashMap (κ : Type u) (ν : Type v) := AList fun _ : κ => ν

namespace FlatHashMap

def size (m : FlatHashMap κ ν) : Nat := m.entries.length

/-- The values, in no particular order. -/
def values (m : FlatHashMap κ ν) : List ν := m.entries.map Sigma.snd

theorem size_eq_keys (m : FlatHashMap κ ν) : m.size = m.keys.length :=
  (List.length_map Sigma.fst).symm

section Operations

variable [DecidableEq κ]

/-- Insert a value unless the key is taken. -/
def emplace (m : FlatHashMap κ ν) (k : κ) (v : ν) : FlatHashMap κ ν :=
  if k ∈ m then m else m.insert k v

/-- `operator[]`: the value under a key, which is made to have one. -/
def index (m : FlatHashMap κ ν) (default : ν) (k : κ) :
    FlatHashMap κ ν × ν :=
  match m.lookup k with
  | some v => (m, v)
  | none => (m.insert k default, default)

variable {m : FlatHashMap κ ν} {k : κ} {v : ν}

-- ================================================================== lookup

theorem mem_of_lookup (h : m.lookup k = some v) : k ∈ m :=
  AList.lookup_isSome.mp (by simp [h])

theorem exists_lookup (h : k ∈ m) : ∃ v, m.lookup k = some v :=
  Option.isSome_iff_exists.mp (AList.lookup_isSome.mpr h)

/-- The values are what the keys are mapped to. -/
theorem mem_values : v ∈ m.values ↔ ∃ k, m.lookup k = some v := by
  constructor
  · intro h
    obtain ⟨⟨k, v'⟩, hmem, rfl⟩ := List.mem_map.mp h
    exact ⟨k, AList.mem_lookup_iff.mpr hmem⟩
  · rintro ⟨k, h⟩
    exact List.mem_map.mpr ⟨⟨k, v⟩, AList.mem_lookup_iff.mp h, rfl⟩

/-- A free key gets the value. -/
theorem emplace_of_free (h : k ∉ m) : m.emplace k v = m.insert k v :=
  if_neg h

/-- A taken one keeps what it has. -/
theorem emplace_of_taken (h : k ∈ m) : m.emplace k v = m := if_pos h

/-- Indexing by a key that is there inserts nothing. -/
theorem index_eq {default : ν} (h : m.lookup k = some v) :
    m.index default k = (m, v) := by
  simp [index, h]

theorem erase_of_free (h : k ∉ m) : m.erase k = m := by
  apply AList.ext
  exact List.kerase_of_notMem_keys h

-- ==================================================================== size

/-- A table that is not empty maps some key. -/
theorem exists_lookup_of_size (h : m.size ≠ 0) :
    ∃ k v, m.lookup k = some v := by
  obtain ⟨⟨k, v⟩, hmem⟩ :=
    List.exists_mem_of_length_pos (Nat.pos_of_ne_zero h)
  exact ⟨k, v, AList.mem_lookup_iff.mpr hmem⟩

/-- Among more keys than the table has there is a free one. -/
theorem exists_free {ks : List κ} (hks : ks.Nodup) (h : m.size < ks.length) :
    ∃ k ∈ ks, k ∉ m := by
  by_contra hall
  push Not at hall
  have hsub : ks ⊆ m.keys := fun k hk => AList.mem_keys.mp (hall k hk)
  have hle := (List.Nodup.subperm hks hsub).length_le
  rw [size_eq_keys] at h
  omega

theorem size_insert (h : k ∉ m) : size (m.insert k v) = m.size + 1 := by
  rw [size, AList.entries_insert_of_notMem h]
  rfl

theorem size_erase (h : k ∈ m) : size (m.erase k) + 1 = m.size := by
  have hpos : 0 < m.keys.length := List.length_pos_of_mem (AList.mem_keys.mp h)
  rw [size_eq_keys, size_eq_keys, AList.keys_erase,
    List.length_erase_of_mem (AList.mem_keys.mp h)]
  omega

theorem size_erase_le : size (m.erase k) ≤ m.size := by
  by_cases h : k ∈ m
  · have herase := size_erase h
    omega
  · rw [erase_of_free h]

end Operations

end FlatHashMap
