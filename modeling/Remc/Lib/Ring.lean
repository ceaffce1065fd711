/-
Circular storage: a list read and written from a position that wraps at
its end, and the queue of elements such a storage holds between a tail
and a head position.

Everything is stated on the view from the tail, `buf.rotate tail`: there
the held elements are a prefix, a write at the head lands right behind
that prefix, and moving the tail is a further rotation. The two-part
copies of `write` and `read` (up to the end of the storage, then from
its start) are shown once to be operations on this view, so no later
proof looks at a wrap again.

One element always stays unused (`Holds.fits` is strict): head and tail
coincide exactly when nothing is held.
-/
import Mathlib.Data.List.Rotate

namespace Ring

variable {α : Type*}

-- ============================================================ the copies

/-- Copy `src` over the elements of `buf` from `pos` on. -/
def overwrite (buf : List α) (pos : Nat) (src : List α) : List α :=
  buf.take pos ++ src ++ buf.drop (pos + src.length)

/-- Write `src` at `pos`: what does not fit before the end of the
storage continues at its start. -/
def write (buf : List α) (pos : Nat) (src : List α) : List α :=
  if buf.length - pos < src.length then
    overwrite (overwrite buf pos (src.take (buf.length - pos))) 0
      (src.drop (buf.length - pos))
  else overwrite buf pos src

/-- Read `n` elements at `pos`, wrapping in the same way. -/
def read (buf : List α) (pos n : Nat) : List α :=
  if buf.length - pos < n then
    buf.drop pos ++ buf.take (n - (buf.length - pos))
  else (buf.drop pos).take n

theorem overwrite_length {buf src : List α} {pos : Nat}
    (h : pos + src.length ≤ buf.length) :
    (overwrite buf pos src).length = buf.length := by
  simp only [overwrite, List.length_append, List.length_take,
    List.length_drop]
  omega

/-- A write of at most one revolution keeps the storage's size. -/
theorem write_length {buf src : List α} {pos : Nat}
    (hpos : pos < buf.length) (hsrc : src.length ≤ buf.length) :
    (write buf pos src).length = buf.length := by
  unfold write
  split
  next hwrap =>
    have hfst : (overwrite buf pos (src.take (buf.length - pos))).length
        = buf.length :=
      overwrite_length (by rw [List.length_take]; omega)
    rw [overwrite_length (by rw [hfst, List.length_drop]; omega), hfst]
  next hfit => exact overwrite_length (by omega)

/-- A circular read is a prefix of the view from its position. -/
theorem read_eq_take {buf : List α} {pos n : Nat}
    (hpos : pos < buf.length) (hn : n ≤ buf.length) :
    read buf pos n = (buf.rotate pos).take n := by
  rw [List.rotate_eq_drop_append_take (Nat.le_of_lt hpos),
    List.take_append, List.length_drop]
  unfold read
  split
  next hwrap =>
    rw [List.take_of_length_le (l := buf.drop pos)
        (by rw [List.length_drop]; omega), List.take_take,
      Nat.min_eq_left (by omega)]
  next hfit =>
    rw [Nat.sub_eq_zero_of_le (by omega), List.take_zero,
      List.append_nil]

/-- A position is wrapped at most once by a step of at most one
revolution. -/
theorem advance_eq {N pos n : Nat} (hpos : pos < N) (hn : n ≤ N) :
    (pos + n) % N = if pos + n < N then pos + n else pos + n - N := by
  split
  next h => exact Nat.mod_eq_of_lt h
  next h =>
    rw [Nat.mod_eq_sub_mod (by omega), Nat.mod_eq_of_lt (by omega)]

/-- Every list splits at any position within it. -/
theorem exists_split {l : List α} {k : Nat} (h : k ≤ l.length) :
    ∃ a b, l = a ++ b ∧ a.length = k :=
  ⟨l.take k, l.drop k, (List.take_append_drop k l).symm,
    List.length_take_of_le h⟩

/-- Overwriting a segment of its own length replaces that segment. -/
theorem overwrite_segment {a b c src : List α}
    (h : b.length = src.length) :
    overwrite (a ++ (b ++ c)) a.length src = a ++ (src ++ c) := by
  have hdrop : (a ++ (b ++ c)).drop (a.length + src.length) = c := by
    rw [← h, ← List.append_assoc, ← List.length_append, List.drop_left]
  rw [overwrite, hdrop, List.take_left, List.append_assoc]

/-- A write that ends before the end of the storage. -/
theorem write_inside {t u w₁ w₂ src : List α} (hlen : w₁.length = src.length) :
    (write (t ++ (u ++ (w₁ ++ w₂))) (t.length + u.length) src).rotate t.length
      = u ++ src ++ (w₂ ++ t) := by
  have hbuf : t ++ (u ++ (w₁ ++ w₂)) = (t ++ u) ++ (w₁ ++ w₂) := by simp
  rw [write, if_neg (by simp only [List.length_append]; omega), hbuf,
    ← List.length_append, overwrite_segment hlen, List.append_assoc,
    List.rotate_append_length_eq]
  simp

/-- A write that straddles the end of the storage. -/
theorem write_around {t₁ t₂ u w s₁ s₂ : List α} (hend : s₁.length = w.length)
    (hstart : t₁.length = s₂.length) (hpos : 0 < s₂.length) :
    (write (t₁ ++ t₂ ++ (u ++ w)) ((t₁ ++ t₂).length + u.length)
      (s₁ ++ s₂)).rotate (t₁ ++ t₂).length = u ++ (s₁ ++ s₂) ++ t₂ := by
  have hroom : (t₁ ++ t₂ ++ (u ++ w)).length
      - ((t₁ ++ t₂).length + u.length) = s₁.length := by
    simp only [List.length_append]
    omega
  have hfst : overwrite (t₁ ++ t₂ ++ (u ++ w))
      ((t₁ ++ t₂).length + u.length) s₁ = t₁ ++ (t₂ ++ u ++ s₁) := by
    have hbuf : t₁ ++ t₂ ++ (u ++ w) = (t₁ ++ t₂ ++ u) ++ (w ++ []) := by simp
    rw [hbuf, ← List.length_append, overwrite_segment hend.symm]
    simp
  have hsnd : overwrite (t₁ ++ (t₂ ++ u ++ s₁)) 0 s₂
      = s₂ ++ (t₂ ++ u ++ s₁) :=
    overwrite_segment (a := []) (b := t₁) hstart
  have hwrap : s₁.length < (s₁ ++ s₂).length := by
    rw [List.length_append]
    omega
  have hrot : s₂ ++ (t₂ ++ u ++ s₁) = (s₂ ++ t₂) ++ (u ++ s₁) := by simp
  have htail : (t₁ ++ t₂).length = (s₂ ++ t₂).length := by
    simp only [List.length_append]
    omega
  rw [write, hroom, if_pos hwrap, List.take_left, List.drop_left, hfst, hsnd,
    hrot, htail, List.rotate_append_length_eq]
  simp

/-- A write behind a wrap, in front of the tail. -/
theorem write_wrapped {h f₁ f₂ u src : List α} (hlen : f₁.length = src.length) :
    (write (h ++ (f₁ ++ f₂) ++ u) h.length src).rotate
      (h ++ (f₁ ++ f₂)).length = u ++ h ++ src ++ f₂ := by
  have hbuf : h ++ (f₁ ++ f₂) ++ u = h ++ (f₁ ++ (f₂ ++ u)) := by simp
  have hrot : h ++ (src ++ (f₂ ++ u)) = (h ++ (src ++ f₂)) ++ u := by simp
  have htail : (h ++ (f₁ ++ f₂)).length = (h ++ (src ++ f₂)).length := by
    simp only [List.length_append]
    omega
  rw [write, if_neg (by simp only [List.length_append]; omega), hbuf,
    overwrite_segment hlen, hrot, htail, List.rotate_append_length_eq]
  simp

/-- A write behind the first `k` elements of the view from `tail`
replaces the next ones and nothing else. The three cases are the three
layouts. -/
theorem write_view {buf src : List α} {tail k : Nat}
    (htail : tail < buf.length) (hk : k + src.length ≤ buf.length)
    (hk' : k < buf.length) :
    (write buf ((tail + k) % buf.length) src).rotate tail
      = (buf.rotate tail).take k ++ src
        ++ (buf.rotate tail).drop (k + src.length) := by
  rw [advance_eq htail (Nat.le_of_lt hk')]
  split
  next hlt =>
    obtain ⟨t, r, rfl, rfl⟩ := exists_split (Nat.le_of_lt htail)
    obtain ⟨u, w, rfl, rfl⟩ := exists_split (l := r) (k := k) (by
      rw [List.length_append] at hlt; omega)
    rw [List.rotate_append_length_eq]
    simp only [List.length_append] at hk hlt
    by_cases hfit : src.length ≤ w.length
    · obtain ⟨w₁, w₂, rfl, hw₁⟩ := exists_split hfit
      rw [write_inside hw₁]
      simp [List.drop_append, ← hw₁]
    · obtain ⟨t₁, t₂, rfl, ht₁⟩ :=
        exists_split (l := t) (k := src.length - w.length) (by omega)
      obtain ⟨s₁, s₂, rfl, hs₁⟩ := exists_split (l := src) (k := w.length)
        (by omega)
      rw [List.length_append] at ht₁ hfit
      have hdrop : (u ++ w ++ (t₁ ++ t₂)).drop (u.length + (s₁ ++ s₂).length)
          = t₂ := by
        have hsplit : u ++ w ++ (t₁ ++ t₂) = (u ++ w ++ t₁) ++ t₂ := by simp
        have hpre : u.length + (s₁ ++ s₂).length = (u ++ w ++ t₁).length := by
          simp only [List.length_append]
          omega
        rw [hsplit, hpre, List.drop_left]
      rw [write_around hs₁ (by omega) (by omega), hdrop]
      simp
  next hge =>
    obtain ⟨r, u, rfl, rfl⟩ := exists_split (Nat.le_of_lt htail)
    rw [List.rotate_append_length_eq]
    simp only [List.length_append] at hk hk' hge
    obtain ⟨h, f, rfl, hh⟩ :=
      exists_split (l := r) (k := k - u.length) (by omega)
    simp only [List.length_append] at hk hk' hge
    obtain ⟨f₁, f₂, rfl, hf₁⟩ := exists_split (l := f) (k := src.length)
      (by omega)
    simp only [List.length_append] at hk hk' hge
    have hpos : (h ++ (f₁ ++ f₂)).length + k - (h ++ (f₁ ++ f₂) ++ u).length
        = h.length := by
      simp only [List.length_append]
      omega
    have htake : (u ++ (h ++ (f₁ ++ f₂))).take k = u ++ h := by
      have hk₁ : k = (u ++ h).length := by
        rw [List.length_append]
        omega
      rw [hk₁, ← List.append_assoc, List.take_left]
    have hdrop : (u ++ (h ++ (f₁ ++ f₂))).drop (k + src.length) = f₂ := by
      have hsplit : u ++ (h ++ (f₁ ++ f₂)) = (u ++ h ++ f₁) ++ f₂ := by simp
      have hk₁ : k + src.length = (u ++ h ++ f₁).length := by
        simp only [List.length_append]
        omega
      rw [hsplit, hk₁, List.drop_left]
    rw [hpos, write_wrapped hf₁, htake, hdrop]

-- ==================================================== what a ring holds

/-- The storage `buf` holds `c` between `tail` and `head`. -/
structure Holds (buf : List α) (tail head : Nat) (c : List α) : Prop where
  tail_lt : tail < buf.length
  fits : c.length < buf.length
  head_eq : head = (tail + c.length) % buf.length
  view : (buf.rotate tail).take c.length = c

variable {buf c : List α} {tail head : Nat}

theorem Holds.head_lt (h : Holds buf tail head c) : head < buf.length := by
  rw [h.head_eq]
  exact Nat.mod_lt _ (Nat.lt_of_le_of_lt (Nat.zero_le _) h.tail_lt)

/-- Any position of a non-empty storage is an empty ring. -/
theorem Holds.nil (h : tail < buf.length) : Holds buf tail tail [] :=
  ⟨h, Nat.lt_of_le_of_lt (Nat.zero_le _) h,
    by rw [List.length_nil, Nat.add_zero, Nat.mod_eq_of_lt h],
    by rw [List.length_nil, List.take_zero]⟩

/-- Head and tail coincide exactly when nothing is held: one element is
always unused. -/
theorem Holds.head_eq_tail_iff (h : Holds buf tail head c) :
    head = tail ↔ c = [] := by
  have hadv := advance_eq h.tail_lt (Nat.le_of_lt h.fits)
  have hfits := h.fits
  have htail := h.tail_lt
  rw [h.head_eq, hadv]
  constructor
  · intro heq
    apply List.length_eq_zero_iff.mp
    split at heq <;> omega
  · rintro rfl
    simp [htail]

/-- The unused length, computed from the two positions, is what is left
of the storage less the one sentinel element. -/
theorem Holds.free_eq (h : Holds buf tail head c) :
    (if tail ≤ head then (buf.length - head) + tail - 1
      else tail - head - 1) = buf.length - 1 - c.length := by
  have hadv := advance_eq h.tail_lt (Nat.le_of_lt h.fits)
  have hfits := h.fits
  have htail := h.tail_lt
  have hhead := h.head_eq.trans hadv
  split at hhead
  · rw [if_pos (by omega)]
    omega
  · rw [if_neg (by omega)]
    omega

/-- Writing at the head appends to what is held. -/
theorem Holds.write {src : List α} (h : Holds buf tail head c)
    (hfit : c.length + src.length < buf.length) :
    Holds (Ring.write buf head src) tail
      ((head + src.length) % buf.length) (c ++ src) := by
  have hlen : (Ring.write buf head src).length = buf.length :=
    write_length h.head_lt (by omega)
  refine ⟨by rw [hlen]; exact h.tail_lt, ?_, ?_, ?_⟩
  · rw [hlen, List.length_append]
    exact hfit
  · rw [hlen, h.head_eq, Nat.mod_add_mod, List.length_append,
      Nat.add_assoc]
  · rw [h.head_eq, write_view h.tail_lt (Nat.le_of_lt hfit) h.fits, h.view,
      List.take_left]

/-- Reading at the tail returns the oldest elements and leaves the
rest. -/
theorem Holds.read {n : Nat} (h : Holds buf tail head c)
    (hn : n ≤ c.length) :
    Ring.read buf tail n = c.take n
      ∧ Holds buf ((tail + n) % buf.length) head (c.drop n) := by
  have hfits := h.fits
  have hpos : 0 < buf.length := Nat.lt_of_le_of_lt (Nat.zero_le _) h.tail_lt
  constructor
  · have hview := congrArg (List.take n) h.view
    rw [List.take_take, Nat.min_eq_left hn] at hview
    rw [read_eq_take h.tail_lt (by omega), hview]
  · refine ⟨Nat.mod_lt _ hpos, ?_, ?_, ?_⟩
    · rw [List.length_drop]
      omega
    · rw [h.head_eq, Nat.mod_add_mod, List.length_drop, Nat.add_assoc,
        Nat.add_sub_cancel' hn]
    · -- moving the tail rotates the view by what was read
      rw [List.rotate_mod, ← List.rotate_rotate,
        List.rotate_eq_drop_append_take (by
          rw [List.length_rotate]; omega),
        List.length_drop, List.take_append_of_le_length (by
          rw [List.length_drop, List.length_rotate]; omega),
        ← List.drop_take, h.view]

end Ring
