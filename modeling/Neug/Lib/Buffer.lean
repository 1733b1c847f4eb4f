import Mathlib

/-! Buffers that are read in slices, overwritten in place and resized. -/
namespace Neug.Lib
open List

variable {α : Type} {l r xs : List α} {i j n k : ℕ}

/-- The `n` entries from `i` on, if the buffer holds them. -/
def slice (l : List α) (i n : ℕ) : Option (List α) :=
  if i + n ≤ l.length then some ((l.drop i).take n) else none

/-- The buffer cut or filled up to length `n`. -/
def fit (z : α) (n : ℕ) (l : List α) : List α := l.take n ++ List.replicate (n - l.length) z

/-- The entries from `i` on are replaced. -/
def overwrite (l : List α) (i : ℕ) (xs : List α) : List α :=
  l.take i ++ xs ++ l.drop (i + xs.length)

@[simp] theorem length_fit (z : α) (n : ℕ) (l : List α) : (fit z n l).length = n := by
  simp only [fit, length_append, length_take, length_replicate]
  omega

theorem length_overwrite (h : i + xs.length ≤ l.length) : (overwrite l i xs).length = l.length := by
  simp only [overwrite, length_append, length_take, length_drop]
  omega

theorem slice_eq_some : slice l i n = some xs ↔ i + n ≤ l.length ∧ (l.drop i).take n = xs := by
  unfold slice
  split_ifs with h
  · simp [h]
  · simp [h]

theorem length_of_slice (h : slice l i n = some xs) : xs.length = n := by
  obtain ⟨hle, rfl⟩ := slice_eq_some.mp h
  simp only [length_take, length_drop]
  omega

theorem slice_congr (h : i + n ≤ l.length) (h' : i + n ≤ r.length)
    (htake : l.take (i + n) = r.take (i + n)) : slice l i n = slice r i n := by
  have hpart : ∀ s : List α, (s.drop i).take n = (s.take (i + n)).drop i := fun s => by
    rw [drop_take, Nat.add_sub_cancel_left]
  simp only [slice, h, h']
  rw [hpart l, hpart r, htake]

theorem slice_fit (z : α) (h : i + n ≤ l.length) (h' : i + n ≤ k) :
    slice (fit z k l) i n = slice l i n := by
  apply slice_congr
  · simpa using h'
  · exact h
  · simp only [fit]
    rw [take_append_of_le_length (by simp only [length_take]; omega), take_take, min_eq_left h']

theorem slice_append_left (h : i + n ≤ l.length) : slice (l ++ r) i n = slice l i n := by
  apply slice_congr
  · simp only [length_append]
    omega
  · exact h
  · exact take_append_of_le_length h

theorem slice_append_right (l xs : List α) : slice (l ++ xs) l.length xs.length = some xs := by
  simp [slice]

theorem take_overwrite (h : n ≤ i) (hi : i ≤ l.length) : (overwrite l i xs).take n = l.take n := by
  have hlen : n ≤ (l.take i).length := by
    simp only [length_take]
    omega
  rw [overwrite, append_assoc, take_append_of_le_length hlen, take_take, min_eq_left h]

theorem drop_overwrite (h : i + xs.length ≤ n) (hi : i + xs.length ≤ l.length) :
    (overwrite l i xs).drop n = l.drop n := by
  have hlen : (l.take i ++ xs).length = i + xs.length := by
    simp only [length_append, length_take]
    omega
  rw [overwrite, drop_append, drop_eq_nil_of_le (by omega), nil_append, hlen,
    drop_drop, Nat.add_sub_cancel' h]

theorem slice_overwrite_of_le (h : j + n ≤ i) (hi : i + xs.length ≤ l.length) :
    slice (overwrite l i xs) j n = slice l j n := by
  apply slice_congr
  · rw [length_overwrite hi]
    omega
  · omega
  · exact take_overwrite h (by omega)

theorem slice_overwrite_self (h : i + xs.length ≤ l.length) :
    slice (overwrite l i xs) i xs.length = some xs := by
  have hlen : (l.take i).length = i := by
    simp only [length_take]
    omega
  have hfirst : slice (l.take i ++ xs) i xs.length = some xs := by
    have hself := slice_append_right (l.take i) xs
    rwa [hlen] at hself
  rw [overwrite, slice_append_left]
  · exact hfirst
  · simp only [length_append]
    omega

theorem slice_set_ne {x : α} (h : k < i ∨ i + n ≤ k) : slice (l.set k x) i n = slice l i n := by
  have hpart : ((l.set k x).drop i).take n = (l.drop i).take n := by
    apply ext_getElem?
    intro m
    by_cases hm : m < n
    · rw [getElem?_take_of_lt hm, getElem?_take_of_lt hm, getElem?_drop,
        getElem?_drop, getElem?_set_ne (by omega)]
    · rw [getElem?_take_eq_none (by omega), getElem?_take_eq_none (by omega)]
  simp [slice, hpart]

theorem slice_set_end {x : α} (h : slice l i n = some xs) (hn : i + n < l.length) :
    slice (l.set (i + n) x) i (n + 1) = some (xs ++ [x]) := by
  obtain ⟨-, hxs⟩ := slice_eq_some.mp ((slice_set_ne (.inr le_rfl)).trans h)
  refine slice_eq_some.mpr ⟨by rw [length_set]; omega, ?_⟩
  rw [take_add_one, hxs, getElem?_drop, getElem?_set_self hn]
  rfl

end Neug.Lib
