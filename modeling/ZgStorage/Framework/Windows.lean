import Mathlib.Data.List.Basic

/-!
# Windows of a list

A list cut into windows of a fixed size, as a buffer is cut into blocks:
window `i` is the `size` elements from `i * size`. What a read of a range
gives when the range lies inside one window (`drop_take_of_window`) or is cut
in two (`drop_take_split`, `take_take_append_take_drop`), and what writing a
window over another leaves of the others (`window_write`); the windows of a
list, joined, are the list (`flatten_map_window`), and lists of one size,
joined, are the windows of the whole (`map_window_flatten`).
-/

namespace Windows

variable {α : Type}

/-- Window `i` of a list cut into windows of `size` elements. -/
def window (size : Nat) (l : List α) (i : Nat) : List α := (l.drop (i * size)).take size

/-- The whole windows of a list, the rest dropped (`slice.chunks_exact`). -/
def chunksExact (size : Nat) (l : List α) : List (List α) := (List.range (l.length / size)).map (window size l)

theorem length_window {size n : Nat} {l : List α} (hl : l.length = n * size) {i : Nat} (hi : i < n) :
    (window size l i).length = size := by
  have : (i + 1) * size ≤ n * size := Nat.mul_le_mul_right _ hi
  rw [window, List.length_take, List.length_drop, hl, Nat.succ_mul] at *
  omega

/-- The list from a window on is the window, then the list from the next. -/
theorem drop_eq_window_append (size : Nat) (l : List α) (i : Nat) :
    l.drop (i * size) = window size l i ++ l.drop ((i + 1) * size) := by
  rw [window, Nat.succ_mul, ← List.drop_drop, List.take_append_drop]

/-- A range of a list inside a window of it is that range of the window. -/
theorem drop_take_of_window (l : List α) (p q : Nat) {a n : Nat} (ha : p ≤ a) (hn : a + n ≤ p + q) :
    (l.drop a).take n = (((l.drop p).take q).drop (a - p)).take n := by
  rw [List.drop_take, List.take_take, List.drop_drop, Nat.add_sub_cancel' ha]
  congr 1
  omega

/-- A prefix read in two parts: the first `b` elements, and the rest of it. -/
theorem take_take_append_take_drop (l : List α) (b n : Nat) :
    (l.take b).take n ++ (l.drop b).take (n - b) = l.take n := by
  by_cases h : n ≤ b
  · rw [Nat.sub_eq_zero_of_le h, List.take_zero, List.append_nil, List.take_take, Nat.min_eq_left h]
  · rw [List.take_of_length_le (by simp; omega), ← List.take_add, Nat.add_sub_cancel' (by omega)]

/-- A read of `L` elements from `a`, cut at `a + r`. -/
theorem drop_take_split (l : List α) (a r L : Nat) :
    (l.drop a).take L = (l.drop a).take (min r L) ++ (l.drop (a + r)).take (L - r) := by
  by_cases h : L ≤ r
  · rw [Nat.min_eq_right h, Nat.sub_eq_zero_of_le h, List.take_zero, List.append_nil]
  · rw [Nat.min_eq_left (by omega), ← List.drop_drop, ← List.take_add, Nat.add_sub_cancel' (by omega)]

/-- Writing a window's worth over window `i` changes that window only. -/
theorem window_write {size n : Nat} {l x : List α} (hl : l.length = n * size) (hx : x.length = size)
    {i : Nat} (hi : i < n) (j : Nat) :
    window size (l.take (i * size) ++ x ++ l.drop (i * size + size)) j = if j = i then x else window size l j := by
  have htake : (l.take (i * size)).length = i * size := by
    rw [List.length_take, hl]
    exact Nat.min_eq_left (Nat.mul_le_mul_right _ (Nat.le_of_lt hi))
  rw [window, List.append_assoc]
  rcases Nat.lt_trichotomy j i with hji | rfl | hji
  · -- a window before: the write starts after it
    have hle : j * size + size ≤ i * size := by
      rw [← Nat.succ_mul]
      exact Nat.mul_le_mul_right _ hji
    rw [if_neg (Nat.ne_of_lt hji), List.drop_append_of_le_length (by omega),
      List.take_append_of_le_length (by rw [List.length_drop]; omega), List.drop_take, List.take_take,
      Nat.min_eq_left (by omega), window]
  · rw [if_pos rfl, List.drop_left' htake, List.take_left' hx]
  · -- a window after: the write ends before it
    have hle : i * size + size ≤ j * size := by
      rw [← Nat.succ_mul]
      exact Nat.mul_le_mul_right _ hji
    rw [if_neg (Nat.ne_of_gt hji), List.drop_append, List.drop_eq_nil_of_le (by omega), List.nil_append,
      List.drop_append, List.drop_eq_nil_of_le (by omega), List.nil_append, List.drop_drop, htake, hx, window,
      show i * size + size + (j * size - i * size - size) = j * size by omega]

/-- The first `n` windows, joined, are the first `n` windows' worth. -/
theorem flatten_map_window (size : Nat) (l : List α) :
    ∀ n, ((List.range n).map (window size l)).flatten = l.take (n * size)
  | 0 => by simp
  | n + 1 => by
    rw [List.range_succ, List.map_append, List.flatten_append, flatten_map_window size l n, List.map_singleton,
      List.flatten_singleton, window, Nat.succ_mul, List.take_add]

/-- Lists of `size` elements, joined, cut back into themselves. -/
theorem map_window_flatten {size : Nat} :
    ∀ {ls : List (List α)}, (∀ l ∈ ls, l.length = size) →
      (List.range ls.length).map (window size ls.flatten) = ls
  | [], _ => rfl
  | l :: ls, h => by
    have hl := h l List.mem_cons_self
    rw [List.length_cons, List.range_succ_eq_map, List.map_cons, List.map_map, List.flatten_cons]
    congr 1
    · rw [window, Nat.zero_mul, List.drop_zero, List.take_left' hl]
    · -- past the first window, the windows are those of the rest
      conv_rhs => rw [← map_window_flatten fun l' hl' => h l' (List.mem_cons_of_mem _ hl')]
      refine List.map_congr_left fun j _ => ?_
      rw [Function.comp_apply, window, window, Nat.succ_mul, List.drop_append,
        List.drop_eq_nil_of_le (by omega), List.nil_append, show j * size + size - l.length = j * size by omega]

/-- Window `j` of a range of windows is a window of the list. -/
theorem window_drop_take (size : Nat) (l : List α) {a b j : Nat} (hj : a + j < b) :
    window size ((l.take (b * size)).drop (a * size)) j = window size l (a + j) := by
  have hle : size ≤ b * size - (a * size + j * size) := by
    rw [← Nat.add_mul, ← Nat.sub_mul]
    exact Nat.le_mul_of_pos_left _ (by omega)
  rw [window, window, List.drop_drop, List.drop_take, List.take_take, Nat.min_eq_left hle, Nat.add_mul]

end Windows
