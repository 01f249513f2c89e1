import Mathlib.Data.List.Nodup

/-!
# Enumerable sets

A set kept as an enumerable map: a count, the element at each index below
it, and the index of each element. `Enumerates n get indexOf L` says that
the three read a list `L` without repeats, in index order. Adding pushes the
element at index `n`; removing moves the last element into the removed one's
index (`Vec::swap_remove`), so that no other element moves.

`Enumerates.push`, `Enumerates.removeLast` and `Enumerates.swapLast` say
what the three reads must become for each: the writes a store stages. Each
keeps `Enumerates`, of `L ++ [x]` and of `swapRemove L k`.
-/

namespace EnumerableSet

variable {α : Type}

/-- The list with the element at `k` replaced by the last one, and the last
one dropped. -/
def swapRemove (l : List α) (k : Nat) : List α :=
  match l.getLast? with
  | none => []
  | some last => (l.set k last).dropLast

/-- In a list without repeats, an element is at one index only. -/
theorem index_unique {l : List α} (hl : l.Nodup) {i j : Nat} {a : α} (hi : l[i]? = some a)
    (hj : l[j]? = some a) : i = j := by
  obtain ⟨hi', rfl⟩ := List.getElem?_eq_some_iff.mp hi
  obtain ⟨hj', hj⟩ := List.getElem?_eq_some_iff.mp hj
  exact ((hl.getElem_inj_iff).mp hj).symm

theorem getElem?_swapRemove {l : List α} {k : Nat} (hk : k < l.length) (i : Nat) :
    (swapRemove l k)[i]? = if i < l.length - 1 then (if i = k then l[l.length - 1]? else l[i]?) else none := by
  have hne : l ≠ [] := List.ne_nil_of_length_pos (by omega)
  obtain ⟨last, hlast⟩ : ∃ last, l.getLast? = some last := Option.isSome_iff_exists.mp (by simpa using hne)
  have hlast' : l[l.length - 1]? = some last := by rw [← List.getLast?_eq_getElem?, hlast]
  rw [swapRemove, hlast, List.getElem?_dropLast, List.length_set, hlast']
  split_ifs with hi hik <;> simp only [List.getElem?_set] <;> split_ifs <;> first | rfl | omega

theorem length_swapRemove {l : List α} {k : Nat} (hk : k < l.length) : (swapRemove l k).length = l.length - 1 := by
  have hne : l ≠ [] := List.ne_nil_of_length_pos (by omega)
  obtain ⟨last, hlast⟩ : ∃ last, l.getLast? = some last := Option.isSome_iff_exists.mp (by simpa using hne)
  rw [swapRemove, hlast, List.length_dropLast, List.length_set]

/-- Swap removal from a list without repeats keeps all but the removed
element. -/
theorem mem_swapRemove {l : List α} (hl : l.Nodup) {k : Nat} (hk : k < l.length) (y : α) :
    y ∈ swapRemove l k ↔ y ∈ l ∧ y ≠ l[k] := by
  simp only [List.mem_iff_getElem?, getElem?_swapRemove hk]
  constructor
  · rintro ⟨i, hi⟩
    split_ifs at hi with hlt hik
    · -- the last element, now at `k`: it is not the removed one
      refine ⟨⟨_, hi⟩, fun hy => ?_⟩
      have := index_unique hl hi (by rw [hy, List.getElem?_eq_getElem hk])
      omega
    · refine ⟨⟨i, hi⟩, fun hy => hik (index_unique hl hi (by rw [hy, List.getElem?_eq_getElem hk]))⟩
  · rintro ⟨⟨j, hj⟩, hne⟩
    have hjk : j ≠ k := fun h => hne (by subst h; simpa [List.getElem?_eq_getElem hk] using hj.symm)
    have hjl : j < l.length := (List.getElem?_eq_some_iff.mp hj).1
    rcases Nat.lt_or_ge j (l.length - 1) with hlt | hge
    · exact ⟨j, by rw [if_pos hlt, if_neg hjk, hj]⟩
    · -- the last element moved to `k`
      exact ⟨k, by rw [if_pos (by omega), if_pos rfl, show l.length - 1 = j by omega, hj]⟩

theorem nodup_swapRemove {l : List α} (hl : l.Nodup) {k : Nat} (hk : k < l.length) :
    (swapRemove l k).Nodup := by
  rw [List.nodup_iff_getElem?_ne_getElem?]
  intro i j hij hj heq
  rw [length_swapRemove hk] at hj
  have hi : i < l.length - 1 := by omega
  rw [getElem?_swapRemove hk, getElem?_swapRemove hk, if_pos hi, if_pos hj] at heq
  obtain ⟨a, ha⟩ : ∃ a, l[j]? = some a := ⟨l[j], List.getElem?_eq_getElem (by omega)⟩
  obtain ⟨b, hb⟩ : ∃ b, l[i]? = some b := ⟨l[i], List.getElem?_eq_getElem (by omega)⟩
  obtain ⟨c, hc⟩ : ∃ c, l[l.length - 1]? = some c := ⟨_, List.getElem?_eq_getElem (by omega)⟩
  -- the indices the two elements come from are distinct, so are the elements
  split_ifs at heq with hik hjk
  · omega
  · rw [hc, ha] at heq
    have := index_unique hl hc (heq ▸ ha)
    omega
  · rw [hb, hc] at heq
    have := index_unique hl hb (heq ▸ hc)
    omega
  · rw [hb, ha] at heq
    have := index_unique hl hb (heq ▸ ha)
    omega

theorem getElem?_append_singleton_eq_some {l : List α} {x y : α} {i : Nat} :
    (l ++ [x])[i]? = some y ↔ l[i]? = some y ∨ (i = l.length ∧ x = y) := by
  rw [List.getElem?_append, List.getElem?_singleton]
  split_ifs with hi hi'
  · simp only [iff_self_or, and_imp]
    intro; omega
  · simp only [Option.some.injEq, List.getElem?_eq_none (by omega : l.length ≤ i), reduceCtorEq, false_or]
    constructor
    · intro h; exact ⟨by omega, h⟩
    · exact fun h => h.2
  · simp only [reduceCtorEq, List.getElem?_eq_none (by omega : l.length ≤ i), false_or, false_iff, not_and]
    intro; omega

/-- The count, the reads by index and the reads by element of an enumerable
map hold the list `L`, without repeats: index `i` holds `L[i]`, and no
index from the count on holds anything. -/
structure Enumerates (n : Nat) (get : Nat → Option α) (indexOf : α → Option Nat) (L : List α) : Prop where
  count_eq : n = L.length
  nodup : L.Nodup
  get_eq : ∀ i, get i = L[i]?
  indexOf_eq : ∀ x i, indexOf x = some i ↔ L[i]? = some x

namespace Enumerates

variable {n : Nat} {get : Nat → Option α} {indexOf : α → Option Nat} {L : List α}

theorem isSome_indexOf_iff (h : Enumerates n get indexOf L) (x : α) : (indexOf x).isSome ↔ x ∈ L := by
  rw [Option.isSome_iff_exists, List.mem_iff_getElem?]
  exact exists_congr fun i => h.indexOf_eq x i

theorem index_lt (h : Enumerates n get indexOf L) {x : α} {k : Nat} (hk : indexOf x = some k) : k < n := by
  rw [h.count_eq]
  exact (List.getElem?_eq_some_iff.mp ((h.indexOf_eq x k).mp hk)).1

theorem isSome_get_of_lt (h : Enumerates n get indexOf L) {i : Nat} (hi : i < n) : (get i).isSome := by
  rw [h.get_eq, List.getElem?_eq_getElem (h.count_eq ▸ hi), Option.isSome_some]

/-- Adding a new element: it goes at index `n`, and the count grows. -/
theorem push [DecidableEq α] (h : Enumerates n get indexOf L) {x : α} (hx : x ∉ L) :
    Enumerates (n + 1) (Function.update get n (some x)) (Function.update indexOf x (some n)) (L ++ [x]) where
  count_eq := by rw [h.count_eq, List.length_append, List.length_singleton]
  nodup := List.nodup_append.mpr ⟨h.nodup, List.nodup_singleton x, fun a ha b hb hab => by
    rw [List.mem_singleton] at hb
    exact hx (hb ▸ hab ▸ ha)⟩
  get_eq i := by
    have hn := h.count_eq
    rw [Function.update_apply, h.get_eq, List.getElem?_append, List.getElem?_singleton]
    split_ifs <;> first | rfl | omega | exact List.getElem?_eq_none (by omega)
  indexOf_eq y i := by
    rw [getElem?_append_singleton_eq_some, ← h.indexOf_eq, ← h.count_eq]
    by_cases hy : y = x
    · -- the new element, at no index before
      subst hy
      have hnone : indexOf y = none := by
        rw [← Option.not_isSome_iff_eq_none, h.isSome_indexOf_iff]
        exact hx
      rw [Function.update_self, hnone]
      simp only [Option.some.injEq, reduceCtorEq, and_true, false_or]
      exact eq_comm
    · rw [Function.update_of_ne hy]
      simp only [Ne.symm hy, and_false, or_false]

section Remove

variable {x : α} {k : Nat}

/-- Removing the last element: its index and its entry go. -/
theorem removeLast [DecidableEq α] (h : Enumerates n get indexOf L) (hk : indexOf x = some k) (hlast : k = n - 1) :
    Enumerates (n - 1) (Function.update get k none) (Function.update indexOf x none) (swapRemove L k) := by
  have hkL : k < L.length := h.count_eq ▸ h.index_lt hk
  have hxk : L[k]? = some x := (h.indexOf_eq x k).mp hk
  rw [h.count_eq] at hlast
  refine ⟨by rw [h.count_eq, length_swapRemove hkL], nodup_swapRemove h.nodup hkL, fun i => ?_, fun y i => ?_⟩
  · rw [getElem?_swapRemove hkL, Function.update_apply, h.get_eq]
    split_ifs <;> first | rfl | omega | exact List.getElem?_eq_none (by omega)
  · rw [getElem?_swapRemove hkL]
    by_cases hyx : y = x
    · -- the removed element is at no index
      subst hyx
      rw [Function.update_self]
      simp only [reduceCtorEq, false_iff]
      intro hi
      split_ifs at hi with h1 h2
      · omega
      · exact h2 (index_unique h.nodup hi hxk)
    · rw [Function.update_of_ne hyx, h.indexOf_eq]
      constructor
      · intro hi
        -- an element other than the last is below it
        have hik : i ≠ k := fun e => hyx (Option.some_inj.mp ((e ▸ hi).symm.trans hxk))
        have hil : i < L.length := (List.getElem?_eq_some_iff.mp hi).1
        rw [if_pos (by omega), if_neg hik, hi]
      · intro hi
        split_ifs at hi with h1 h2
        · omega
        · exact hi

/-- Removing any other element: the last one moves into its index. -/
theorem swapLast [DecidableEq α] (h : Enumerates n get indexOf L) (hk : indexOf x = some k) (hne : k ≠ n - 1)
    {y : α} (hlast : get (n - 1) = some y) :
    Enumerates (n - 1) (Function.update (Function.update get k (some y)) (n - 1) none)
      (Function.update (Function.update indexOf x none) y (some k)) (swapRemove L k) := by
  have hkL : k < L.length := h.count_eq ▸ h.index_lt hk
  have hxk : L[k]? = some x := (h.indexOf_eq x k).mp hk
  have hyl : L[L.length - 1]? = some y := by rw [← h.get_eq, ← h.count_eq, hlast]
  rw [h.count_eq] at hne ⊢
  refine ⟨by rw [length_swapRemove hkL], nodup_swapRemove h.nodup hkL, fun i => ?_, fun z i => ?_⟩
  · rw [getElem?_swapRemove hkL, Function.update_apply, Function.update_apply, h.get_eq]
    split_ifs <;> first | rfl | omega | exact hyl.symm | exact List.getElem?_eq_none (by omega)
  · rw [getElem?_swapRemove hkL]
    by_cases hzy : z = y
    · -- the last element, now at `k`
      subst hzy
      rw [Function.update_self]
      constructor
      · rintro ⟨⟩
        rw [if_pos (by omega), if_pos rfl, hyl]
      · intro hi
        split_ifs at hi with h1 h2
        · rw [h2]
        · exact absurd (index_unique h.nodup hi hyl) (by omega)
    · rw [Function.update_of_ne hzy]
      by_cases hzx : z = x
      · -- the removed element is at no index
        subst hzx
        rw [Function.update_self]
        simp only [reduceCtorEq, false_iff]
        intro hi
        split_ifs at hi with h1 h2
        · exact hzy (Option.some_inj.mp (hi.symm.trans hyl))
        · exact h2 (index_unique h.nodup hi hxk)
      · rw [Function.update_of_ne hzx, h.indexOf_eq]
        constructor
        · intro hi
          -- neither the removed index nor the last one
          have hik : i ≠ k := fun e => hzx (Option.some_inj.mp ((e ▸ hi).symm.trans hxk))
          have hil : i ≠ L.length - 1 := fun e => hzy (Option.some_inj.mp ((e ▸ hi).symm.trans hyl))
          have hlt : i < L.length := (List.getElem?_eq_some_iff.mp hi).1
          rw [if_pos (by omega), if_neg hik, hi]
        · intro hi
          split_ifs at hi with h1 h2
          · exact absurd (Option.some_inj.mp (hi.symm.trans hyl)) hzy
          · exact hi

end Remove

end Enumerates

end EnumerableSet
