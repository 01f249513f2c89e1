import Mathlib.Data.List.Basic

/-!
# A map in the order of insertion

A map that iterates its keys in the order they were entered (`hashlink`'s
`LinkedHashMap`), as the list of its entries. `get?` reads the first entry
of a key; `set` replaces that entry in place, or enters the key at the back;
`remove` takes it out and returns its value; the front of the map is the
head of the list.

`sumOf` sums a count over the values, and each operation moves it by the
values it changes: `set` by the new value less the old (`sumOf_set`),
`remove` by the value it returns (`sumOf_remove`). A store that keeps a
total of such counts beside the map keeps it exact through these.
-/

namespace LinkedMap

variable {κ ν : Type}

/-- A count summed over the values. -/
def sumOf (f : ν → Nat) : List (κ × ν) → Nat
  | [] => 0
  | e :: m => f e.2 + sumOf f m

@[simp] theorem sumOf_nil (f : ν → Nat) : sumOf f ([] : List (κ × ν)) = 0 := rfl

@[simp] theorem sumOf_cons (f : ν → Nat) (e : κ × ν) (m : List (κ × ν)) :
    sumOf f (e :: m) = f e.2 + sumOf f m := rfl

/-- Entries dropped from the front take their counts with them. -/
theorem sumOf_dropWhile_le (f : ν → Nat) (p : κ × ν → Bool) (m : List (κ × ν)) :
    sumOf f (m.dropWhile p) ≤ sumOf f m := by
  induction m with
  | nil => exact Nat.le_refl _
  | cons e rest ih =>
    rw [List.dropWhile_cons]
    split
    · rw [sumOf_cons]
      exact Nat.le_trans ih (Nat.le_add_left _ _)
    · exact Nat.le_refl _

variable [DecidableEq κ]

/-- The value of a key. -/
def get? : List (κ × ν) → κ → Option ν
  | [], _ => none
  | (k', v) :: rest, k => if k' = k then some v else get? rest k

/-- The map with `k` at `v`: in place where `k` is, at the back where it is
not. -/
def set : List (κ × ν) → κ → ν → List (κ × ν)
  | [], k, v => [(k, v)]
  | (k', v') :: rest, k, v => if k' = k then (k, v) :: rest else (k', v') :: set rest k v

/-- The value of `k`, and the map without it. -/
def remove : List (κ × ν) → κ → Option ν × List (κ × ν)
  | [], _ => (none, [])
  | (k', v) :: rest, k =>
    if k' = k then (some v, rest) else ((remove rest k).1, (k', v) :: (remove rest k).2)

variable {m : List (κ × ν)} {k : κ} {v : ν}

theorem get?_set (m : List (κ × ν)) (k k' : κ) (v : ν) :
    get? (set m k v) k' = if k = k' then some v else get? m k' := by
  induction m with
  | nil => rfl
  | cons e rest ih =>
    obtain ⟨k₀, v₀⟩ := e
    by_cases h : k₀ = k
    · subst h
      simp only [set, if_true, get?]
      split <;> rfl
    · simp only [set, if_neg h, get?, ih]
      by_cases h' : k₀ = k'
      · subst h'
        simp [Ne.symm h]
      · simp [h']

theorem fst_remove (m : List (κ × ν)) (k : κ) : (remove m k).1 = get? m k := by
  induction m with
  | nil => rfl
  | cons e rest ih =>
    obtain ⟨k₀, v₀⟩ := e
    simp only [remove, get?]
    split
    · rfl
    · exact ih

theorem mem_of_get? (h : get? m k = some v) : (k, v) ∈ m := by
  induction m with
  | nil => nomatch h
  | cons e rest ih =>
    obtain ⟨k₀, v₀⟩ := e
    simp only [get?] at h
    split at h
    · rename_i hk
      cases h
      subst hk
      exact List.mem_cons_self
    · exact List.mem_cons_of_mem _ (ih h)

theorem mem_of_mem_set {e : κ × ν} (h : e ∈ set m k v) : e ∈ m ∨ e = (k, v) := by
  induction m with
  | nil => exact .inr (List.mem_singleton.mp h)
  | cons e' rest ih =>
    simp only [set] at h
    split at h
    · rcases List.mem_cons.mp h with rfl | h
      · exact .inr rfl
      · exact .inl (List.mem_cons_of_mem _ h)
    · rcases List.mem_cons.mp h with rfl | h
      · exact .inl List.mem_cons_self
      · exact (ih h).imp_left (List.mem_cons_of_mem _)

theorem mem_of_mem_remove {e : κ × ν} (h : e ∈ (remove m k).2) : e ∈ m := by
  induction m with
  | nil => nomatch h
  | cons e' rest ih =>
    simp only [remove] at h
    split at h
    · exact List.mem_cons_of_mem _ h
    · rcases List.mem_cons.mp h with rfl | h
      · exact List.mem_cons_self
      · exact List.mem_cons_of_mem _ (ih h)

/-- `set` adds the new value and takes out the old one, if there was one. -/
theorem sumOf_set (f : ν → Nat) (m : List (κ × ν)) (k : κ) (v : ν) :
    sumOf f (set m k v) + ((get? m k).map f).getD 0 = sumOf f m + f v := by
  induction m with
  | nil => simp [set, get?]
  | cons e rest ih =>
    obtain ⟨k₀, v₀⟩ := e
    by_cases h : k₀ = k
    · subst h
      simp only [set, get?, if_true, sumOf_cons, Option.map_some, Option.getD_some]
      omega
    · simp only [set, get?, if_neg h, sumOf_cons]
      omega

/-- `remove` takes out the value it returns. -/
theorem sumOf_remove (f : ν → Nat) (m : List (κ × ν)) (k : κ) :
    sumOf f (remove m k).2 + (((remove m k).1).map f).getD 0 = sumOf f m := by
  induction m with
  | nil => rfl
  | cons e rest ih =>
    obtain ⟨k₀, v₀⟩ := e
    by_cases h : k₀ = k
    · simp only [remove, if_pos h, sumOf_cons, Option.map_some, Option.getD_some]
      omega
    · simp only [remove, if_neg h, sumOf_cons]
      omega

end LinkedMap
