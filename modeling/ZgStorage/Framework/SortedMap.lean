import Mathlib

/-!
# Sorted maps

An ordered map (a `BTreeMap`) as the list of its entries: `insert` puts an
entry before the first greater key or over the entry of its key, `erase`
and `splitOff` drop entries, and iteration is the order of the list. What a
map holds at a key is `get?`, the first entry of the key; it is what every
operation is characterised by (`get?_insert`, `get?_erase`,
`get?_splitOff`), with no assumption on the order of the list.
-/

namespace SortedMap

variable {κ ν : Type} [LinearOrder κ]

/-- `insert`: the entry before the first greater key, or over the entry of
its key. -/
def insert : List (κ × ν) → κ → ν → List (κ × ν)
  | [], k, v => [(k, v)]
  | (k', v') :: rest, k, v =>
    if k < k' then (k, v) :: (k', v') :: rest
    else if k = k' then (k, v) :: rest
    else (k', v') :: insert rest k v

/-- A key above the first stays behind it. -/
theorem insert_cons_of_lt {k k' : κ} (h : k < k') (v v' : ν) (m : List (κ × ν)) :
    insert ((k, v) :: m) k' v' = (k, v) :: insert m k' v' := by
  simp [insert, not_lt_of_gt h, ne_of_gt h]

/-- `remove`. -/
def erase (m : List (κ × ν)) (k : κ) : List (κ × ν) := m.filter fun e => e.1 ≠ k

/-- `split_off`: the entries with keys below `k` stay. -/
def splitOff (m : List (κ × ν)) (k : κ) : List (κ × ν) := m.filter fun e => e.1 < k

/-- `get`: the value of the first entry of the key. -/
def get? (m : List (κ × ν)) (k : κ) : Option ν := (m.find? fun e => e.1 = k).map (·.2)

@[simp] theorem get?_nil (k : κ) : get? ([] : List (κ × ν)) k = none := rfl

theorem mem_of_get? {m : List (κ × ν)} {k : κ} {v : ν} (h : get? m k = some v) : (k, v) ∈ m := by
  obtain ⟨e, he, rfl⟩ := Option.map_eq_some_iff.mp h
  have hk : e.1 = k := by simpa using List.find?_some he
  rw [← hk]
  exact List.mem_of_find?_eq_some he

/-- The first entry of a key is the one `get?` finds. -/
theorem get?_cons (k' : κ) (v' : ν) (m : List (κ × ν)) (k : κ) :
    get? ((k', v') :: m) k = if k' = k then some v' else get? m k := by
  by_cases h : k' = k <;> simp [get?, h]

@[simp] theorem get?_insert (m : List (κ × ν)) (k : κ) (v : ν) (k'' : κ) :
    get? (insert m k v) k'' = if k = k'' then some v else get? m k'' := by
  induction m with
  | nil => simp [insert, get?_cons]
  | cons e rest ih =>
    obtain ⟨k', v'⟩ := e
    simp only [insert]
    split
    · simp [get?_cons]
    · split
      · rename_i heq
        subst heq
        by_cases h : k = k'' <;> simp [get?_cons, h]
      · rw [get?_cons, ih, get?_cons]
        by_cases h : k = k'' <;> by_cases h' : k' = k'' <;> simp_all

/-- What a filter on the keys keeps. -/
theorem get?_filter (m : List (κ × ν)) (p : κ → Bool) (k : κ) :
    get? (m.filter fun e => p e.1) k = if p k then get? m k else none := by
  induction m with
  | nil => simp
  | cons e rest ih =>
    obtain ⟨k', v'⟩ := e
    rw [List.filter_cons]
    by_cases h : k' = k
    · subst h
      by_cases hp : p k' <;> simp [hp, get?_cons, ih]
    · by_cases hp : p k' <;> simp [hp, get?_cons, h, ih]

@[simp] theorem get?_erase (m : List (κ × ν)) (k k'' : κ) :
    get? (erase m k) k'' = if k = k'' then none else get? m k'' := by
  have hf := get?_filter m (fun x => decide (x ≠ k)) k''
  rw [erase, hf]
  by_cases h : k = k''
  · simp [h]
  · simp [Ne.symm h, h]

@[simp] theorem get?_splitOff (m : List (κ × ν)) (k k'' : κ) :
    get? (splitOff m k) k'' = if k'' < k then get? m k'' else none := by
  have hf := get?_filter m (fun x => decide (x < k)) k''
  simp only [decide_eq_true_eq] at hf
  rw [splitOff, hf]

/-- Erasing a key the map holds drops an entry. -/
theorem length_erase_lt {m : List (κ × ν)} {k : κ} {v : ν} (h : get? m k = some v) :
    (erase m k).length < m.length := by
  rw [erase, List.length_filter_lt_length_iff_exists]
  exact ⟨(k, v), mem_of_get? h, by simp⟩

/-- Inserting the keys of a list, all with one value. -/
theorem get?_foldl_insert (xs : List κ) (v : ν) (m : List (κ × ν)) (k : κ) :
    get? (xs.foldl (fun s x => insert s x v) m) k = if k ∈ xs then some v else get? m k := by
  induction xs generalizing m with
  | nil => simp
  | cons x xs ih =>
    rw [List.foldl_cons, ih, get?_insert]
    by_cases h : k ∈ xs
    · simp [h]
    · by_cases hx : x = k
      · simp [h, hx]
      · simp [h, hx, Ne.symm hx]

end SortedMap
