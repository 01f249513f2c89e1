import Mathlib.Data.List.Basic
import Mathlib.Data.List.Perm.Basic
import Mathlib.Data.List.Pairwise
import Mathlib.Algebra.GroupWithZero.Nat

/-!
# Runs of cells as a partial map

A store that knows some of its cells keeps the known ones as runs: a run
holds `data` from cell `start` on, and a list of runs reads cell `i` from
the first run that holds it. Kept with no empty run and each run stopping
strictly before every later one starts (`Separated`), a list of runs is the
canonical form of what it holds. `binarySearchByKey` is the lower-bound
search on a list sorted by a key that finds the run to look at.

* `Separated.ext`: two separated lists that hold the same cells are equal;
* `get_insert`, `Separated.insert`: a run put between two parts of a list,
  away from both;
* `get_perm`: the order of pairwise disjoint runs does not matter;
* `binarySearchByKey_ok`, `binarySearchByKey_error`: the search on a list
  sorted by a strictly increasing key.
-/

namespace Runs

variable {α : Type}

/-- A run: `data` in the cells `start`, `start + 1`, …. -/
structure Run (α : Type) where
  start : Nat
  data : List α
  deriving DecidableEq, Repr

namespace Run

/-- The first cell after the run. -/
def stop (r : Run α) : Nat := r.start + r.data.length

/-- Cell `i` of a run, if the run holds it. -/
def get (r : Run α) (i : Nat) : Option α :=
  if r.start ≤ i then r.data[i - r.start]? else none

/-- Two runs with no cell in common. -/
def Disjoint (r r' : Run α) : Prop := r.stop ≤ r'.start ∨ r'.stop ≤ r.start

theorem get_of_lt {r : Run α} {i : Nat} (h : i < r.start) : r.get i = none := by
  simp [get, Nat.not_le.mpr h]

theorem get_of_stop_le {r : Run α} {i : Nat} (h : r.stop ≤ i) : r.get i = none := by
  unfold get stop at *
  split
  · exact List.getElem?_eq_none (by omega)
  · rfl

theorem get_isSome_iff {r : Run α} {i : Nat} : (r.get i).isSome ↔ r.start ≤ i ∧ i < r.stop := by
  unfold get stop
  split
  · rw [Option.isSome_iff_ne_none, Ne, List.getElem?_eq_none_iff]
    omega
  · simp only [Option.isSome_none, Bool.false_eq_true, false_iff, not_and]
    omega

theorem start_le_of_get {r : Run α} {i : Nat} {a : α} (h : r.get i = some a) :
    r.start ≤ i ∧ i < r.stop :=
  get_isSome_iff.mp (by rw [h]; rfl)

/-- A run holds its first cell unless it is empty. -/
theorem get_start_isSome {r : Run α} (h : r.data ≠ []) : (r.get r.start).isSome := by
  rw [get_isSome_iff]
  have := List.length_pos_of_ne_nil h
  unfold stop
  omega

/-- A run extended on the right holds its old cells and the new ones
after them. -/
theorem get_append (a : Nat) (d₁ d₂ : List α) (i : Nat) :
    (Run.mk a (d₁ ++ d₂)).get i = ((Run.mk a d₁).get i).or ((Run.mk (a + d₁.length) d₂).get i) := by
  unfold get
  dsimp only
  by_cases ha : a ≤ i
  · by_cases h₁ : i - a < d₁.length
    · rw [if_pos ha, if_pos ha, List.getElem?_append_left h₁, List.getElem?_eq_getElem h₁]
      rfl
    · rw [if_pos ha, if_pos ha, List.getElem?_append_right (by omega),
        List.getElem?_eq_none (show d₁.length ≤ i - a by omega), Option.none_or, if_pos (by omega),
        show i - a - d₁.length = i - (a + d₁.length) by omega]
  · rw [if_neg ha, if_neg ha, if_neg (by omega)]
    rfl

/-- A run read in front of another read: the run's cells, the other read
elsewhere. -/
theorem get_or_eq_ite (r : Run α) (o : Option α) (i : Nat) :
    (r.get i).or o = if r.start ≤ i ∧ i < r.stop then r.data[i - r.start]? else o := by
  unfold get stop
  by_cases h₁ : r.start ≤ i
  · by_cases h₂ : i < r.start + r.data.length
    · rw [if_pos h₁, if_pos ⟨h₁, h₂⟩, List.getElem?_eq_getElem (by omega)]
      rfl
    · rw [if_pos h₁, if_neg (fun h => h₂ h.2), List.getElem?_eq_none (by omega), Option.none_or]
  · rw [if_neg h₁, if_neg (fun h => h₁ h.1), Option.none_or]

theorem Disjoint.symm {r r' : Run α} (h : r.Disjoint r') : r'.Disjoint r := Or.symm h

/-- Of two disjoint runs, one does not hold a given cell. -/
theorem Disjoint.get_eq_none {r r' : Run α} (h : r.Disjoint r') (i : Nat) :
    r.get i = none ∨ r'.get i = none := by
  rcases h with h | h
  · by_cases hi : i < r'.start
    · exact Or.inr (get_of_lt hi)
    · exact Or.inl (get_of_stop_le (by omega))
  · by_cases hi : i < r.start
    · exact Or.inl (get_of_lt hi)
    · exact Or.inr (get_of_stop_le (by omega))

end Run

/-- Two reads of which one is `none` can be taken in either order. -/
theorem or_comm_of_none {a b : Option α} (h : a = none ∨ b = none) : a.or b = b.or a := by
  rcases h with rfl | rfl
  · rw [Option.none_or, Option.or_none]
  · rw [Option.none_or, Option.or_none]

/-- Cell `i` of a list of runs: the first run that holds it. -/
def get (l : List (Run α)) (i : Nat) : Option α := l.findSome? (·.get i)

@[simp] theorem get_nil (i : Nat) : get ([] : List (Run α)) i = none := rfl

theorem get_cons (r : Run α) (l : List (Run α)) (i : Nat) :
    get (r :: l) i = (r.get i).or (get l i) := by
  unfold get
  rw [List.findSome?_cons]
  cases r.get i <;> rfl

theorem get_append (l₁ l₂ : List (Run α)) (i : Nat) :
    get (l₁ ++ l₂) i = (get l₁ i).or (get l₂ i) := by
  induction l₁ with
  | nil => rfl
  | cons r l₁ ih => rw [List.cons_append, get_cons, get_cons, ih, Option.or_assoc]

theorem get_eq_none {l : List (Run α)} {i : Nat} (h : ∀ r ∈ l, r.get i = none) : get l i = none :=
  List.findSome?_eq_none_iff.mpr h

/-- A run of the list that holds a cell makes the list hold it. -/
theorem get_isSome_of_mem {l : List (Run α)} {r : Run α} (hr : r ∈ l) {i : Nat} (h : (r.get i).isSome) :
    (get l i).isSome := by
  cases hg : get l i with
  | some _ => rfl
  | none =>
    rw [List.findSome?_eq_none_iff.mp hg r hr] at h
    cases h

/-- A cell the list holds is held by one of its runs. -/
theorem exists_of_get {l : List (Run α)} {i : Nat} {a : α} (h : get l i = some a) :
    ∃ r ∈ l, r.get i = some a :=
  List.exists_of_findSome?_eq_some h

/-- Past its head, a list reads as its tail. -/
theorem get_cons_of_stop_le {i : Nat} {r : Run α} {rs : List (Run α)}
    (h : r.stop ≤ i) : get (r :: rs) i = get rs i := by
  rw [get_cons, Run.get_of_stop_le h, Option.none_or]

/-- A run put in a list after the runs that stop before it: the list reads
the run's cells from it. -/
theorem get_insert {pre post : List (Run α)} {r : Run α} (hpre : ∀ q ∈ pre, q.stop ≤ r.start)
    (i : Nat) : get (pre ++ r :: post) i = (r.get i).or (get (pre ++ post) i) := by
  rw [get_append, get_cons, get_append]
  cases hr : r.get i with
  | none => rw [Option.none_or, Option.none_or]
  | some a =>
    have hi := (Run.start_le_of_get hr).1
    rw [get_eq_none fun q hq => Run.get_of_stop_le (Nat.le_trans (hpre q hq) hi), Option.none_or]
    rfl

/-- In a list of pairwise disjoint runs, a cell reads as the one run that
holds it. -/
theorem get_eq_some_iff {l : List (Run α)} (hl : l.Pairwise Run.Disjoint) {i : Nat} {a : α} :
    get l i = some a ↔ ∃ r ∈ l, r.get i = some a := by
  induction l with
  | nil => simp
  | cons r₀ l ih =>
    rw [List.pairwise_cons] at hl
    rw [get_cons, Option.or_eq_some_iff, ih hl.2]
    constructor
    · rintro (h | ⟨-, r, hr, h⟩)
      · exact ⟨r₀, List.mem_cons_self, h⟩
      · exact ⟨r, List.mem_cons_of_mem r₀ hr, h⟩
    · rintro ⟨r, hr, h⟩
      rcases List.mem_cons.mp hr with rfl | hr
      · exact Or.inl h
      · -- the head is disjoint from `r`, which holds the cell
        have h₀ : r₀.get i = none := by
          rcases (hl.1 r hr).get_eq_none i with h₀ | h₀
          · exact h₀
          · rw [h₀] at h
            cases h
        exact Or.inr ⟨h₀, r, hr, h⟩

/-- The order of pairwise disjoint runs does not change what they hold. -/
theorem get_perm {l l' : List (Run α)} (hp : l.Perm l') (hl : l.Pairwise Run.Disjoint) (i : Nat) :
    get l i = get l' i := by
  have hl' : l'.Pairwise Run.Disjoint := (hp.pairwise_iff Run.Disjoint.symm).mp hl
  apply Option.ext
  intro a
  rw [get_eq_some_iff hl, get_eq_some_iff hl']
  simp only [hp.mem_iff]

/-- No empty run, and each run stopping strictly before every later one
starts: sorted, and no two runs touching. -/
structure Separated (l : List (Run α)) : Prop where
  ne_nil : ∀ r ∈ l, r.data ≠ []
  pairwise : l.Pairwise fun r r' => r.stop < r'.start

theorem separated_nil : Separated ([] : List (Run α)) := ⟨by simp, List.Pairwise.nil⟩

theorem Separated.sublist {l l' : List (Run α)} (hs : l.Sublist l') (h : Separated l') : Separated l :=
  ⟨fun r hr => h.ne_nil r (hs.subset hr), h.pairwise.sublist hs⟩

theorem Separated.of_cons {r : Run α} {rs : List (Run α)} (h : Separated (r :: rs)) : Separated rs :=
  h.sublist (List.sublist_cons_self r rs)

theorem Separated.lt_start {r : Run α} {rs : List (Run α)} (h : Separated (r :: rs)) :
    ∀ q ∈ rs, r.stop < q.start :=
  (List.pairwise_cons.mp h.pairwise).1

theorem Separated.disjoint {l : List (Run α)} (h : Separated l) : l.Pairwise Run.Disjoint :=
  h.pairwise.imp fun hlt => Or.inl (Nat.le_of_lt hlt)

/-- A run put between two parts of a separated list, stopping before the
second starts and starting after the first stops, keeps it separated. -/
theorem Separated.insert {pre post : List (Run α)} {r : Run α} (h : Separated (pre ++ post))
    (hr : r.data ≠ []) (hpre : ∀ q ∈ pre, q.stop < r.start) (hpost : ∀ q ∈ post, r.stop < q.start) :
    Separated (pre ++ r :: post) := by
  obtain ⟨hne, hpw⟩ := h
  rw [List.pairwise_append] at hpw
  refine ⟨fun q hq => ?_, List.pairwise_append.mpr ⟨hpw.1, List.pairwise_cons.mpr ⟨hpost, hpw.2.1⟩, ?_⟩⟩
  · rcases List.mem_append.mp hq with hq | hq
    · exact hne q (List.mem_append_left _ hq)
    · rcases List.mem_cons.mp hq with rfl | hq
      · exact hr
      · exact hne q (List.mem_append_right _ hq)
  · intro a ha b hb
    rcases List.mem_cons.mp hb with rfl | hb
    · exact hpre a ha
    · exact hpw.2.2 a ha b hb

/-- Before the first run of a separated list, nothing is held. -/
theorem Separated.get_of_lt_start {r : Run α} {rs : List (Run α)} (h : Separated (r :: rs))
    {i : Nat} (hi : i < r.start) : get (r :: rs) i = none := by
  rw [get_cons, Run.get_of_lt hi, Option.none_or]
  refine get_eq_none fun q hq => Run.get_of_lt ?_
  have := h.lt_start q hq
  unfold Run.stop at this
  omega

/-- Within the head of a separated list, the list reads as its head. -/
theorem Separated.get_of_lt_stop {r : Run α} {rs : List (Run α)} (h : Separated (r :: rs))
    {i : Nat} (hi : i < r.stop) : get (r :: rs) i = r.get i := by
  rw [get_cons, get_eq_none fun q hq => Run.get_of_lt (Nat.lt_trans hi (h.lt_start q hq)),
    Option.or_none]

/-- The head of a separated list holds its first cell. -/
theorem Separated.get_start {r : Run α} {rs : List (Run α)} (h : Separated (r :: rs)) :
    (get (r :: rs) r.start).isSome := by
  have hs := Run.get_start_isSome (h.ne_nil r List.mem_cons_self)
  have hlt : r.start < r.stop := (Run.get_isSome_iff.mp hs).2
  rw [h.get_of_lt_stop hlt]
  exact hs

/-- A run replaced by one within it, with some data, keeps a list
separated. -/
theorem Separated.set {l : List (Run α)} (h : Separated l) {i : Nat} (hi : i < l.length) {r : Run α}
    (hne : r.data ≠ []) (hstart : l[i].start ≤ r.start) (hstop : r.stop ≤ l[i].stop) : Separated (l.set i r) := by
  refine ⟨fun q hq => ?_, List.pairwise_iff_getElem.mpr fun a b ha hb hab => ?_⟩
  · rcases List.mem_or_eq_of_mem_set hq with hq | rfl
    · exact h.ne_nil q hq
    · exact hne
  · have hpw := List.pairwise_iff_getElem.mp h.pairwise
    rw [List.length_set] at ha hb
    rw [List.getElem_set, List.getElem_set]
    -- the new run stands where the old one did, inside its cells
    split_ifs with h₁ h₂ h₂
    · omega
    · subst h₁
      exact Nat.lt_of_le_of_lt hstop (hpw i b ha hb hab)
    · subst h₂
      exact Nat.lt_of_lt_of_le (hpw a i ha hb hab) hstart
    · exact hpw a b ha hb hab

/-- The runs of a separated list that start from `lo` on and stop by `B`
hold at most `B - lo` cells between them. -/
theorem Separated.sum_length_le : ∀ {l : List (Run α)} (lo B : Nat), Separated l →
    (∀ r ∈ l, lo ≤ r.start ∧ r.stop ≤ B) → (l.map fun r => r.data.length).sum ≤ B - lo
  | [], _, _, _, _ => by simp
  | r :: rs, lo, B, h, hb => by
    have hr := hb r List.mem_cons_self
    -- the later runs start after the head stops
    have ih := Separated.sum_length_le r.stop B h.of_cons fun q hq =>
      ⟨Nat.le_of_lt (h.lt_start q hq), (hb q (List.mem_cons_of_mem r hq)).2⟩
    rw [List.map_cons, List.sum_cons]
    unfold Run.stop at hr ih
    omega

/-- A list with no empty run has no more runs than cells. -/
theorem Separated.length_le_sum : ∀ {l : List (Run α)}, Separated l → l.length ≤ (l.map fun r => r.data.length).sum
  | [], _ => Nat.le_refl 0
  | r :: rs, h => by
    have hr := List.length_pos_of_ne_nil (h.ne_nil r List.mem_cons_self)
    have ih := Separated.length_le_sum h.of_cons
    rw [List.map_cons, List.sum_cons, List.length_cons]
    omega

/-- Separated lists are the canonical form of what they hold: two that hold
the same cells are equal. -/
theorem Separated.ext : ∀ {l l' : List (Run α)}, Separated l → Separated l' →
    (∀ i, get l i = get l' i) → l = l'
  | [], [], _, _, _ => rfl
  | [], r :: rs, _, h', hget => by
    have := h'.get_start
    rw [← hget] at this
    cases this
  | r :: rs, [], h, _, hget => by
    have := h.get_start
    rw [hget] at this
    cases this
  | r :: rs, r' :: rs', h, h', hget => by
    -- the heads start at the first cell held, and stop at the first cell
    -- after it that is not held
    have hstart : r.start = r'.start := by
      rcases Nat.lt_trichotomy r.start r'.start with hlt | heq | hlt
      · have := h.get_start
        rw [hget, h'.get_of_lt_start hlt] at this
        cases this
      · exact heq
      · have := h'.get_start
        rw [← hget, h.get_of_lt_start hlt] at this
        cases this
    have hstop : r.stop = r'.stop := by
      rcases Nat.lt_trichotomy r.stop r'.stop with hlt | heq | hlt
      · have hs : (r'.get r.stop).isSome := by
          rw [Run.get_isSome_iff]
          have := List.length_pos_of_ne_nil (h.ne_nil r List.mem_cons_self)
          unfold Run.stop at *
          omega
        rw [← h'.get_of_lt_stop hlt, ← hget, get_cons_of_stop_le (Nat.le_refl _),
          get_eq_none fun q hq => Run.get_of_lt (h.lt_start q hq)] at hs
        cases hs
      · exact heq
      · have hs : (r.get r'.stop).isSome := by
          rw [Run.get_isSome_iff]
          have := List.length_pos_of_ne_nil (h'.ne_nil r' List.mem_cons_self)
          unfold Run.stop at *
          omega
        rw [← h.get_of_lt_stop hlt, hget, get_cons_of_stop_le (Nat.le_refl _),
          get_eq_none fun q hq => Run.get_of_lt (h'.lt_start q hq)] at hs
        cases hs
    have hlen : r.data.length = r'.data.length := by
      unfold Run.stop at hstop
      omega
    have hdata : r.data = r'.data := by
      refine List.ext_getElem hlen fun n h₁ h₂ => ?_
      have hread := hget (r.start + n)
      rw [h.get_of_lt_stop (by unfold Run.stop; omega),
        h'.get_of_lt_stop (by unfold Run.stop at *; omega)] at hread
      simp only [Run.get, Nat.le_add_right, ↓reduceIte, Nat.add_sub_cancel_left, hstart,
        List.getElem?_eq_getElem h₁, List.getElem?_eq_getElem h₂, Option.some.injEq] at hread
      exact hread
    -- past the heads, the tails hold the same cells
    have htail : ∀ i, get rs i = get rs' i := fun i => by
      by_cases hi : r.stop ≤ i
      · have e₁ : get (r :: rs) i = get rs i := get_cons_of_stop_le hi
        have e₂ : get (r' :: rs') i = get rs' i := get_cons_of_stop_le (hstop ▸ hi)
        rw [← e₁, ← e₂, hget]
      · rw [get_eq_none fun q hq => Run.get_of_lt (by have := h.lt_start q hq; omega),
          get_eq_none fun q hq => Run.get_of_lt (by have := h'.lt_start q hq; omega)]
    have hr : r = r' := by
      cases r
      cases r'
      simp only at hstart hdata
      rw [hstart, hdata]
    rw [hr, Separated.ext h.of_cons h'.of_cons htail]

/-- `insertIdx` at a position within the list, as a split of it. -/
theorem insertIdx_eq_take_drop (a : α) :
    ∀ (l : List α) (i : Nat), i ≤ l.length → l.insertIdx i a = l.take i ++ a :: l.drop i
  | l, 0, _ => by rw [List.insertIdx_zero, List.take_zero, List.drop_zero, List.nil_append]
  | [], _ + 1, h => by simp at h
  | b :: l, i + 1, h => by
    rw [List.insertIdx_succ_cons, insertIdx_eq_take_drop a l i (by simp at h; omega)]
    rfl

/-- Inserting an element after those related to it and before those it is
related to keeps a list pairwise related. -/
theorem pairwise_insertIdx {R : α → α → Prop} {l : List α} {i : Nat} {a : α} (hi : i ≤ l.length)
    (hl : l.Pairwise R) (hbefore : ∀ (j : Nat) (hj : j < l.length), j < i → R l[j] a)
    (hafter : ∀ (j : Nat) (hj : j < l.length), i ≤ j → R a l[j]) : (l.insertIdx i a).Pairwise R := by
  rw [insertIdx_eq_take_drop a l i hi, List.pairwise_append, List.pairwise_cons]
  refine ⟨hl.sublist (List.take_sublist i l), ⟨?_, hl.sublist (List.drop_sublist i l)⟩, ?_⟩
  · intro b hb
    obtain ⟨k, hk, rfl⟩ := List.mem_iff_getElem.mp hb
    rw [List.getElem_drop]
    exact hafter (i + k) (by simp at hk; omega) (by omega)
  · intro x hx y hy
    obtain ⟨k, hk, rfl⟩ := List.mem_iff_getElem.mp hx
    have hk' : k < i := by simp at hk; omega
    rw [List.getElem_take]
    rcases List.mem_cons.mp hy with rfl | hy
    · exact hbefore k (by omega) hk'
    · obtain ⟨k', hk'', rfl⟩ := List.mem_iff_getElem.mp hy
      rw [List.getElem_drop]
      exact List.pairwise_iff_getElem.mp hl k (i + k') (by omega) (by simp at hk''; omega) (by omega)

section Search

variable {β : Type} (key : β → Nat)

/-- `binary_search_by_key` on a list sorted by `key`: `ok i` when element `i`
has key `x`, and `error i` when no element has, `i` of them having a key
below `x`. On a list whose keys strictly increase this is the only answer
the search may give. -/
def binarySearchByKey (x : Nat) : List β → Except Nat Nat
  | [] => .error 0
  | b :: l =>
    if key b < x then
      match binarySearchByKey x l with
      | .ok i => .ok (i + 1)
      | .error i => .error (i + 1)
    else if key b = x then .ok 0 else .error 0

variable {key}

theorem binarySearchByKey_ok {x : Nat} :
    ∀ {l : List β} {i : Nat}, binarySearchByKey key x l = .ok i → ∃ h : i < l.length, key l[i] = x
  | [], _, h => by cases h
  | b :: l, i, h => by
    unfold binarySearchByKey at h
    split at h
    · split at h
      · rename_i j hj
        cases h
        obtain ⟨hlt, hkey⟩ := binarySearchByKey_ok hj
        exact ⟨by simp; omega, hkey⟩
      · cases h
    · split at h
      · cases h
        exact ⟨by simp, by assumption⟩
      · cases h

/-- The search fails at the number of elements whose key is below `x`, and
every later element has a key above it. -/
theorem binarySearchByKey_error {x : Nat} :
    ∀ {l : List β}, l.Pairwise (fun b b' => key b < key b') → ∀ {i : Nat},
      binarySearchByKey key x l = .error i →
      i ≤ l.length ∧ ∀ (j : Nat) (hj : j < l.length), (j < i → key l[j] < x) ∧ (i ≤ j → x < key l[j])
  | [], _, _, h => by
    cases h
    exact ⟨Nat.le_refl _, fun j hj => absurd hj (Nat.not_lt_zero j)⟩
  | b :: l, hl, i, h => by
    rw [List.pairwise_cons] at hl
    unfold binarySearchByKey at h
    split at h
    · rename_i hb
      split at h
      · cases h
      · rename_i k hk
        cases h
        obtain ⟨hle, hrest⟩ := binarySearchByKey_error hl.2 hk
        refine ⟨by simp; omega, fun j hj => ?_⟩
        cases j with
        | zero => exact ⟨fun _ => hb, fun h => absurd h (by omega)⟩
        | succ j =>
          have := hrest j (by simpa using hj)
          exact ⟨fun h => this.1 (by omega), fun h => this.2 (by omega)⟩
    · rename_i hb
      split at h
      · cases h
      · rename_i hne
        cases h
        have hbx : x < key b := by omega
        refine ⟨Nat.zero_le _, fun j hj => ⟨fun h => absurd h (Nat.not_lt_zero j), fun _ => ?_⟩⟩
        cases j with
        | zero => exact hbx
        | succ j => exact Nat.lt_trans hbx (hl.1 _ (List.getElem_mem (by simpa using hj)))

/-- On a list whose keys strictly increase, found or not, the search answers
the number of elements whose key is below `x`. -/
theorem binarySearchByKey_lt_iff {x : Nat} {l : List β} (hl : l.Pairwise (fun b b' => key b < key b'))
    {i : Nat} (h : binarySearchByKey key x l = .ok i ∨ binarySearchByKey key x l = .error i) :
    i ≤ l.length ∧ ∀ (j : Nat) (hj : j < l.length), j < i ↔ key l[j] < x := by
  rcases h with h | h
  · obtain ⟨hi, hkey⟩ := binarySearchByKey_ok h
    refine ⟨Nat.le_of_lt hi, fun j hj => ⟨fun hji => ?_, fun hlt => ?_⟩⟩
    · rw [← hkey]
      exact List.pairwise_iff_getElem.mp hl j i hj hi hji
    · -- from `i` on the keys are at least `x`
      rcases Nat.lt_or_ge j i with hji | hij
      · exact hji
      · rcases Nat.eq_or_lt_of_le hij with rfl | hij
        · omega
        · have := List.pairwise_iff_getElem.mp hl i j hi hj hij
          omega
  · obtain ⟨hle, hall⟩ := binarySearchByKey_error hl h
    refine ⟨hle, fun j hj => ⟨(hall j hj).1, fun hlt => ?_⟩⟩
    by_contra hij
    have := (hall j hj).2 (by omega)
    omega

end Search

end Runs
