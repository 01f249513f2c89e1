import Mathlib

/-!
# Priority queues of keyed items

A priority queue in the manner of the `priority_queue` crate: each item at
most once, with its priority, and an item of the greatest priority at the
top. It is an association list of the items (`AList`), seen through
`lookup`, and each operation is stated by what it does to that view
(`lookup_push`, `lookup_changePriority`, `lookup_remove`, `lookup_pop`).
`peek` returns an item of the greatest priority (`peek_spec`); which of
equal ones is left to a `TopChoice`, as the crate leaves it to its heap, and
everything here holds for any choice.

`AList.sumOf` adds a measure up over the values of an association list;
taking one key out takes its value's measure off (`sumOf_of_lookup`,
`sumOf_insert`).
-/

namespace AList

variable {K β : Type}

/-- The sum of `f` over the values. -/
def sumOf (f : β → Nat) (s : AList (fun _ : K => β)) : Nat := (s.entries.map fun e => f e.2).sum

theorem sumOf_empty (f : β → Nat) : sumOf f (∅ : AList (fun _ : K => β)) = 0 := rfl

/-- Counting one for each value, the sum is the length. -/
theorem sumOf_one (s : AList (fun _ : K => β)) : sumOf (fun _ => 1) s = s.entries.length := by
  simp [sumOf]

variable [DecidableEq K]

/-- An association list is empty exactly when no key has a value. -/
theorem entries_eq_nil_iff {s : AList (fun _ : K => β)} : s.entries = [] ↔ ∀ k, s.lookup k = none := by
  constructor
  · intro h k
    rw [AList.lookup_eq_none]
    show k ∉ s.entries.keys
    simp [h]
  · intro h
    apply List.eq_nil_iff_forall_not_mem.mpr
    intro e he
    have := h e.1
    rw [AList.mem_lookup_iff.mpr he] at this
    cases this

/-- Erasing a key that has no value changes nothing. -/
theorem erase_of_lookup_eq_none {s : AList (fun _ : K => β)} {k : K} (h : s.lookup k = none) : s.erase k = s :=
  AList.ext (List.kerase_of_notMem_keys (AList.lookup_eq_none.mp h))

/-- The sum is the value at a key plus the sum over the others. -/
theorem sumOf_of_lookup (f : β → Nat) {s : AList (fun _ : K => β)} {k : K} {b : β} (h : s.lookup k = some b) :
    sumOf f s = f b + sumOf f (s.erase k) := by
  have hk : k ∈ s.entries.keys := AList.mem_keys.mp (AList.lookup_isSome.mp (by rw [h]; rfl))
  -- the list is the entries before `k`, the entry of `k`, and those after
  obtain ⟨b', l₁, l₂, -, hs, herase⟩ := List.exists_of_kerase hk
  have hb : b' = b := by
    have hmem : (⟨k, b'⟩ : Sigma fun _ : K => β) ∈ s.entries := by simp [hs]
    exact Option.some.inj ((AList.mem_lookup_iff.mpr hmem).symm.trans h)
  subst hb
  have herase' : (s.erase k).entries = s.entries.kerase k := rfl
  rw [sumOf, sumOf, herase', herase, hs]
  simp only [List.map_append, List.map_cons, List.sum_append, List.sum_cons]
  omega

theorem sumOf_insert (f : β → Nat) (s : AList (fun _ : K => β)) (k : K) (b : β) :
    sumOf f (s.insert k b) = f b + sumOf f (s.erase k) := by
  have herase : (s.erase k).entries = s.entries.kerase k := rfl
  simp only [sumOf, AList.entries_insert, herase, List.map_cons, List.sum_cons]

/-- Erasing a key with a value takes one entry off. -/
theorem length_erase_of_lookup {s : AList (fun _ : K => β)} {k : K} {b : β} (h : s.lookup k = some b) :
    (s.erase k).entries.length + 1 = s.entries.length := by
  have := sumOf_of_lookup (fun _ => 1) h
  rw [sumOf_one, sumOf_one] at this
  omega

theorem length_insert (s : AList (fun _ : K => β)) (k : K) (b : β) :
    (s.insert k b).entries.length = (s.erase k).entries.length + 1 := by
  have := sumOf_insert (fun _ => 1) s k b
  rw [sumOf_one, sumOf_one] at this
  omega

theorem length_erase_le (s : AList (fun _ : K => β)) (k : K) : (s.erase k).entries.length ≤ s.entries.length := by
  cases h : s.lookup k with
  | none => rw [erase_of_lookup_eq_none h]
  | some b => have := length_erase_of_lookup h; omega

/-- A value's measure is at most the sum. -/
theorem le_sumOf (f : β → Nat) {s : AList (fun _ : K => β)} {k : K} {b : β} (h : s.lookup k = some b) :
    f b ≤ sumOf f s := by
  rw [sumOf_of_lookup f h]
  omega

end AList

/-- A priority queue: its items, each with its priority. -/
structure PriorityQueue (K P : Type) where
  items : AList (fun _ : K => P)

namespace PriorityQueue

variable {K P : Type}

/-- `PriorityQueue::default`: no item. -/
def empty : PriorityQueue K P := ⟨∅⟩

/-- `PriorityQueue::len`. -/
def len (q : PriorityQueue K P) : Nat := q.items.entries.length

/-- The greater of the best item so far and another; the first of equal
ones. -/
def better [LinearOrder P] (best : Option (K × P)) (e : Sigma fun _ : K => P) : Option (K × P) :=
  if best.all fun b => b.2 < e.2 then some (e.1, e.2) else best

/-- Along a list, the best item is the best so far or one of the list, and
no priority before it or in the list is greater. -/
theorem foldl_better_spec [LinearOrder P] (l : List (Sigma fun _ : K => P)) (best : Option (K × P)) {k : K} {p : P}
    (h : l.foldl better best = some (k, p)) :
    (best = some (k, p) ∨ ⟨k, p⟩ ∈ l) ∧ (∀ b, best = some b → b.2 ≤ p) ∧ ∀ e ∈ l, e.2 ≤ p := by
  induction l generalizing best with
  | nil =>
    cases h
    exact ⟨Or.inl rfl, fun b hb => by cases hb; exact le_rfl, fun e he => absurd he List.not_mem_nil⟩
  | cons e l ih =>
    obtain ⟨hmem, hbest, hl⟩ := ih _ h
    unfold better at hmem hbest
    split at hmem
    · -- `e` is the best so far
      rename_i hlt
      have he : e.2 ≤ p := hbest _ (by rw [if_pos hlt])
      refine ⟨?_, fun b hb => ?_, fun e' he' => ?_⟩
      · rcases hmem with hmem | hmem
        · cases hmem
          exact Or.inr List.mem_cons_self
        · exact Or.inr (List.mem_cons_of_mem e hmem)
      · rw [hb, Option.all_some, decide_eq_true_eq] at hlt
        exact le_of_lt (lt_of_lt_of_le hlt he)
      · rcases List.mem_cons.mp he' with rfl | he'
        · exact he
        · exact hl e' he'
    · -- the best so far stays
      rename_i hlt
      rw [if_neg hlt] at hbest
      refine ⟨hmem.imp id (List.mem_cons_of_mem e), hbest, fun e' he' => ?_⟩
      rcases List.mem_cons.mp he' with rfl | he'
      · cases hb : best with
        | none => simp [hb] at hlt
        | some b =>
          rw [hb, Option.all_some, decide_eq_true_eq] at hlt
          exact le_trans (le_of_not_gt hlt) (hbest b hb)
      · exact hl e' he'

/-- Along a list with an item, there is a best one. -/
theorem foldl_better_isSome [LinearOrder P] (l : List (Sigma fun _ : K => P)) (best : Option (K × P))
    (h : best.isSome ∨ l ≠ []) : (l.foldl better best).isSome := by
  induction l generalizing best with
  | nil => simpa using h
  | cons e l ih =>
    apply ih
    left
    unfold better
    split
    · rfl
    · rename_i hlt
      cases best with
      | none => simp at hlt
      | some b => rfl

/-- Which item a queue gives up first: of a list of items, one of the
greatest priority, and nothing only of the empty list. The crate takes the
top of its heap, and leaves which of equal ones that is to the heap's
layout; the queues here are stated for any choice. -/
class TopChoice (K P : Type) [LinearOrder P] where
  top : List (Sigma fun _ : K => P) → Option (K × P)
  mem_of_top : ∀ {l : List (Sigma fun _ : K => P)} {k : K} {p : P}, top l = some (k, p) → ⟨k, p⟩ ∈ l
  le_of_top : ∀ {l : List (Sigma fun _ : K => P)} {k : K} {p : P}, top l = some (k, p) → ∀ e ∈ l, e.2 ≤ p
  eq_nil_of_top : ∀ {l : List (Sigma fun _ : K => P)}, top l = none → l = []

/-- The first item of the greatest priority, a choice that runs. -/
instance firstTop [LinearOrder P] : TopChoice K P where
  top l := l.foldl better none
  mem_of_top h := (foldl_better_spec _ none h).1.resolve_left (by simp)
  le_of_top h := (foldl_better_spec _ none h).2.2
  eq_nil_of_top {l} h := by
    by_contra hne
    have hsome := foldl_better_isSome l none (Or.inr hne)
    rw [h] at hsome
    exact absurd hsome (by simp)

variable [DecidableEq K]

/-- The priority of an item, if it is in the queue. -/
def lookup (q : PriorityQueue K P) (k : K) : Option P := q.items.lookup k

/-- `push`: the item with this priority, in place of its old one if it was
in the queue. -/
def push (q : PriorityQueue K P) (k : K) (p : P) : PriorityQueue K P := ⟨q.items.insert k p⟩

/-- `change_priority`: the new priority of an item in the queue. -/
def changePriority (q : PriorityQueue K P) (k : K) (p : P) : PriorityQueue K P :=
  if (q.lookup k).isSome then ⟨q.items.insert k p⟩ else q

/-- `remove`: the item and its priority, if it was in the queue, and the
queue without it. -/
def remove (q : PriorityQueue K P) (k : K) : Option (K × P) × PriorityQueue K P :=
  ((q.lookup k).map fun p => (k, p), ⟨q.items.erase k⟩)

section Order

variable [LinearOrder P] [TopChoice K P]

/-- `peek`: an item of the greatest priority, with it. -/
def peek (q : PriorityQueue K P) : Option (K × P) := TopChoice.top q.items.entries

/-- `pop`: an item of the greatest priority, with it, and the queue without
it. -/
def pop (q : PriorityQueue K P) : Option (K × P) × PriorityQueue K P :=
  (q.peek, q.peek.elim q fun top => ⟨q.items.erase top.1⟩)

/-- `peek` returns an item of the queue, of a priority no other item
exceeds. -/
theorem peek_spec {q : PriorityQueue K P} {k : K} {p : P} (h : q.peek = some (k, p)) :
    q.lookup k = some p ∧ ∀ k' p', q.lookup k' = some p' → p' ≤ p :=
  ⟨AList.mem_lookup_iff.mpr (TopChoice.mem_of_top h),
    fun k' p' h' => TopChoice.le_of_top h ⟨k', p'⟩ (AList.mem_lookup_iff.mp h')⟩

/-- `peek` returns nothing only on an empty queue. -/
theorem peek_eq_none_iff {q : PriorityQueue K P} : q.peek = none ↔ ∀ k, q.lookup k = none := by
  show q.peek = none ↔ ∀ k, q.items.lookup k = none
  rw [← AList.entries_eq_nil_iff]
  constructor
  · exact TopChoice.eq_nil_of_top
  · intro h
    cases htop : q.peek with
    | none => rfl
    | some top =>
      have hmem := TopChoice.mem_of_top (l := q.items.entries) htop
      rw [h] at hmem
      exact absurd hmem List.not_mem_nil

theorem pop_fst (q : PriorityQueue K P) : q.pop.1 = q.peek := rfl

theorem pop_of_peek_none {q : PriorityQueue K P} (h : q.peek = none) : q.pop.2 = q := by
  rw [pop, h]
  rfl

theorem lookup_pop {q : PriorityQueue K P} {k : K} {p : P} (h : q.peek = some (k, p)) (k' : K) :
    q.pop.2.lookup k' = if k' = k then none else q.lookup k' := by
  simp only [pop, h, Option.elim_some, lookup]
  split
  · rename_i hk
    rw [hk, AList.lookup_erase]
  · rename_i hk
    rw [AList.lookup_erase_ne hk]

end Order

theorem lookup_empty (k : K) : (empty : PriorityQueue K P).lookup k = none := rfl

theorem lookup_push (q : PriorityQueue K P) (k : K) (p : P) (k' : K) :
    (q.push k p).lookup k' = if k' = k then some p else q.lookup k' := by
  simp only [push, lookup]
  split
  · rename_i hk
    rw [hk, AList.lookup_insert]
  · rename_i hk
    rw [AList.lookup_insert_ne hk]

theorem lookup_changePriority (q : PriorityQueue K P) (k : K) (p : P) (k' : K) :
    (q.changePriority k p).lookup k' = if k' = k then (q.lookup k).map fun _ => p else q.lookup k' := by
  unfold changePriority
  split
  · rename_i hin
    obtain ⟨p₀, hp₀⟩ := Option.isSome_iff_exists.mp hin
    show (q.push k p).lookup k' = _
    rw [lookup_push, hp₀]
    rfl
  · rename_i hin
    split
    · rename_i hk
      subst hk
      cases hl : q.lookup k' with
      | none => rfl
      | some p₀ => simp [hl] at hin
    · rfl

theorem remove_fst (q : PriorityQueue K P) (k : K) : (q.remove k).1 = (q.lookup k).map fun p => (k, p) := rfl

theorem lookup_remove (q : PriorityQueue K P) (k : K) (k' : K) :
    (q.remove k).2.lookup k' = if k' = k then none else q.lookup k' := by
  simp only [remove, lookup]
  split
  · rename_i hk
    rw [hk, AList.lookup_erase]
  · rename_i hk
    rw [AList.lookup_erase_ne hk]

end PriorityQueue
