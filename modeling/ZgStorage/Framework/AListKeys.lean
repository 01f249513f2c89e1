import Mathlib.Data.List.AList
import Mathlib.Data.Finset.Card

/-!
# The keys of an association list whose value satisfies a predicate

`keysWhere q s` is the finset of the keys of `s` whose value satisfies `q`.
What it holds is read off `lookup` alone (`mem_keysWhere`), so its card is
compared between two maps key by key: it does not grow where no key gains
the predicate (`card_keysWhere_le`), and it shrinks where one key also loses
it (`card_keysWhere_lt`). A count of peers in some states, or of entries
still to change, is then a measure that an update moves by these rules.
-/

namespace AList

variable {κ ν : Type} [DecidableEq κ] {q : ν → Bool} {s s' : AList (fun _ : κ => ν)}

/-- The keys whose value satisfies `q`. -/
def keysWhere (q : ν → Bool) (s : AList (fun _ : κ => ν)) : Finset κ :=
  s.keys.toFinset.filter fun k => (s.lookup k).any q

theorem mem_keysWhere {k : κ} : k ∈ s.keysWhere q ↔ (s.lookup k).any q = true := by
  rw [keysWhere, Finset.mem_filter, List.mem_toFinset, ← mem_keys, and_iff_right_iff_imp]
  intro h
  obtain ⟨v, hv, -⟩ := (Option.any_eq_true q _).mp h
  exact lookup_isSome.mp (by rw [hv]; rfl)

theorem keysWhere_subset (h : ∀ k, (s'.lookup k).any q = true → (s.lookup k).any q = true) :
    s'.keysWhere q ⊆ s.keysWhere q :=
  fun k hk => mem_keysWhere.mpr (h k (mem_keysWhere.mp hk))

/-- No key gains the predicate: the count does not grow. -/
theorem card_keysWhere_le (h : ∀ k, (s'.lookup k).any q = true → (s.lookup k).any q = true) :
    (s'.keysWhere q).card ≤ (s.keysWhere q).card :=
  Finset.card_le_card (keysWhere_subset h)

/-- No key gains the predicate and one loses it: the count goes down. -/
theorem card_keysWhere_lt (h : ∀ k, (s'.lookup k).any q = true → (s.lookup k).any q = true) (k : κ)
    (hk' : (s'.lookup k).any q = false) (hk : (s.lookup k).any q = true) :
    (s'.keysWhere q).card < (s.keysWhere q).card := by
  refine Finset.card_lt_card ((Finset.ssubset_iff_of_subset (keysWhere_subset h)).mpr ⟨k, ?_, ?_⟩)
  · exact mem_keysWhere.mpr hk
  · rw [mem_keysWhere, hk']
    decide

theorem card_keysWhere_congr (h : ∀ k, (s'.lookup k).any q = (s.lookup k).any q) :
    (s'.keysWhere q).card = (s.keysWhere q).card :=
  Nat.le_antisymm (card_keysWhere_le fun k hk => h k ▸ hk) (card_keysWhere_le fun k hk => (h k).symm ▸ hk)

end AList
