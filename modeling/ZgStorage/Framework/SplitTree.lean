import Mathlib.Data.List.Basic
import Mathlib.Tactic.Ring
import ZgStorage.Framework.Pow2

/-!
# Trees of a list split at a power of two

The tree over a list of leaves whose left subtree holds the largest power of
two of them below their number and whose right subtree holds the rest: its
root (`root`), and the proof of a leaf, the root of the other side and
whether the leaf is on the left at each split from the top (`proof`).
Climbing a proof from its leaf, bottom first, gives the root
(`climb_proof`).

Built layer by layer, node `p` of layer `l` holds the leaves of
`chunk L l p`: `2 ^ l` of them from `p * 2 ^ l` on, or fewer at the end.
`chunk_succ` splits a node's leaves into its two children's, and
`root_chunk_succ`, `proof_chunk_succ` say that a node is its two children
hashed when the right one has leaves, and its left child when not; the
nodes below a node are the nodes of the tree over its leaves (`chunk_chunk`).

Cut into `blocks` of distinct powers of two, largest first, the leaves'
root is the right fold of the blocks' roots (`root_eq_foldr_blocks`).
-/

namespace SplitTree

variable {α : Type}

section Climb

variable (node : α → α → α)

/-- Hash `h` up a proof given bottom first: with the other side on the right
when `h` is on the left. -/
def climb (h : α) : List (α × Bool) → α
  | [] => h
  | (s, isLeft) :: rest => climb (if isLeft then node h s else node s h) rest

variable {node}

theorem climb_append (h : α) (l₁ l₂ : List (α × Bool)) :
    climb node h (l₁ ++ l₂) = climb node (climb node h l₁) l₂ := by
  induction l₁ generalizing h with
  | nil => rfl
  | cons e l₁ ih => exact ih _

end Climb

/-! ### The layers -/

/-- The leaves under node `p` of layer `l`. -/
def chunk (L : List α) (l p : Nat) : List α := (L.drop (p * 2 ^ l)).take (2 ^ l)

theorem length_chunk (L : List α) (l p : Nat) : (chunk L l p).length = min (2 ^ l) (L.length - p * 2 ^ l) := by
  rw [chunk, List.length_take, List.length_drop]

theorem chunk_eq_nil_iff {L : List α} {l p : Nat} : chunk L l p = [] ↔ L.length ≤ p * 2 ^ l := by
  rw [← List.length_eq_zero_iff, length_chunk]
  have := Nat.two_pow_pos l
  omega

/-- A node's leaves are its two children's. -/
theorem chunk_succ (L : List α) (l p : Nat) : chunk L (l + 1) p = chunk L l (2 * p) ++ chunk L l (2 * p + 1) := by
  unfold chunk
  rw [Nat.pow_succ, Nat.mul_two, List.take_add, List.drop_drop]
  congr 3 <;> ring

theorem chunk_top {L : List α} {l : Nat} (h : L.length ≤ 2 ^ l) : chunk L l 0 = L := by
  rw [chunk, Nat.zero_mul, List.drop_zero, List.take_of_length_le h]

theorem chunk_zero {L : List α} {p : Nat} (h : p < L.length) : chunk L 0 p = [L[p]] := by
  rw [chunk, Nat.pow_zero, Nat.mul_one, List.drop_eq_getElem_cons h]
  rfl

/-- Leaf `i` is leaf `i % 2 ^ l` of node `i / 2 ^ l` of layer `l`. -/
theorem getElem_chunk {L : List α} {l i : Nat} (hi : i < L.length) (h : i % 2 ^ l < (chunk L l (i / 2 ^ l)).length) :
    (chunk L l (i / 2 ^ l))[i % 2 ^ l] = L[i] := by
  simp only [chunk, List.getElem_take, List.getElem_drop, Nat.div_add_mod']

/-- The left child of a node whose right child has leaves is full. -/
theorem length_chunk_left {L : List α} {l p : Nat} (h : chunk L l (2 * p + 1) ≠ []) :
    (chunk L l (2 * p)).length = 2 ^ l := by
  rw [Ne, chunk_eq_nil_iff] at h
  rw [length_chunk]
  have : 2 * p * 2 ^ l + 2 ^ l = (2 * p + 1) * 2 ^ l := by ring
  omega

theorem length_chunk_le (L : List α) (l p : Nat) : (chunk L l p).length ≤ 2 ^ l := by
  rw [length_chunk]
  omega

/-- Node `p` of layer `l` within the leaves of node `q` of a layer `j` above
it is node `q * 2 ^ (j - l) + p` of layer `l`. -/
theorem chunk_chunk (L : List α) {j l : Nat} (hl : l ≤ j) (q : Nat) {p : Nat} (hp : p < 2 ^ (j - l)) :
    chunk (chunk L j q) l p = chunk L l (q * 2 ^ (j - l) + p) := by
  have hj : 2 ^ j = 2 ^ (j - l) * 2 ^ l := by rw [← Nat.pow_add, Nat.sub_add_cancel hl]
  have hfit : p * 2 ^ l + 2 ^ l ≤ 2 ^ j := by
    rw [hj, ← Nat.succ_mul]
    exact Nat.mul_le_mul_right _ hp
  unfold chunk
  rw [List.drop_take, List.take_take, List.drop_drop, Nat.min_eq_left (by omega), Nat.add_mul, Nat.mul_assoc, ← hj]

/-- A left child of `2 ^ l` leaves and a right child with leaves split where
the tree over both splits. -/
theorem below_length_append {A B : List α} {l : Nat} (hA : A.length = 2 ^ l) (hB : B ≠ []) (hB' : B.length ≤ 2 ^ l) :
    Pow2.below (A ++ B).length = 2 ^ l := by
  have := List.length_pos_of_ne_nil hB
  apply Pow2.below_eq
  · rw [List.length_append]
    omega
  · rw [List.length_append, Nat.pow_succ]
    omega

section Root

variable [Inhabited α] (node : α → α → α)

/-- The root: a leaf is its own root, and more leaves split at the largest
power of two below their number. -/
def root (L : List α) : α :=
  if _h : L.length ≤ 1 then L.headD default
  else node (root (L.take (Pow2.below L.length))) (root (L.drop (Pow2.below L.length)))
termination_by L.length
decreasing_by
  · rw [List.length_take]
    have := Pow2.below_lt (show 2 ≤ L.length by omega)
    omega
  · rw [List.length_drop]
    have := Pow2.below_pos L.length
    omega

/-- The proof of leaf `i`, from the top: at each split the root of the
other side, and whether the leaf is on the left. -/
def proof (L : List α) (i : Nat) : List (α × Bool) :=
  if _h : L.length ≤ 1 then []
  else if i < Pow2.below L.length then
    (root node (L.drop (Pow2.below L.length)), true) :: proof (L.take (Pow2.below L.length)) i
  else (root node (L.take (Pow2.below L.length)), false) ::
    proof (L.drop (Pow2.below L.length)) (i - Pow2.below L.length)
termination_by L.length
decreasing_by
  · rw [List.length_take]
    have := Pow2.below_lt (show 2 ≤ L.length by omega)
    omega
  · rw [List.length_drop]
    have := Pow2.below_pos L.length
    omega

/-- The sibling of node `j` of layer `l`, when it has leaves: its root, and
whether node `j` is on the left. -/
def sibling (L : List α) (l j : Nat) : List (α × Bool) :=
  if j % 2 = 0 then (if chunk L l (j + 1) = [] then [] else [(root node (chunk L l (j + 1)), true)])
  else [(root node (chunk L l (j - 1)), false)]

variable {node}

theorem root_singleton (a : α) : root node [a] = a := by
  rw [root, dif_pos (by simp)]
  rfl

theorem root_of_two_le {L : List α} (h : 2 ≤ L.length) :
    root node L = node (root node (L.take (Pow2.below L.length))) (root node (L.drop (Pow2.below L.length))) := by
  rw [root, dif_neg (by omega)]

/-- The root of some leaves is one of them or a node. -/
theorem root_mem_or_node {L : List α} (h : L ≠ []) : root node L ∈ L ∨ ∃ a b, root node L = node a b := by
  by_cases h1 : L.length ≤ 1
  · obtain ⟨a, rfl⟩ : ∃ a, L = [a] :=
      List.length_eq_one_iff.mp (by have := List.length_pos_of_ne_nil h; omega)
    rw [root_singleton]
    exact Or.inl (List.mem_singleton_self a)
  · exact Or.inr ⟨_, _, root_of_two_le (by omega)⟩

theorem proof_of_le_one {L : List α} (h : L.length ≤ 1) (i : Nat) : proof node L i = [] := by
  rw [proof, dif_pos h]

theorem proof_of_lt {L : List α} (h : 2 ≤ L.length) {i : Nat} (hi : i < Pow2.below L.length) :
    proof node L i =
      (root node (L.drop (Pow2.below L.length)), true) :: proof node (L.take (Pow2.below L.length)) i := by
  rw [proof, dif_neg (by omega), if_pos hi]

theorem proof_of_le {L : List α} (h : 2 ≤ L.length) {i : Nat} (hi : Pow2.below L.length ≤ i) :
    proof node L i = (root node (L.take (Pow2.below L.length)), false) ::
      proof node (L.drop (Pow2.below L.length)) (i - Pow2.below L.length) := by
  rw [proof, dif_neg (by omega), if_neg (by omega)]

theorem proof_ne_nil {L : List α} (h : 2 ≤ L.length) (i : Nat) : proof node L i ≠ [] := by
  by_cases hi : i < Pow2.below L.length
  · rw [proof_of_lt h hi]
    exact List.cons_ne_nil _ _
  · rw [proof_of_le h (by omega)]
    exact List.cons_ne_nil _ _

/-- Climbing the proof of a leaf from the leaf gives the root. -/
theorem climb_proof (L : List α) (i : Nat) (hi : i < L.length) :
    climb node L[i] (proof node L i).reverse = root node L := by
  induction hL : L.length using Nat.strong_induction_on generalizing L i with
  | _ n ih =>
    by_cases h1 : n ≤ 1
    · -- one leaf, its own root
      obtain ⟨a, rfl⟩ : ∃ a, L = [a] := List.length_eq_one_iff.mp (by omega)
      obtain rfl : i = 0 := by simp at hi; omega
      rw [proof_of_le_one (by simp), root_singleton]
      rfl
    · have h2 : 2 ≤ L.length := by omega
      have hk := Pow2.below_lt h2
      by_cases hik : i < Pow2.below L.length
      · -- the leaf is on the left: the right side's root is the last sibling
        have hlt : i < (L.take (Pow2.below L.length)).length := by rw [List.length_take]; omega
        have := ih _ (by rw [← hL, List.length_take]; omega) (L.take (Pow2.below L.length)) i hlt rfl
        rw [List.getElem_take] at this
        rw [proof_of_lt h2 hik, List.reverse_cons, climb_append, this, root_of_two_le h2]
        rfl
      · -- the leaf is on the right: the left side's root is the last sibling
        have hlt : i - Pow2.below L.length < (L.drop (Pow2.below L.length)).length := by
          rw [List.length_drop]
          omega
        have := ih _ (by rw [← hL, List.length_drop]; have := Pow2.below_pos L.length; omega)
          (L.drop (Pow2.below L.length)) (i - Pow2.below L.length) hlt rfl
        have hidx : Pow2.below L.length + (i - Pow2.below L.length) = i := by omega
        rw [List.getElem_drop] at this
        simp only [hidx] at this
        rw [proof_of_le h2 (by omega), List.reverse_cons, climb_append, this, root_of_two_le h2]
        rfl

theorem root_chunk_succ (L : List α) (l p : Nat) :
    root node (chunk L (l + 1) p) = if chunk L l (2 * p + 1) = [] then root node (chunk L l (2 * p))
      else node (root node (chunk L l (2 * p))) (root node (chunk L l (2 * p + 1))) := by
  rw [chunk_succ]
  split_ifs with h
  · rw [h, List.append_nil]
  · have hA := length_chunk_left h
    have hk := below_length_append hA h (length_chunk_le L l (2 * p + 1))
    have h2 : 2 ≤ (chunk L l (2 * p) ++ chunk L l (2 * p + 1)).length := by
      have := List.length_pos_of_ne_nil h
      have := Nat.two_pow_pos l
      rw [List.length_append]
      omega
    rw [root_of_two_le h2, hk, List.take_left' hA, List.drop_left' hA]

theorem proof_chunk_succ (L : List α) (l p i : Nat) :
    proof node (chunk L (l + 1) p) i = if chunk L l (2 * p + 1) = [] then proof node (chunk L l (2 * p)) i
      else if i < 2 ^ l then (root node (chunk L l (2 * p + 1)), true) :: proof node (chunk L l (2 * p)) i
      else (root node (chunk L l (2 * p)), false) :: proof node (chunk L l (2 * p + 1)) (i - 2 ^ l) := by
  rw [chunk_succ]
  split_ifs with h hi
  · rw [h, List.append_nil]
  · have hA := length_chunk_left h
    have hk := below_length_append hA h (length_chunk_le L l (2 * p + 1))
    have h2 : 2 ≤ (chunk L l (2 * p) ++ chunk L l (2 * p + 1)).length := by
      have := List.length_pos_of_ne_nil h
      have := Nat.two_pow_pos l
      rw [List.length_append]
      omega
    rw [proof_of_lt h2 (by rw [hk]; exact hi), hk, List.take_left' hA, List.drop_left' hA]
  · have hA := length_chunk_left h
    have hk := below_length_append hA h (length_chunk_le L l (2 * p + 1))
    have h2 : 2 ≤ (chunk L l (2 * p) ++ chunk L l (2 * p + 1)).length := by
      have := List.length_pos_of_ne_nil h
      have := Nat.two_pow_pos l
      rw [List.length_append]
      omega
    rw [proof_of_le h2 (by rw [hk]; omega), hk, List.take_left' hA, List.drop_left' hA]

/-- Going up a layer, the proof of a leaf within its node gains the node's
sibling, when that has leaves. -/
theorem proof_chunk_succ_reverse {L : List α} {i : Nat} (hi : i < L.length) (l : Nat) :
    (proof node (chunk L (l + 1) (i / 2 ^ (l + 1))) (i % 2 ^ (l + 1))).reverse =
      (proof node (chunk L l (i / 2 ^ l)) (i % 2 ^ l)).reverse ++ sibling node L l (i / 2 ^ l) := by
  have hdiv : i / 2 ^ (l + 1) = i / 2 ^ l / 2 := by rw [Nat.div_div_eq_div_mul, Nat.pow_succ]
  have hmod : i % 2 ^ (l + 1) = i % 2 ^ l + 2 ^ l * (i / 2 ^ l % 2) := Nat.mod_pow_succ
  have hlt := Nat.mod_lt i (Nat.two_pow_pos l)
  have hj := Nat.div_add_mod (i / 2 ^ l) 2
  rw [proof_chunk_succ, hdiv, hmod, sibling]
  rcases Nat.mod_two_eq_zero_or_one (i / 2 ^ l) with h0 | h1
  · -- the node is a left child: its sibling is the right one, if that has leaves
    rw [h0, Nat.mul_zero, if_pos rfl, show 2 * (i / 2 ^ l / 2) = i / 2 ^ l by omega]
    simp only [Nat.add_zero]
    by_cases hR : chunk L l (i / 2 ^ l + 1) = []
    · rw [if_pos hR, if_pos hR, List.append_nil]
    · rw [if_neg hR, if_neg hR, if_pos hlt, List.reverse_cons]
  · -- the node is a right child, so it has leaves, and its sibling is the left one
    have hne : chunk L l (i / 2 ^ l) ≠ [] := by
      rw [Ne, chunk_eq_nil_iff]
      have := Nat.div_mul_le_self i (2 ^ l)
      omega
    rw [h1, Nat.mul_one, show 2 * (i / 2 ^ l / 2) + 1 = i / 2 ^ l by omega,
      show 2 * (i / 2 ^ l / 2) = i / 2 ^ l - 1 by omega, if_neg hne,
      if_neg (show ¬ i % 2 ^ l + 2 ^ l < 2 ^ l by omega), Nat.add_sub_cancel, if_neg Nat.one_ne_zero,
      List.reverse_cons]

end Root

end SplitTree
