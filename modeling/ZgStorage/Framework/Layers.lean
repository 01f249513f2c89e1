import Mathlib.Data.List.Basic
import Mathlib.Algebra.Order.Group.Nat

/-!
# Layers of a binary hash tree

A layer of a binary hash tree is built from the layer below it by pairing
neighbours: a full pair `a, b` gives `node a b`, and an odd last node `r`
gives `single r` (in a padded tree, `r` hashed with the padding of its
height). `levels` iterates this from the leaves, `depth` counts the layers
up to the first one with at most one node, `tower` lists those layers and
`root` is the node of the last one.

What the tree code needs of them:

* `up_length`, `up_getElem`: the shape and the nodes of a layer;
* `levels_length`: layer `k` over `n` leaves has `⌈n / 2ᵏ⌉` nodes;
* `levels_append_take`: appending leaves changes no node of layer `k`
  below position `n / 2ᵏ`, the nodes whose subtrees are full already;
* `depth_spec`, `depth_eq`: the layers below the top have at least two
  nodes, and this determines the number of layers;
* `getElem?_overwrite`: writing a run of nodes into a layer from a
  position on, extending it past its end.
-/

namespace Merkle

variable {α : Type*}

/-- The layer above `xs`: a full pair `a, b` gives `node a b`, an odd last
node `r` gives `single r`. -/
def up (node : α → α → α) (single : α → α) : List α → List α
  | a :: b :: rest => node a b :: up node single rest
  | [r] => [single r]
  | [] => []

/-- Layer `k` above the leaves `xs`; `single k` closes an odd layer `k`. -/
def levels (node : α → α → α) (single : Nat → α → α) (xs : List α) : Nat → List α
  | 0 => xs
  | k + 1 => up node (single k) (levels node single xs k)

/-- The number of layers of a tree over `n` leaves: layers are added until
one has at most one node. -/
def depth : Nat → Nat
  | 0 => 1
  | 1 => 1
  | n + 2 => depth ((n + 3) / 2) + 1

/-- The layers of the tree over `xs`, from the leaves to the root. -/
def tower (node : α → α → α) (single : Nat → α → α) (xs : List α) : List (List α) :=
  (List.range (depth xs.length)).map (levels node single xs)

/-- `xs` with the nodes from position `i` on replaced by `ps`, extended
where `ps` runs past its end. -/
def overwrite (xs : List α) (i : Nat) (ps : List α) : List α :=
  xs.take i ++ ps ++ xs.drop (i + ps.length)

/-- The root of the tree over `xs`: the node of its top layer. -/
def root (node : α → α → α) (single : Nat → α → α) (xs : List α) : Option α :=
  (levels node single xs (depth xs.length - 1)).head?

section Up

variable (node : α → α → α) (single : α → α)

@[simp] theorem up_nil : up node single [] = [] := rfl

@[simp] theorem up_singleton (r : α) : up node single [r] = [single r] := rfl

@[simp] theorem up_cons_cons (a b : α) (rest : List α) :
    up node single (a :: b :: rest) = node a b :: up node single rest := rfl

theorem up_length : ∀ xs : List α, (up node single xs).length = (xs.length + 1) / 2
  | [] => by simp
  | [_] => by simp
  | _ :: _ :: rest => by
    simp only [up_cons_cons, List.length_cons, up_length rest]
    omega

/-- A node of the layer above: the hash of a full pair, or of an odd last
node alone. -/
theorem up_getElem : ∀ (xs : List α) (j : Nat) (h : j < (up node single xs).length),
    (up node single xs)[j] =
      if h' : 2 * j + 1 < xs.length then node (xs.get ⟨2 * j, by omega⟩) (xs.get ⟨2 * j + 1, h'⟩)
      else single (xs.get ⟨2 * j, by rw [up_length] at h; omega⟩)
  | [], _, h => by simp at h
  | [r], j, h => by
    have : j = 0 := by simpa using h
    subst this
    simp
  | a :: b :: rest, 0, _ => by simp
  | a :: b :: rest, j + 1, h => by
    have hj : j < (up node single rest).length := by simpa using h
    simp only [up_cons_cons, List.getElem_cons_succ, up_getElem rest j hj, List.length_cons,
      Nat.mul_add, Nat.mul_one]
    by_cases h' : 2 * j + 1 < rest.length
    · rw [dif_pos h', dif_pos (by omega)]
      simp
    · rw [dif_neg h', dif_neg (by omega)]
      simp

theorem up_append_of_even : ∀ (xs ys : List α), xs.length % 2 = 0 →
    up node single (xs ++ ys) = up node single xs ++ up node single ys
  | [], _, _ => rfl
  | [_], _, h => by simp at h
  | a :: b :: rest, ys, h => by
    have : rest.length % 2 = 0 := by simp only [List.length_cons] at h; omega
    simp only [List.cons_append, up_cons_cons, up_append_of_even rest ys this]

/-- The first `m` nodes of the layer above depend on the first `2 m` nodes
only. -/
theorem up_take (xs : List α) {m : Nat} (hm : 2 * m ≤ xs.length) :
    (up node single xs).take m = up node single (xs.take (2 * m)) := by
  conv_lhs => rw [← List.take_append_drop (2 * m) xs]
  rw [up_append_of_even _ _ _ _ (by simp [List.length_take, Nat.min_eq_left hm]),
    List.take_append_of_le_length (by rw [up_length, List.length_take]; omega),
    List.take_of_length_le (by rw [up_length, List.length_take]; omega)]

/-- The nodes of the layer above from position `i` on depend on the nodes
from `2 i` on only. -/
theorem up_drop (xs : List α) {i : Nat} (hi : 2 * i ≤ xs.length) :
    up node single (xs.drop (2 * i)) = (up node single xs).drop i := by
  have hnil : (up node single (xs.take (2 * i))).drop i = [] :=
    List.drop_eq_nil_iff.mpr (by rw [up_length, List.length_take]; omega)
  conv_rhs => rw [← List.take_append_drop (2 * i) xs]
  rw [up_append_of_even _ _ _ _ (by simp [List.length_take, Nat.min_eq_left hi]),
    List.drop_append_of_le_length (by rw [up_length, List.length_take]; omega), hnil,
    List.nil_append]

/-- The layer above a window `[2 i, e)` of `xs` that ends at the end of
`xs` or at an even position is the window `[i, ⌈e / 2⌉)` of the layer
above `xs`. -/
theorem up_window (xs : List α) {i e : Nat} (hi : 2 * i ≤ e) (he : e ≤ xs.length)
    (hpar : e = xs.length ∨ e % 2 = 0) :
    up node single ((xs.drop (2 * i)).take (e - 2 * i)) =
      ((up node single xs).drop i).take ((e + 1) / 2 - i) := by
  rcases hpar with rfl | hev
  · rw [List.take_of_length_le (by simp), up_drop node single xs hi,
      List.take_of_length_le (by simp [up_length])]
  · rw [show e - 2 * i = 2 * ((e + 1) / 2 - i) by omega,
      ← up_take node single _ (by simp only [List.length_drop]; omega),
      up_drop node single xs (by omega)]

/-- A property of every node that leaves have and that both hashes keep. -/
theorem up_forall {P : α → Prop} (hn : ∀ a b, P a → P b → P (node a b)) (hs : ∀ a, P a → P (single a)) :
    ∀ xs : List α, (∀ x ∈ xs, P x) → ∀ y ∈ up node single xs, P y
  | [], _ => by simp
  | [r], h => by simpa using hs r (h r (by simp))
  | a :: b :: rest, h => by
    simp only [up_cons_cons, List.mem_cons, forall_eq_or_imp]
    exact ⟨hn a b (h a (by simp)) (h b (by simp)),
      up_forall hn hs rest fun x hx => h x (by simp [hx])⟩

/-- Two layers of one length that agree from position `e` on have layers
above them that agree from position `⌈e / 2⌉` on. -/
theorem up_getElem?_congr {xs ys : List α} (hl : xs.length = ys.length) {e : Nat}
    (h : ∀ j, e ≤ j → xs[j]? = ys[j]?) {p : Nat} (hp : e ≤ 2 * p) :
    (up node single xs)[p]? = (up node single ys)[p]? := by
  by_cases hlt : p < (up node single xs).length
  · have hlt' : p < (up node single ys).length := by rw [up_length] at hlt ⊢; omega
    rw [List.getElem?_eq_getElem hlt, List.getElem?_eq_getElem hlt', up_getElem, up_getElem]
    have h0 : xs[2 * p]? = ys[2 * p]? := h _ hp
    have h1 : xs[2 * p + 1]? = ys[2 * p + 1]? := h _ (by omega)
    by_cases hp1 : 2 * p + 1 < xs.length
    · rw [dif_pos hp1, dif_pos (by omega)]
      simp only [List.getElem?_eq_getElem hp1, List.getElem?_eq_getElem (show 2 * p + 1 < ys.length by omega),
        List.getElem?_eq_getElem (show 2 * p < xs.length by omega),
        List.getElem?_eq_getElem (show 2 * p < ys.length by omega), Option.some.injEq] at h0 h1
      simp [h0, h1]
    · rw [dif_neg hp1, dif_neg (by omega)]
      rw [up_length] at hlt
      simp only [List.getElem?_eq_getElem (show 2 * p < xs.length by omega),
        List.getElem?_eq_getElem (show 2 * p < ys.length by omega), Option.some.injEq] at h0
      simp [h0]
  · rw [List.getElem?_eq_none (by omega), List.getElem?_eq_none (by rw [up_length] at hlt ⊢; omega)]

end Up

section Levels

variable (node : α → α → α) (single : Nat → α → α)

@[simp] theorem levels_zero (xs : List α) : levels node single xs 0 = xs := rfl

theorem levels_succ (xs : List α) (k : Nat) :
    levels node single xs (k + 1) = up node (single k) (levels node single xs k) := rfl

/-- Layer `k` over `n` leaves has `⌈n / 2ᵏ⌉` nodes. -/
theorem levels_length (xs : List α) :
    ∀ k, (levels node single xs k).length = (xs.length + 2 ^ k - 1) / 2 ^ k
  | 0 => by simp
  | k + 1 => by
    rw [levels_succ, up_length, levels_length xs k]
    have hp : 0 < 2 ^ k := Nat.two_pow_pos k
    rw [show (xs.length + 2 ^ k - 1) / 2 ^ k + 1 = (xs.length + 2 ^ k - 1 + 2 ^ k) / 2 ^ k by
        rw [Nat.add_div_right _ hp], Nat.div_div_eq_div_mul, Nat.pow_succ]
    congr 1
    omega

theorem levels_forall {P : α → Prop} (hn : ∀ a b, P a → P b → P (node a b))
    (hs : ∀ k a, P a → P (single k a)) {xs : List α} (hx : ∀ x ∈ xs, P x) :
    ∀ k, ∀ y ∈ levels node single xs k, P y
  | 0 => hx
  | k + 1 => up_forall node (single k) hn (hs k) _ (levels_forall hn hs hx k)

/-- Layer `k` has between `⌊n / 2ᵏ⌋` and `⌊n / 2ᵏ⌋ + 1` nodes. -/
theorem div_pow_le_levels_length (xs : List α) (k : Nat) :
    xs.length / 2 ^ k ≤ (levels node single xs k).length ∧
      (levels node single xs k).length ≤ xs.length / 2 ^ k + 1 := by
  have hp := Nat.two_pow_pos k
  rw [levels_length]
  constructor
  · exact Nat.div_le_div_right (by omega)
  · have : (xs.length + 2 ^ k - 1) / 2 ^ k ≤ (xs.length + 2 ^ k) / 2 ^ k :=
      Nat.div_le_div_right (by omega)
    rw [Nat.add_div_right _ hp] at this
    exact this

/-- Two trees that share layer `k` share every layer above it. -/
theorem levels_eq_of_le {xs ys : List α} {k : Nat}
    (h : levels node single xs k = levels node single ys k) :
    ∀ j, k ≤ j → levels node single xs j = levels node single ys j := by
  intro j hj
  induction j, hj using Nat.le_induction with
  | base => exact h
  | succ j _ ih => rw [levels_succ, levels_succ, ih]

theorem levels_length_pos {xs : List α} (hxs : xs ≠ []) (k : Nat) :
    0 < (levels node single xs k).length := by
  have hp := Nat.two_pow_pos k
  have hn : 0 < xs.length := List.length_pos_iff.mpr hxs
  rw [levels_length]
  exact Nat.div_pos (by omega) hp

/-- Appending leaves makes no layer shorter. -/
theorem levels_length_le_append (xs ys : List α) (k : Nat) :
    (levels node single xs k).length ≤ (levels node single (xs ++ ys) k).length := by
  rw [levels_length, levels_length, List.length_append]
  exact Nat.div_le_div_right (by omega)

/-- The full subtrees below position `n / 2ᵏ` of layer `k` are the same
after leaves are appended. -/
theorem levels_append_take (xs ys : List α) :
    ∀ k, (levels node single (xs ++ ys) k).take (xs.length / 2 ^ k) =
      (levels node single xs k).take (xs.length / 2 ^ k)
  | 0 => by simp
  | k + 1 => by
    have hp : 0 < 2 ^ k := Nat.two_pow_pos k
    have hm : xs.length / 2 ^ (k + 1) = xs.length / 2 ^ k / 2 := by
      rw [Nat.pow_succ, Nat.div_div_eq_div_mul]
    have hle : ∀ zs : List α, xs.length ≤ zs.length →
        2 * (xs.length / 2 ^ (k + 1)) ≤ (levels node single zs k).length := by
      intro zs hz
      rw [levels_length, hm]
      have : xs.length / 2 ^ k ≤ (zs.length + 2 ^ k - 1) / 2 ^ k :=
        Nat.div_le_div_right (by omega)
      omega
    have hd : 2 * (xs.length / 2 ^ (k + 1)) ≤ xs.length / 2 ^ k := by omega
    have e : ∀ zs : List α, zs.take (2 * (xs.length / 2 ^ (k + 1))) =
        (zs.take (xs.length / 2 ^ k)).take (2 * (xs.length / 2 ^ (k + 1))) := by
      intro zs
      rw [List.take_take, Nat.min_eq_left hd]
    rw [levels_succ, levels_succ, up_take _ _ _ (hle _ (by simp)), up_take _ _ _ (hle _ le_rfl),
      e, e (levels node single xs k), levels_append_take xs ys k]

end Levels

section Depth

theorem one_le_depth : ∀ n, 1 ≤ depth n
  | 0 => by simp [depth]
  | 1 => by simp [depth]
  | n + 2 => by rw [depth]; omega

/-- `⌈n / 2ᵏ⁺¹⌉ = ⌈⌈n / 2⌉ / 2ᵏ⌉`. -/
theorem width_succ (n k : Nat) :
    (n + 2 ^ (k + 1) - 1) / 2 ^ (k + 1) = ((n + 1) / 2 + 2 ^ k - 1) / 2 ^ k := by
  have hp := Nat.two_pow_pos k
  rw [Nat.pow_succ, Nat.mul_comm, ← Nat.div_div_eq_div_mul]
  congr 1
  omega

/-- The top layer has at most one node, every layer below it at least two. -/
theorem depth_spec : ∀ n, (n + 2 ^ (depth n - 1) - 1) / 2 ^ (depth n - 1) ≤ 1 ∧
    ∀ k, k + 1 < depth n → 2 ≤ (n + 2 ^ k - 1) / 2 ^ k
  | 0 => by simp [depth]
  | 1 => by simp [depth]
  | n + 2 => by
    obtain ⟨htop, hbelow⟩ := depth_spec ((n + 3) / 2)
    have hd := one_le_depth ((n + 3) / 2)
    rw [depth, Nat.add_sub_cancel]
    refine ⟨?_, fun k hk => ?_⟩
    · rw [show depth ((n + 3) / 2) = depth ((n + 3) / 2) - 1 + 1 by omega, width_succ]
      exact htop
    · cases k with
      | zero => simp
      | succ k =>
        rw [width_succ]
        exact hbelow k (by omega)

/-- The number of layers is the only one whose top layer has at most one
node while the layers below have at least two. -/
theorem depth_eq {n H : Nat} (hH : 1 ≤ H) (htop : (n + 2 ^ (H - 1) - 1) / 2 ^ (H - 1) ≤ 1)
    (hbelow : ∀ k, k + 1 < H → 2 ≤ (n + 2 ^ k - 1) / 2 ^ k) : depth n = H := by
  obtain ⟨htop', hbelow'⟩ := depth_spec n
  have := one_le_depth n
  rcases Nat.lt_trichotomy (depth n) H with h | h | h
  · have := hbelow (depth n - 1) (by omega)
    omega
  · exact h
  · have := hbelow' (H - 1) (by omega)
    omega

/-- At most `2ᵏ` leaves under `depth n ≤ k + 1` layers. -/
theorem le_two_pow_of_depth_le {n k : Nat} (hk : depth n ≤ k + 1) : n ≤ 2 ^ k := by
  have htop := (depth_spec n).1
  have hp := Nat.two_pow_pos (depth n - 1)
  have hlt : n + 2 ^ (depth n - 1) - 1 < 2 * 2 ^ (depth n - 1) :=
    (Nat.div_lt_iff_lt_mul hp).mp (by omega)
  have hle : 2 ^ (depth n - 1) ≤ 2 ^ k := Nat.pow_le_pow_right (by omega) (by omega)
  omega

/-- More leaves need no fewer layers. -/
theorem depth_mono {m n : Nat} (h : m ≤ n) : depth m ≤ depth n := by
  by_contra hlt
  have hd := one_le_depth n
  have hbelow := (depth_spec m).2 (depth n - 1) (by omega)
  have htop := (depth_spec n).1
  have hle : (m + 2 ^ (depth n - 1) - 1) / 2 ^ (depth n - 1) ≤
      (n + 2 ^ (depth n - 1) - 1) / 2 ^ (depth n - 1) := Nat.div_le_div_right (by omega)
  omega

theorem div_two_pow_eq_zero_of_depth_le {n k : Nat} (hk : depth n ≤ k) : n / 2 ^ k = 0 := by
  have h1 := le_two_pow_of_depth_le (show depth n ≤ k - 1 + 1 by omega)
  have h2 := one_le_depth n
  have h3 : 2 ^ (k - 1) < 2 ^ k := Nat.pow_lt_pow_right (by omega) (by omega)
  exact Nat.div_eq_of_lt (by omega)

end Depth

section Tower

variable (node : α → α → α) (single : Nat → α → α)

@[simp] theorem length_tower (xs : List α) : (tower node single xs).length = depth xs.length := by
  simp [tower]

@[simp] theorem getElem_tower (xs : List α) {k : Nat} (hk : k < (tower node single xs).length) :
    (tower node single xs)[k] = levels node single xs k := by
  simp [tower]

/-- The layers from the top one on have at most one node. -/
theorem levels_length_le_one {xs : List α} {k : Nat} (hk : depth xs.length ≤ k + 1) :
    (levels node single xs k).length ≤ 1 := by
  have h := le_two_pow_of_depth_le hk
  have hp := Nat.two_pow_pos k
  rw [levels_length]
  exact Nat.lt_succ_iff.mp ((Nat.div_lt_iff_lt_mul hp).mpr (by omega))

/-- The layers below the top one have at least two nodes. -/
theorem two_le_levels_length {xs : List α} {k : Nat} (hk : k + 1 < depth xs.length) :
    2 ≤ (levels node single xs k).length := by
  rw [levels_length]
  exact (depth_spec xs.length).2 k hk

/-- The first layer with at most one node, above layers of at least two,
is the top one. -/
theorem depth_eq_of_levels {xs : List α} {h : Nat} (htop : (levels node single xs h).length ≤ 1)
    (hbelow : ∀ k < h, 2 ≤ (levels node single xs k).length) : depth xs.length = h + 1 := by
  apply depth_eq (by omega)
  · rw [Nat.add_sub_cancel, ← levels_length node single]
    exact htop
  · intro k hk
    rw [← levels_length node single]
    exact hbelow k (by omega)

/-- A list of layers that has the right number of layers, each the layer
of `xs`, is the tower of `xs`. -/
theorem eq_tower {ls : List (List α)} {xs : List α} (hlen : ls.length = depth xs.length)
    (h : ∀ k < ls.length, ls[k]? = some (levels node single xs k)) : ls = tower node single xs := by
  apply List.ext_getElem?
  intro k
  by_cases hk : k < ls.length
  · rw [h k hk, List.getElem?_eq_getElem (by simp; omega), getElem_tower]
  · rw [List.getElem?_eq_none (by omega), List.getElem?_eq_none (by simp; omega)]

end Tower

section Overwrite

theorem getElem?_overwrite {xs : List α} {i : Nat} (hi : i ≤ xs.length) (ps : List α) (j : Nat) :
    (overwrite xs i ps)[j]? =
      if j < i then xs[j]? else if j < i + ps.length then ps[j - i]? else xs[j]? := by
  unfold overwrite
  have ht : (xs.take i).length = i := by simp [Nat.min_eq_left hi]
  split
  · rw [List.append_assoc, List.getElem?_append_left (by omega), List.getElem?_take_of_lt (by omega)]
  · split
    · rw [List.append_assoc, List.getElem?_append_right (by omega), ht,
        List.getElem?_append_left (by omega)]
    · rw [List.getElem?_append_right (by simp; omega), List.getElem?_drop]
      simp only [List.length_append, ht]
      congr 1
      omega

theorem length_overwrite {xs : List α} {i : Nat} (hi : i ≤ xs.length) (ps : List α) :
    (overwrite xs i ps).length = max xs.length (i + ps.length) := by
  simp only [overwrite, List.length_append, List.length_take, List.length_drop, Nat.min_eq_left hi]
  omega

@[simp] theorem overwrite_nil (xs : List α) (i : Nat) : overwrite xs i [] = xs := by
  simp [overwrite]

/-- Writing a run is writing its first node, then the rest. -/
theorem overwrite_cons {xs : List α} {i : Nat} (hi : i ≤ xs.length) (p : α) (ps : List α) :
    overwrite xs i (p :: ps) = overwrite (overwrite xs i [p]) (i + 1) ps := by
  have h1 : i + 1 ≤ (overwrite xs i [p]).length := by
    rw [length_overwrite hi]; simp
  apply List.ext_getElem?
  intro j
  rw [getElem?_overwrite hi, getElem?_overwrite h1, getElem?_overwrite hi]
  simp only [List.length_cons, List.length_nil]
  by_cases hj : j < i
  · simp [hj, show j < i + 1 by omega]
  · by_cases hj' : j = i
    · subst hj'
      simp
    · simp only [hj, if_false, show ¬j < i + 1 by omega]
      by_cases hk : j < i + 1 + ps.length
      · rw [if_pos (by omega), if_pos hk, show j - i = (j - (i + 1)) + 1 by omega,
          List.getElem?_cons_succ]
      · rw [if_neg (by omega), if_neg hk]

theorem overwrite_singleton_of_lt {xs : List α} {i : Nat} (hi : i < xs.length) (p : α) :
    overwrite xs i [p] = xs.set i p := by
  apply List.ext_getElem?
  intro j
  rw [getElem?_overwrite hi.le, List.getElem?_set]
  simp only [List.length_cons, List.length_nil]
  by_cases hj : j < i
  · simp [hj, show i ≠ j by omega]
  · by_cases hj' : i = j
    · subst hj'
      simp [hi]
    · simp [hj, hj', show ¬j < i + 1 by omega]

theorem overwrite_length_singleton (xs : List α) (p : α) :
    overwrite xs xs.length [p] = xs ++ [p] := by
  simp [overwrite]

/-- Writing into `xs` from `i` the window of `ys` from `i` gives `ys`
when `xs` agrees with `ys` outside the window. -/
theorem overwrite_eq_of_agree {xs ys : List α} {i m : Nat} (hi : i ≤ xs.length)
    (hm : i + m ≤ ys.length) (hpre : ∀ j < i, xs[j]? = ys[j]?)
    (hpost : ∀ j, i + m ≤ j → xs[j]? = ys[j]?) :
    overwrite xs i ((ys.drop i).take m) = ys := by
  apply List.ext_getElem?
  intro j
  have hlen : ((ys.drop i).take m).length = m := by simp only [List.length_take, List.length_drop]; omega
  rw [getElem?_overwrite hi, hlen]
  split
  · exact hpre j ‹_›
  · split
    · rw [List.getElem?_take_of_lt (by omega), List.getElem?_drop]
      congr 1
      omega
    · exact hpost j (by omega)

end Overwrite

end Merkle
