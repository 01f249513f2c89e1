import ZgStorage.AppendMerkle.History

/-!
# Range proofs are sound

`RangeProof::validate` rebuilds, layer after layer, the nodes above the
range it is given, taking the nodes next to the range from the two proofs,
and compares the last one with the proof's root. With a hash without
collisions (`parent` injective, and no parent equal to the hash of a leaf),
a range that validates against the root of the batch tree over known
leaves `L` is the range of `L` at its position, padded past the end of `L`
with the padding of the leaves.

The batch tree over `L` sits in a complete binary tree (`virtualNode`):
right of the nodes of each layer stands the padding of its height. With the
paddings of `ZERO_HASHES`, each the parent of two of the one below, every
node of it is the parent of its two children (`virtualNode_succ`). Each
pass of `validate` can then be undone (`parentLayer_window`): a pass that
gives the nodes of a layer above a window was given the window below,
whatever the two proofs hold.

Past the end of `L`, the padding is a leaf too: the range
`L ++ [ZERO_HASHES[0]]` validates against the tree over three leaves
(`validate_padding_leaf`).

* `parentLayers_window`: the loop of `validate`, undone;
* `validate_sound`: what a range that validates is.
-/

namespace ZgStorage

open AppendMerkleTree (batchLevel batchLayers)

/-- The nodes `Z a, …, Z b` of a layer given by its node at each position. -/
def window {α : Type} (Z : Nat → α) (a b : Nat) : List α := (List.range' a (b + 1 - a)).map Z

section Window

variable {α : Type} (Z : Nat → α) {a b : Nat}

@[simp] theorem length_window : (window Z a b).length = b + 1 - a := by
  simp [window]

theorem window_eq_cons (hab : a ≤ b) : window Z a b = Z a :: window Z (a + 1) b := by
  rw [window, show b + 1 - a = (b + 1 - (a + 1)) + 1 by omega, List.range'_succ, List.map_cons,
    window]

theorem window_eq_concat (hab : a ≤ b) :
    window Z a b = (List.range' a (b - a)).map Z ++ [Z b] := by
  rw [window, show b + 1 - a = (b - a) + 1 by omega, List.range'_concat, List.map_append,
    Nat.one_mul, show a + (b - a) = b by omega]
  rfl

theorem window_self (a : Nat) : window Z a a = [Z a] := by
  simp [window]

theorem mem_window (hab : a ≤ b) : Z a ∈ window Z a b := by
  rw [window_eq_cons Z hab]
  exact List.mem_cons_self

end Window

theorem shiftRight_le_shiftRight_of_le {a b : Nat} (h : a ≤ b) (n : Nat) : a >>> n ≤ b >>> n := by
  simp only [Nat.shiftRight_eq_div_pow]
  exact Nat.div_le_div_right h

namespace RangeProof

variable {E : Type} {A : Algorithm E}

section Pairs

theorem length_pairParents : ∀ ys : List E, (pairParents A ys).1.length = ys.length / 2
  | [] => by simp [pairParents]
  | [_] => by simp [pairParents]
  | a :: b :: rest => by
    simp only [pairParents, List.length_cons, length_pairParents rest]
    omega

/-- Every node `pairParents` gives is a parent. -/
theorem mem_pairParents : ∀ {ys : List E} {y : E}, y ∈ (pairParents A ys).1 → ∃ l r, y = A.parent l r
  | [], _, h => by simp [pairParents] at h
  | [_], _, h => by simp [pairParents] at h
  | a :: b :: rest, y, h => by
    simp only [pairParents, List.mem_cons] at h
    rcases h with rfl | h
    · exact ⟨a, b, rfl⟩
    · exact mem_pairParents h

/-- With `parent` injective, a list whose pairs have the parents of the
pairs from `2 c` on of a layer `Z` whose parents are `Z'` is that run of
`Z`. -/
theorem pairParents_window (hinj : ∀ a b c d, A.parent a b = A.parent c d → a = c ∧ b = d)
    {Z Z' : Nat → E} (hZ : ∀ j, Z' j = A.parent (Z (2 * j)) (Z (2 * j + 1))) :
    ∀ (n c : Nat) (ys : List E), ys.length = 2 * n →
      (pairParents A ys).1 = (List.range' c n).map Z' → ys = (List.range' (2 * c) (2 * n)).map Z
  | 0, _, ys, hlen, _ => by simpa using hlen
  | n + 1, c, y₀ :: y₁ :: rest, hlen, hpar => by
    have hrest : rest.length = 2 * n := by simp only [List.length_cons] at hlen; omega
    simp only [pairParents, List.range'_succ, List.map_cons, List.cons.injEq, hZ] at hpar
    obtain ⟨hhead, htail⟩ := hpar
    obtain ⟨rfl, rfl⟩ := hinj _ _ _ _ hhead
    rw [pairParents_window hinj hZ n (c + 1) rest hrest htail,
      show 2 * (n + 1) = 2 * n + 1 + 1 by omega, List.range'_succ, List.range'_succ]
    simp only [List.map_cons, show 2 * c + 1 + 1 = 2 * (c + 1) by omega]

end Pairs

section Passes

variable {rp : RangeProof E} {k : Nat}

/-- A list of odd length: its nodes before the last, an even number, and
its last node. -/
theorem exists_concat_of_odd {ys : List E} (h : ys.length % 2 = 1) :
    ∃ init last, ys = init ++ [last] ∧ init.length % 2 = 0 := by
  obtain ⟨init, last, hys⟩ := List.eq_nil_or_concat ys |>.resolve_left (by rintro rfl; simp at h)
  rw [List.concat_eq_append] at hys
  subst hys
  exact ⟨init, last, rfl, by simp only [List.length_append, List.length_singleton] at h; omega⟩

/-- What the second half of a pass that succeeds gives: the parents of the
pairs, then, for an odd last node, its parent with the right proof's
sibling, where the right proof turns left. -/
theorem pairLayer_eq_ok {rest out : List E} (h : pairLayer A rp k rest = .ok out) :
    (rest.length % 2 = 0 ∧ out = (pairParents A rest).1) ∨
    ∃ init last sib, rest = init ++ [last] ∧ init.length % 2 = 0 ∧
      rp.rightProof.path[k]? = some true ∧ rp.rightProof.lemma'[k + 1]? = some sib ∧
      out = (pairParents A init).1 ++ [A.parent last sib] := by
  rcases Nat.mod_two_eq_zero_or_one rest.length with heven | hodd
  · -- only full pairs
    refine .inl ⟨heven, ?_⟩
    rw [pairLayer, pairParents_of_even id rest heven] at h
    rw [pairParents_of_even id rest heven]
    exact (Except.ok.inj h).symm
  · -- an odd last node, closed with the right proof's sibling
    obtain ⟨init, last, rfl, hinit⟩ := exists_concat_of_odd hodd
    rw [pairLayer, pairParents_append_singleton id init hinit last] at h
    simp only at h
    cases hturn : index rp.rightProof.path k with
    | error e => simp [hturn] at h
    | ok turn =>
      cases turn with
      | false => simp [hturn] at h
      | true =>
        cases hsib : index rp.rightProof.lemma' (k + 1) with
        | error e => simp [hturn, hsib] at h
        | ok sib =>
          simp only [hturn, hsib, Except.ok_bind, if_true, Except.pure_eq_ok, Except.ok.injEq] at h
          exact .inr ⟨init, last, sib, rfl, hinit, getElem?_of_index hturn, getElem?_of_index hsib,
            by rw [pairParents_of_even id init hinit]; exact h.symm⟩

/-- What a pass that succeeds gives: where the left proof turns left, the
second half of the pass on the whole layer; where it turns right, the
parent of the first node with the left proof's sibling, then the second
half on the rest. -/
theorem parentLayer_eq_ok {cur out : List E} (h : parentLayer A rp k cur = .ok out) :
    (rp.leftProof.path[k]? = some true ∧ pairLayer A rp k cur = .ok out) ∨
    ∃ sib first rest parents, cur = first :: rest ∧ rp.leftProof.path[k]? = some false ∧
      rp.leftProof.lemma'[k + 1]? = some sib ∧ pairLayer A rp k rest = .ok parents ∧
      out = A.parent sib first :: parents := by
  unfold parentLayer at h
  cases hturn : index rp.leftProof.path k with
  | error e => simp [hturn] at h
  | ok turn =>
    cases turn with
    | true =>
      simp only [hturn, Except.ok_bind, Bool.not_true, Bool.false_eq_true, if_false,
        Except.pure_eq_ok, Nat.not_lt_zero, List.drop_zero, List.nil_append] at h
      refine .inl ⟨getElem?_of_index hturn, ?_⟩
      cases hp : pairLayer A rp k cur with
      | error e => simp [hp] at h
      | ok p => simp only [hp, Except.ok_bind] at h; rw [h]
    | false =>
      cases hsib : index rp.leftProof.lemma' (k + 1) with
      | error e => simp [hturn, hsib] at h
      | ok sib =>
        cases cur with
        | nil =>
          simp only [hturn, hsib, Except.ok_bind, Bool.not_false, if_true] at h
          simp [index, expectSome] at h
        | cons first rest =>
          simp only [hturn, hsib, index_cons_zero, Except.ok_bind, Bool.not_false, if_true,
            Except.pure_eq_ok, List.length_cons, List.drop_one, List.tail_cons,
            show ¬(rest.length + 1 < 1) by omega, if_false] at h
          cases hp : pairLayer A rp k rest with
          | error e => simp [hp] at h
          | ok p =>
            simp only [hp, Except.ok_bind, Except.ok.injEq] at h
            exact .inr ⟨sib, first, rest, p, rfl, getElem?_of_index hturn, getElem?_of_index hsib,
              hp, by rw [← h]; rfl⟩

theorem length_pairLayer {rest out : List E} (h : pairLayer A rp k rest = .ok out) :
    out.length = (rest.length + 1) / 2 := by
  rcases pairLayer_eq_ok h with ⟨heven, rfl⟩ | ⟨init, last, sib, rfl, hinit, -, -, rfl⟩
  · rw [length_pairParents]
    omega
  · simp only [List.length_append, length_pairParents, List.length_singleton]
    omega

/-- A pass from a window `[a, b]` gives the window `[a / 2, b / 2]`. -/
theorem length_parentLayer {a b : Nat} {cur out : List E} (hlen : cur.length = b + 1 - a)
    (hab : a ≤ b) (hlp : rp.leftProof.path[k]? = some (decide (a % 2 = 0)))
    (h : parentLayer A rp k cur = .ok out) : out.length = b / 2 + 1 - a / 2 := by
  rcases parentLayer_eq_ok h with ⟨hturn, hpair⟩ | ⟨sib, first, rest, parents, rfl, hturn, -, hpair, rfl⟩
  · have ha : a % 2 = 0 := by simpa [hlp] using hturn
    rw [length_pairLayer hpair]
    omega
  · have ha : a % 2 = 1 := by simp [hlp] at hturn; omega
    simp only [List.length_cons] at hlen ⊢
    rw [length_pairLayer hpair]
    omega

theorem mem_pairLayer {rest out : List E} (h : pairLayer A rp k rest = .ok out) {y : E}
    (hy : y ∈ out) : ∃ l r, y = A.parent l r := by
  rcases pairLayer_eq_ok h with ⟨-, rfl⟩ | ⟨init, last, sib, -, -, -, -, rfl⟩
  · exact mem_pairParents hy
  · rcases List.mem_append.mp hy with hy | hy
    · exact mem_pairParents hy
    · exact ⟨last, sib, List.mem_singleton.mp hy⟩

/-- Every node a pass gives is a parent. -/
theorem mem_parentLayer {cur out : List E} (h : parentLayer A rp k cur = .ok out) {y : E}
    (hy : y ∈ out) : ∃ l r, y = A.parent l r := by
  rcases parentLayer_eq_ok h with ⟨-, hpair⟩ | ⟨sib, first, rest, parents, -, -, -, hpair, rfl⟩
  · exact mem_pairLayer hpair hy
  · rcases List.mem_cons.mp hy with rfl | hy
    · exact ⟨sib, first, rfl⟩
    · exact mem_pairLayer hpair hy

end Passes

section Undo

variable {rp : RangeProof E} {k : Nat}
  (hinj : ∀ a b c d, A.parent a b = A.parent c d → a = c ∧ b = d)
  {Z Z' : Nat → E} (hZ : ∀ j, Z' j = A.parent (Z (2 * j)) (Z (2 * j + 1)))
include hinj hZ

/-- The second half of a pass, undone: if it gives the nodes of `Z'` above
a window of `Z` from an even position, it was given that window. -/
theorem pairLayer_window {c b : Nat} {rest out : List E} (hc : c % 2 = 0) (hcb : c ≤ b + 1)
    (hlen : rest.length = b + 1 - c) (hpass : pairLayer A rp k rest = .ok out)
    (hout : out = window Z' (c / 2) (b / 2)) : rest = window Z c b := by
  obtain ⟨i, rfl⟩ : ∃ i, c = 2 * i := ⟨c / 2, by omega⟩
  rw [Nat.mul_div_cancel_left i (by omega)] at hout
  rcases pairLayer_eq_ok hpass with ⟨heven, rfl⟩ | ⟨init, last, sib, rfl, hinit, -, -, rfl⟩
  · -- only full pairs: the window ends on a right child
    rw [window, show b + 1 - 2 * i = 2 * (b / 2 + 1 - i) by omega]
    exact pairParents_window hinj hZ _ i rest (by omega) (by rw [hout, window])
  · -- the window ends on a left child, whose parent takes the right proof's sibling
    simp only [List.length_append, List.length_singleton] at hlen
    rw [window_eq_concat Z' (by omega)] at hout
    obtain ⟨hpairs, hlast⟩ := List.append_inj hout (by rw [length_pairParents]; simp; omega)
    rw [List.singleton_inj, hZ] at hlast
    obtain ⟨rfl, -⟩ := hinj _ _ _ _ hlast
    rw [window_eq_concat Z (by omega), show 2 * (b / 2) = b by omega,
      pairParents_window hinj hZ _ i init (by omega) hpairs, show 2 * (b / 2 - i) = b - 2 * i by omega]

/-- A pass, undone: if it gives the nodes of `Z'` above the window `[a, b]`
of `Z`, it was given that window, whatever siblings the proofs hold. -/
theorem parentLayer_window {a b : Nat} {cur out : List E} (hab : a ≤ b)
    (hlen : cur.length = b + 1 - a) (hlp : rp.leftProof.path[k]? = some (decide (a % 2 = 0)))
    (hpass : parentLayer A rp k cur = .ok out) (hout : out = window Z' (a / 2) (b / 2)) :
    cur = window Z a b := by
  rcases parentLayer_eq_ok hpass with ⟨hturn, hpair⟩ | ⟨sib, first, rest, parents, rfl, hturn, -, hpair, rfl⟩
  · -- the window starts on a left child
    have ha : a % 2 = 0 := by simpa [hlp] using hturn
    exact pairLayer_window hinj hZ ha (by omega) hlen hpair hout
  · -- the window starts on a right child, whose parent takes the left proof's sibling
    have ha : a % 2 = 1 := by simp [hlp] at hturn; omega
    rw [window_eq_cons Z' (show a / 2 ≤ b / 2 by omega), List.cons.injEq, hZ] at hout
    obtain ⟨hfirst, hparents⟩ := hout
    obtain ⟨-, rfl⟩ := hinj _ _ _ _ hfirst
    simp only [List.length_cons] at hlen
    have hrest := pairLayer_window hinj hZ (c := a + 1) (b := b) (by omega) (by omega) (by omega)
      hpair (by rw [hparents, show (a + 1) / 2 = a / 2 + 1 by omega])
    rw [hrest, window_eq_cons Z hab, show 2 * (a / 2) + 1 = a by omega]

end Undo

end RangeProof

/-- Proof `p` turns, on its path entries from `k` over `m` layers, as node
`a` of layer `k` and its ancestors do. -/
def Proof.TurnsAt {E : Type} (p : Proof E) (k m a : Nat) : Prop :=
  ∀ i < m, p.path[k + i]? = some (decide ((a >>> i) % 2 = 0))

namespace Proof

variable {E : Type} {p : Proof E} {k m a : Nat}

theorem TurnsAt.head (h : p.TurnsAt k (m + 1) a) : p.path[k]? = some (decide (a % 2 = 0)) := by
  simpa using h 0 (by omega)

theorem TurnsAt.tail (h : p.TurnsAt k (m + 1) a) : p.TurnsAt (k + 1) m (a >>> 1) := by
  intro i hi
  have hi' := h (i + 1) (by omega)
  rwa [Nat.add_comm i 1, Nat.shiftRight_add, ← Nat.add_assoc] at hi'

/-- The turns from layer `k + d` on are those of the ancestor `d` layers up. -/
theorem TurnsAt.drop {d : Nat} (h : p.TurnsAt k (d + m) a) : p.TurnsAt (k + d) m (a >>> d) := by
  intro i hi
  have hi' := h (d + i) (by omega)
  rwa [Nat.shiftRight_add, ← Nat.add_assoc] at hi'

theorem TurnsAt.take {m' : Nat} (h : p.TurnsAt k m a) (hm : m' ≤ m) : p.TurnsAt k m' a :=
  fun i hi => h i (by omega)

/-- A proof turns as its position does. -/
theorem turnsAt_position (p : Proof E) : p.TurnsAt 0 p.path.length (position p.path) :=
  fun i hi => by simpa using getElem?_of_position p.path i hi

end Proof

namespace RangeProof

variable {E : Type} {A : Algorithm E} {rp : RangeProof E}

/-- After a first pass, the loop of `validate` no longer reads the nodes it
was given as the last layer. -/
theorem parentLayers_succ_children (m k : Nat) (children cur : List E) :
    parentLayers A rp (m + 1) k children cur = parentLayers A rp (m + 1) k cur cur := rfl

/-- The loop of `validate` splits after `d` passes. -/
theorem parentLayers_add (d m : Nat) :
    ∀ (k : Nat) (cur : List E), parentLayers A rp (d + m) k cur cur =
      parentLayers A rp d k cur cur >>= fun p => parentLayers A rp m (k + d) p p := by
  induction d with
  | zero => intro k cur; simp [parentLayers]
  | succ d ih =>
    intro k cur
    rw [show d + 1 + m = (d + m) + 1 by omega, parentLayers, parentLayers, bind_assoc]
    congr 1
    funext p
    rw [ih (k + 1) p, show k + 1 + d = k + (d + 1) by omega]

/-- The loop of `validate` from the window `[a, b]` of layer `k` gives the
window `[a >>> m, b >>> m]` after `m` passes. -/
theorem length_parentLayers : ∀ (m k a b : Nat) (cur out : List E), a ≤ b →
    cur.length = b + 1 - a → rp.leftProof.TurnsAt k m a →
    parentLayers A rp m k cur cur = .ok out → out.length = (b >>> m) + 1 - (a >>> m)
  | 0, k, a, b, cur, out, _, hlen, _, h => by
    simp only [parentLayers, Except.ok.injEq] at h
    subst h
    simpa using hlen
  | m + 1, k, a, b, cur, out, hab, hlen, hl, h => by
    rw [parentLayers] at h
    obtain ⟨p, hp, hrest⟩ := Except.bind_eq_ok.mp h
    have hplen := length_parentLayer hlen hab hl.head hp
    rw [← Nat.shiftRight_one, ← Nat.shiftRight_one] at hplen
    rw [length_parentLayers m (k + 1) (a >>> 1) (b >>> 1) p out
      (by rw [Nat.shiftRight_one, Nat.shiftRight_one]; omega) hplen hl.tail hrest, Nat.add_comm m 1, Nat.shiftRight_add,
      Nat.shiftRight_add]

/-- Every node of the loop of `validate` after a pass is a parent. -/
theorem mem_parentLayers : ∀ (m k : Nat) (cur out : List E),
    parentLayers A rp (m + 1) k cur cur = .ok out → ∀ y ∈ out, ∃ l r, y = A.parent l r
  | m, k, cur, out, h => by
    rw [parentLayers] at h
    obtain ⟨p, hp, hrest⟩ := Except.bind_eq_ok.mp h
    cases m with
    | zero =>
      simp only [parentLayers, Except.ok.injEq] at hrest
      subst hrest
      exact fun y hy => mem_parentLayer hp hy
    | succ m => exact mem_parentLayers m (k + 1) p out hrest

/-- The loop of `validate`, undone: with `parent` injective, if `m` passes
from the window `[a, b]` of layer `k` give the window of layer `k + m` of a
tree `Zs` whose every node is the parent of its two children, they were
given the window of layer `k`. -/
theorem parentLayers_window (hinj : ∀ a b c d, A.parent a b = A.parent c d → a = c ∧ b = d)
    {Zs : Nat → Nat → E} :
    ∀ (m k a b : Nat) (cur out : List E), a ≤ b → cur.length = b + 1 - a →
      (∀ i < m, ∀ j, Zs (k + i + 1) j = A.parent (Zs (k + i) (2 * j)) (Zs (k + i) (2 * j + 1))) →
      rp.leftProof.TurnsAt k m a → parentLayers A rp m k cur cur = .ok out →
      out = window (Zs (k + m)) (a >>> m) (b >>> m) → cur = window (Zs k) a b
  | 0, k, a, b, cur, out, _, _, _, _, h, hout => by
    simp only [parentLayers, Except.ok.injEq] at h
    simpa [h] using hout
  | m + 1, k, a, b, cur, out, hab, hlen, hZ, hl, h, hout => by
    rw [parentLayers] at h
    obtain ⟨p, hp, hrest⟩ := Except.bind_eq_ok.mp h
    have hplen := length_parentLayer hlen hab hl.head hp
    rw [← Nat.shiftRight_one, ← Nat.shiftRight_one] at hplen
    -- the layer above is the window of `Zs (k + 1)`, by the passes above it
    have hp' : p = window (Zs (k + 1)) (a >>> 1) (b >>> 1) :=
      parentLayers_window hinj m (k + 1) (a >>> 1) (b >>> 1) p out
        (by rw [Nat.shiftRight_one, Nat.shiftRight_one]; omega) hplen
        (fun i hi j => by
          have hZi := hZ (i + 1) (by omega) j
          rwa [show k + (i + 1) = k + 1 + i by omega] at hZi) hl.tail hrest
        (by rw [hout, ← Nat.shiftRight_add, ← Nat.shiftRight_add, Nat.add_comm 1 m,
          show k + (m + 1) = k + 1 + m by omega])
    rw [Nat.shiftRight_one, Nat.shiftRight_one] at hp'
    exact parentLayer_window hinj (by simpa using hZ 0 (by omega)) hab hlen hl.head hp hp'

/-- A climb of `m` passes from the window `[a, b]` of layer `k`, with `a`
below `2ᵐ`, that ends on node `0` of layer `k + m` of a tree `Zs` whose
every node is the parent of its two children, started from the window of
`Zs`; and `b` too lies below `2ᵐ`. -/
theorem eq_window_of_climb (hinj : ∀ a b c d, A.parent a b = A.parent c d → a = c ∧ b = d)
    (Zs : Nat → Nat → E) {m k a b : Nat} {cur : List E}
    (hZ : ∀ i < m, ∀ j, Zs (k + i + 1) j = A.parent (Zs (k + i) (2 * j)) (Zs (k + i) (2 * j + 1)))
    (hab : a ≤ b) (hlen : cur.length = b + 1 - a) (ha : a < 2 ^ m)
    (hl : rp.leftProof.TurnsAt k m a) (h : parentLayers A rp m k cur cur = .ok [Zs (k + m) 0]) :
    cur = window (Zs k) a b ∧ b < 2 ^ m := by
  have ha0 : a >>> m = 0 := by
    rw [Nat.shiftRight_eq_div_pow]
    exact Nat.div_eq_of_lt ha
  -- one node at the end: the window above is `[0, 0]`
  have hb0 : b >>> m = 0 := by
    have hout := length_parentLayers m k a b cur _ hab hlen hl h
    rw [ha0, List.length_singleton] at hout
    omega
  refine ⟨parentLayers_window hinj m k a b cur _ hab hlen hZ hl h ?_, ?_⟩
  · rw [ha0, hb0, window_self]
  · simpa [Nat.shiftRight_eq_div_pow, Nat.div_eq_zero_iff] using hb0

/-- What a range proof that validates satisfies: both proofs hold together,
the range is not empty and lies at the positions of the two proofs, and the
loop of `validate` ends on the proof's root, or, with no layer to climb,
the range is the root. -/
theorem validate_facts [DecidableEq E] {X : List E} {s : Nat} (h : rp.validate A X s = .ok ()) :
    rp.validateIntegrity A = .ok true ∧ X ≠ [] ∧ Proof.position rp.leftProof.path = s ∧
      Proof.position rp.rightProof.path = s + X.length - 1 ∧
      ∃ root children, rp.root = .ok root ∧
        parentLayers A rp rp.leftProof.path.length 0 [] X = .ok children ∧
        ((children = [] ∧ X = [root]) ∨ children = [root]) := by
  unfold validate at h
  obtain ⟨b, hb, h⟩ := Except.bind_eq_ok.mp h
  cases b with
  | false => simp at h
  | true =>
    by_cases hX : X = []
    · subst hX
      simp at h
    · simp only [Bool.not_true, Bool.false_eq_true, if_false, List.isEmpty_eq_false_iff.mpr hX] at h
      simp only [Except.bind_eq_ok, ensure_eq_ok, decide_eq_true_eq, Nat.add_sub_cancel] at h
      obtain ⟨_, -, _, -, _, -, _, -, _, -, _, -, _, hl, _, hr, children, hch, hfin⟩ := h
      refine ⟨hb, hX, hl, hr, ?_⟩
      by_cases hc : children = []
      · -- no layer above the range: it is the root
        subst hc
        simp only [List.isEmpty_nil, if_true, Except.bind_eq_ok, ensure_eq_ok,
          decide_eq_true_eq] at hfin
        obtain ⟨_, hlen, x, hx, root, hroot, rfl⟩ := hfin
        obtain ⟨y, rfl⟩ := List.length_eq_one_iff.mp hlen
        rw [index_cons_zero, Except.ok.injEq] at hx
        exact ⟨x, [], hroot, hch, .inl ⟨rfl, by rw [hx]⟩⟩
      · -- the loop ends on one node, the root
        simp only [List.isEmpty_eq_false_iff.mpr hc, Bool.false_eq_true, if_false,
          Except.bind_eq_ok, ensure_eq_ok, decide_eq_true_eq] at hfin
        obtain ⟨_, hlen, c, hc', root, hroot, rfl⟩ := hfin
        obtain ⟨y, rfl⟩ := List.length_eq_one_iff.mp hlen
        simp only [List.getLast?_singleton, expectSome, Except.ok.injEq] at hc'
        exact ⟨c, [y], hroot, hch, .inr (by rw [hc'])⟩

end RangeProof

section Virtual

variable {E : Type} [HashElement E] (A : Algorithm E) (lh : Nat)

/-- Node `j` of layer `k` of the complete binary tree around the batch tree
over `xs`: its node there, or right of its nodes the padding of the
layer. -/
def virtualNode (xs : List E) (k j : Nat) : E :=
  (batchLevel A lh xs k).getD j (HashElement.endPad (k + lh))

variable {A lh}

theorem virtualNode_zero (xs : List E) (j : Nat) :
    virtualNode A lh xs 0 j = xs.getD j (HashElement.endPad lh) := by
  simp [virtualNode]

/-- With the paddings of `ZERO_HASHES`, every node of the complete tree is
the parent of its two children. -/
theorem virtualNode_succ
    (hzero : ∀ k, (HashElement.endPad (k + 1 + lh) : E) =
      A.parent (HashElement.endPad (k + lh)) (HashElement.endPad (k + lh)))
    (xs : List E) (k j : Nat) :
    virtualNode A lh xs (k + 1) j =
      A.parent (virtualNode A lh xs k (2 * j)) (virtualNode A lh xs k (2 * j + 1)) := by
  have hlen := Merkle.up_length A.parent (fun r => A.parentSingle r (k + lh)) (batchLevel A lh xs k)
  simp only [virtualNode, List.getD_eq_getElem?_getD, AppendMerkleTree.batchLevel_succ]
  by_cases h2 : 2 * j < (batchLevel A lh xs k).length
  · -- a node of the batch tree: a full pair, or an odd last node with the padding
    rw [List.getElem?_eq_getElem (show j < _ by omega), Option.getD_some, Merkle.up_getElem,
      List.getElem?_eq_getElem h2, Option.getD_some]
    by_cases h3 : 2 * j + 1 < (batchLevel A lh xs k).length
    · rw [dif_pos h3, List.getElem?_eq_getElem h3, Option.getD_some]
      rfl
    · rw [dif_neg h3, List.getElem?_eq_none (by omega), Option.getD_none]
      rfl
  · -- right of the batch tree: paddings all the way down
    rw [List.getElem?_eq_none (by omega), List.getElem?_eq_none (by omega),
      List.getElem?_eq_none (by omega)]
    exact hzero k

section Leaves

variable (hzero : ∀ k, (HashElement.endPad (k + 1 + lh) : E) =
    A.parent (HashElement.endPad (k + lh)) (HashElement.endPad (k + lh)))
  (IsLeaf : E → Prop) (hparent : ∀ a b, ¬ IsLeaf (A.parent a b))

include hzero hparent in
/-- Above the leaves, no node of the complete tree is a leaf. -/
theorem not_isLeaf_virtualNode_succ (xs : List E) (k j : Nat) :
    ¬ IsLeaf (virtualNode A lh xs (k + 1) j) := by
  rw [virtualNode_succ hzero]
  exact hparent _ _

/-- Over leaves, padded with a leaf, the nodes of layer `0` are leaves. -/
theorem isLeaf_virtualNode_zero {xs : List E} (hxs : ∀ x ∈ xs, IsLeaf x)
    (hpad : IsLeaf (HashElement.endPad lh)) (j : Nat) : IsLeaf (virtualNode A lh xs 0 j) := by
  rw [virtualNode_zero, List.getD_eq_getElem?_getD]
  cases h : xs[j]? with
  | none => exact hpad
  | some x => exact hxs x (List.mem_of_getElem? h)

end Leaves

end Virtual

namespace RangeProof

section Sound

variable {E : Type} [HashElement E] {A : Algorithm E} {lh : Nat} {rp : RangeProof E}
  {L X : List E} {s e : Nat}
  (hinj : ∀ a b c d, A.parent a b = A.parent c d → a = c ∧ b = d)
  (hzero : ∀ k, (HashElement.endPad (k + 1 + lh) : E) =
    A.parent (HashElement.endPad (k + lh)) (HashElement.endPad (k + lh)))
  (IsLeaf : E → Prop) (hparent : ∀ a b, ¬ IsLeaf (A.parent a b))

/-- The window `[s, e]` of the padded leaves, with `e` inside a tree of
`2ᵗᵒᵖ` leaves, is the range of `L` at `s`, padded. -/
theorem range_of_window {top : Nat} (hX : X = window (virtualNode A lh L 0) s e) (hse : s ≤ e)
    (he : e < 2 ^ top) :
    s + X.length ≤ 2 ^ top ∧
      ∀ i (hi : i < X.length), X[i] = L.getD (s + i) (HashElement.endPad lh) := by
  subst hX
  refine ⟨by simp only [length_window]; omega, fun i hi => ?_⟩
  simp [window, virtualNode_zero]

include hinj hzero hparent in
/-- A climb that ends on the root below the top of the tree started from
nodes above the leaves: not from leaves. -/
theorem climb_below_top (hX : ∀ x ∈ X, IsLeaf x) {m d : Nat} (hse : s ≤ e)
    (hlen : X.length = e + 1 - s) (hs : s < 2 ^ m) (hl : rp.leftProof.TurnsAt 0 m s)
    (h : parentLayers A rp m 0 X X = .ok [virtualNode A lh L (m + (d + 1)) 0]) : False := by
  -- the tree cut `d + 1` layers above the leaves
  have hZ : ∀ i < m, ∀ j, virtualNode A lh L (0 + i + 1 + (d + 1)) j =
      A.parent (virtualNode A lh L (0 + i + (d + 1)) (2 * j))
        (virtualNode A lh L (0 + i + (d + 1)) (2 * j + 1)) := by
    intro i _ j
    rw [show 0 + i + 1 + (d + 1) = i + (d + 1) + 1 by omega, virtualNode_succ hzero, Nat.zero_add]
  obtain ⟨hXw, -⟩ := eq_window_of_climb hinj (fun k j => virtualNode A lh L (k + (d + 1)) j) hZ hse
    hlen hs hl (by simpa using h)
  have hleaf := hX _ (hXw ▸ mem_window _ hse)
  exact not_isLeaf_virtualNode_succ hzero IsLeaf hparent L (0 + d) s
    (by simpa [Nat.add_assoc] using hleaf)

include hinj hzero hparent in
/-- A climb past the top of the tree passes, on its way, a layer of leaves
that are all parents. -/
theorem climb_past_top (hLl : ∀ x ∈ L, IsLeaf x) (hpad : IsLeaf (HashElement.endPad lh))
    {top d : Nat} (hse : s ≤ e) (hlen : X.length = e + 1 - s) (hs : s < 2 ^ (d + 1 + top))
    (hl : rp.leftProof.TurnsAt 0 (d + 1 + top) s)
    (h : parentLayers A rp (d + 1 + top) 0 X X = .ok [virtualNode A lh L top 0]) : False := by
  rw [parentLayers_add] at h
  obtain ⟨Y, hY, htop⟩ := Except.bind_eq_ok.mp h
  -- after `d + 1` passes, the window of layer `d + 1` climbs to the root
  have hsd := shiftRight_le_shiftRight_of_le hse (d + 1)
  have hYlen := length_parentLayers (d + 1) 0 s e X Y hse hlen (hl.take (by omega)) hY
  have hs' : s >>> (d + 1) < 2 ^ top := by
    rw [Nat.shiftRight_eq_div_pow, Nat.div_lt_iff_lt_mul (Nat.two_pow_pos _), ← Nat.pow_add,
      Nat.add_comm top]
    exact hs
  have hZ : ∀ i < top, ∀ j, virtualNode A lh L (0 + (d + 1) + i + 1 - (d + 1)) j =
      A.parent (virtualNode A lh L (0 + (d + 1) + i - (d + 1)) (2 * j))
        (virtualNode A lh L (0 + (d + 1) + i - (d + 1)) (2 * j + 1)) := by
    intro i _ j
    rw [show 0 + (d + 1) + i + 1 - (d + 1) = i + 1 by omega,
      show 0 + (d + 1) + i - (d + 1) = i by omega, virtualNode_succ hzero]
  obtain ⟨hYw, -⟩ := eq_window_of_climb hinj (fun k j => virtualNode A lh L (k - (d + 1)) j) hZ
    hsd hYlen hs' hl.drop (by simpa using htop)
  -- the first node of that layer is a leaf, and a parent
  obtain ⟨l, r, hlr⟩ := mem_parentLayers d 0 X Y hY _ (hYw ▸ mem_window _ hsd)
  have hleaf : IsLeaf (virtualNode A lh L 0 (s >>> (d + 1))) :=
    isLeaf_virtualNode_zero IsLeaf hLl hpad _
  rw [show 0 = 0 + (d + 1) - (d + 1) by omega, hlr] at hleaf
  exact hparent l r hleaf

include hinj hzero hparent in
/-- Range proofs are sound, with the padding read as leaves: with `parent`
injective and never a leaf, and the paddings of `ZERO_HASHES` from a leaf
up, a range of leaves that validates against the root of the tree `new`
builds over known leaves `L` lies inside the tree, and is the range of `L`
at its position, padded past the end of `L`. -/
theorem validate_sound [DecidableEq E] (hk : A.KeepsKnown) (hpad : IsLeaf (HashElement.endPad lh))
    (hL : L ≠ []) (hLk : ∀ x ∈ L, isNull x = false) (hLl : ∀ x ∈ L, IsLeaf x)
    {T : AppendMerkleTree E} (hT : AppendMerkleTree.new A L lh none = .ok T)
    (hX : ∀ x ∈ X, IsLeaf x) (hvalid : rp.validate A X s = .ok ()) (hroot : rp.root = T.root) :
    s + X.length ≤ 2 ^ (Merkle.depth L.length - 1) ∧
      ∀ i (hi : i < X.length), X[i] = L.getD (s + i) (HashElement.endPad lh) := by
  rw [AppendMerkleTree.new_batch A hk L hLk lh, Except.ok.injEq] at hT
  subst hT
  obtain ⟨R, hR, hRm⟩ := AppendMerkleTree.root_batchLayers A lh (AppendMerkleTree.empty none lh) hL
  -- the root is node `0` of the top layer of the complete tree
  have hRtop : virtualNode A lh L (Merkle.depth L.length - 1) 0 = R := by
    rw [Merkle.root] at hRm
    rw [virtualNode, List.getD_eq_getElem?_getD, ← List.head?_eq_getElem?]
    exact congrArg (Option.getD · _) hRm
  obtain ⟨-, hne, hpos, -, root, children, hroot', hch, hfin⟩ := validate_facts hvalid
  rw [hroot, hR, Except.ok.injEq] at hroot'
  subst hroot'
  have hs : s < 2 ^ rp.leftProof.path.length := hpos ▸ Proof.position_lt rp.leftProof.path
  have hl : rp.leftProof.TurnsAt 0 rp.leftProof.path.length s :=
    hpos ▸ Proof.turnsAt_position rp.leftProof
  have hXpos := List.length_pos_iff.mpr hne
  have hlen : X.length = (s + X.length - 1) + 1 - s := by omega
  have hse : s ≤ s + X.length - 1 := by omega
  generalize rp.leftProof.path.length = n at hch hs hl
  generalize Merkle.depth L.length - 1 = top at hRtop ⊢
  cases n with
  | zero =>
    -- no layer to climb: the range is the root, a leaf only at the top of a single leaf
    simp only [parentLayers, Except.ok.injEq] at hch
    subst hch
    obtain ⟨-, rfl⟩ | hc := hfin
    · have hs0 : s = 0 := by simpa using hs
      subst hs0
      cases top with
      | zero => exact range_of_window (by rw [window_self, hRtop]) le_rfl (by decide)
      | succ t =>
        exact absurd (hRtop ▸ hX _ (List.mem_singleton_self _))
          (not_isLeaf_virtualNode_succ hzero IsLeaf hparent L t 0)
    · simp at hc
  | succ m =>
    -- the loop climbs: it ends on the root
    rw [parentLayers_succ_children] at hch
    have hrun : parentLayers A rp (m + 1) 0 X X = .ok [R] := by
      obtain ⟨rfl, -⟩ | rfl := hfin
      · have hclen := length_parentLayers (m + 1) 0 s _ X [] hse hlen hl hch
        have := shiftRight_le_shiftRight_of_le hse (m + 1)
        simp only [List.length_nil] at hclen
        omega
      · exact hch
    rw [← hRtop] at hrun
    rcases Nat.lt_trichotomy (m + 1) top with hlt | heq | hgt
    · obtain ⟨d, rfl⟩ : ∃ d, top = m + 1 + (d + 1) := ⟨top - (m + 1) - 1, by omega⟩
      exact (climb_below_top hinj hzero IsLeaf hparent hX hse hlen hs hl hrun).elim
    · subst heq
      obtain ⟨hXw, he⟩ := eq_window_of_climb hinj (virtualNode A lh L)
        (fun i _ j => virtualNode_succ hzero L (0 + i) j) hse hlen hs hl (by simpa using hrun)
      exact range_of_window hXw hse he
    · obtain ⟨d, hd⟩ : ∃ d, m + 1 = d + 1 + top := ⟨m - top, by omega⟩
      rw [hd] at hs hl hrun
      exact (climb_past_top hinj hzero IsLeaf hparent hLl hpad hse hlen hs hl hrun).elim

end Sound

end RangeProof

/-- Hashes as the terms that built them: a hash without collisions, whose
`parent` is injective and never the hash of a leaf. The padding is that of
`ZERO_HASHES`: the leaf of 256 zero bytes, then the parent of two of the one
below. -/
inductive SymHash where
  | leaf (data : List UInt8)
  | node (l r : SymHash)
  | null
  deriving DecidableEq

namespace SymHash

def zeroHash : Nat → SymHash
  | 0 => leaf (List.replicate 256 0)
  | h + 1 => node (zeroHash h) (zeroHash h)

instance : HashElement SymHash := ⟨zeroHash, null⟩

def algorithm : Algorithm SymHash := ⟨node, leaf⟩

def isLeaf : SymHash → Bool
  | leaf _ => true
  | _ => false

theorem algorithm_injective (a b c d : SymHash) (h : algorithm.parent a b = algorithm.parent c d) :
    a = c ∧ b = d :=
  node.inj h

theorem endPad_succ (k : Nat) : (HashElement.endPad (k + 1 + 0) : SymHash) =
    algorithm.parent (HashElement.endPad (k + 0)) (HashElement.endPad (k + 0)) := rfl

theorem isLeaf_parent (a b : SymHash) : ¬ isLeaf (algorithm.parent a b) = true := by
  simp [algorithm, isLeaf]

theorem algorithm_keepsKnown : algorithm.KeepsKnown where
  parent l r _ _ := by simp [isNull, algorithm, HashElement.null]
  endPad h := by cases h <;> rfl

/-- Three leaves, and the tree `new` builds over them. -/
def threeLeaves : List SymHash := [leaf [1], leaf [2], leaf [3]]

def threeLeafTree : AppendMerkleTree SymHash :=
  (AppendMerkleTree.empty none 0).withLayers (batchLayers algorithm 0 threeLeaves)

theorem new_threeLeaves : AppendMerkleTree.new algorithm threeLeaves 0 none = .ok threeLeafTree :=
  AppendMerkleTree.new_batch algorithm algorithm_keepsKnown threeLeaves (by decide) 0

/-- The range proof of all four leaves of the tree over `threeLeaves`, the
fourth the padding. -/
def paddedRange : RangeProof SymHash :=
  let top := node (node (leaf [1]) (leaf [2])) (node (leaf [3]) (zeroHash 0))
  ⟨⟨[leaf [1], leaf [2], node (leaf [3]) (zeroHash 0), top], [true, true]⟩,
    ⟨[zeroHash 0, leaf [3], node (leaf [1]) (leaf [2]), top], [false, false]⟩⟩

end SymHash

namespace RangeProof

open SymHash in
/-- The padding of the last odd leaf validates as a fourth leaf of the tree
over three. -/
theorem validate_padding_leaf :
    ∃ T, AppendMerkleTree.new algorithm threeLeaves 0 none = .ok T ∧
      paddedRange.validate algorithm (threeLeaves ++ [HashElement.endPad 0]) 0 = .ok () ∧
      paddedRange.root = T.root ∧
      threeLeaves ++ [HashElement.endPad 0] ≠ (threeLeaves.drop 0).take 4 :=
  ⟨threeLeafTree, new_threeLeaves, by decide +kernel, by decide +kernel, by decide⟩

open SymHash in
/-- `validate_sound` on the padded range over three leaves: four leaves of a
tree of four, the last the padding. -/
theorem validate_sound_padded :
    (∀ a b c d, algorithm.parent a b = algorithm.parent c d → a = c ∧ b = d) ∧
      (∀ k, (HashElement.endPad (k + 1 + 0) : SymHash) =
        algorithm.parent (HashElement.endPad (k + 0)) (HashElement.endPad (k + 0))) ∧
      (∀ a b, ¬ isLeaf (algorithm.parent a b) = true) ∧ algorithm.KeepsKnown ∧
      isLeaf (HashElement.endPad 0) = true ∧ threeLeaves ≠ [] ∧
      (∀ x ∈ threeLeaves, isNull x = false) ∧ (∀ x ∈ threeLeaves, isLeaf x = true) ∧
      AppendMerkleTree.new algorithm threeLeaves 0 none = .ok threeLeafTree ∧
      (∀ x ∈ threeLeaves ++ [HashElement.endPad 0], isLeaf x = true) ∧
      paddedRange.validate algorithm (threeLeaves ++ [HashElement.endPad 0]) 0 = .ok () ∧
      paddedRange.root = threeLeafTree.root ∧
      (0 + (threeLeaves ++ [HashElement.endPad 0]).length ≤ 2 ^ (Merkle.depth threeLeaves.length - 1) ∧
        ∀ i (hi : i < (threeLeaves ++ [HashElement.endPad 0]).length),
          (threeLeaves ++ [HashElement.endPad 0])[i] =
            threeLeaves.getD (0 + i) (HashElement.endPad 0)) := by
  have hpad : isLeaf (HashElement.endPad 0) = true := rfl
  have hL : threeLeaves ≠ [] := by decide
  have hLk : ∀ x ∈ threeLeaves, isNull x = false := by decide
  have hLl : ∀ x ∈ threeLeaves, isLeaf x = true := by decide
  have hX : ∀ x ∈ threeLeaves ++ [HashElement.endPad 0], isLeaf x = true := by decide
  have hvalid : paddedRange.validate algorithm (threeLeaves ++ [HashElement.endPad 0]) 0 = .ok () := by
    decide +kernel
  have hroot : paddedRange.root = threeLeafTree.root := by decide +kernel
  exact ⟨algorithm_injective, endPad_succ, isLeaf_parent, algorithm_keepsKnown, hpad, hL, hLk, hLl,
    new_threeLeaves, hX, hvalid, hroot,
    validate_sound algorithm_injective endPad_succ (fun x => isLeaf x = true) isLeaf_parent
      algorithm_keepsKnown hpad hL hLk hLl new_threeLeaves hX hvalid hroot⟩

end RangeProof

end ZgStorage
