import ZgStorage.AppendMerkle.Recompute

/-!
# Appending leaves gives the batch tree

The layers that `new` builds over some leaves are those of the batch tree
(`batchLayers`): each layer is built from the one below by `A::parent` on
full pairs and `A::parent_single` on an odd last node, up to a layer of one
node. Appending leaves, one by one or in lists, keeps the layers of the
batch tree over all the leaves, so that a tree grown by `append` and
`append_list` is the tree `new` builds over all the leaves at once. The
leaves must be known, and the algorithm must keep known nodes known
(`Algorithm.KeepsKnown`).

The core is the loop of `recompute` after leaves `M` are appended to a tree
over `L` (`AppendInv`): at layer `h`, the layers up to `h` are those over
`L ++ M` and those above still those over `L`; the pass starts at the first
node of the layer above whose subtree was not full, which is that layer's
last node or the position after it, so the pass only overwrites the last
node and appends, and never takes a panic branch.

* `AppendInv.pass`: one pass keeps the invariant or ends at the batch tree;
* `recomputeLoop_append`: the loop rebuilds the batch tree over `L ++ M`;
* `appendList_batch`, `append_batch`, `new_batch`: the three operations on
  batch trees.
-/

namespace ZgStorage

namespace AppendMerkleTree

variable {E : Type} [HashElement E] (A : Algorithm E) (lh : Nat)

/-- Layer `k` of the batch tree over `leaves` with leaf height `lh`. -/
def batchLevel (leaves : List E) (k : Nat) : List E :=
  Merkle.levels A.parent (fun k r => A.parentSingle r (k + lh)) leaves k

/-- The layers of the batch tree over `leaves` with leaf height `lh`. -/
def batchLayers (leaves : List E) : List (List E) :=
  Merkle.tower A.parent (fun k r => A.parentSingle r (k + lh)) leaves

section Batch

variable (xs : List E)

@[simp] theorem batchLevel_zero : batchLevel A lh xs 0 = xs := rfl

theorem batchLevel_succ (k : Nat) :
    batchLevel A lh xs (k + 1) =
      Merkle.up A.parent (fun r => A.parentSingle r (k + lh)) (batchLevel A lh xs k) := rfl

@[simp] theorem length_batchLayers : (batchLayers A lh xs).length = Merkle.depth xs.length :=
  Merkle.length_tower _ _ xs

theorem getElem?_batchLayers {k : Nat} (hk : k < Merkle.depth xs.length) :
    (batchLayers A lh xs)[k]? = some (batchLevel A lh xs k) := by
  rw [List.getElem?_eq_getElem (by simpa using hk)]
  simp [batchLayers, batchLevel]

/-- Appending leaves makes no layer shorter. -/
theorem length_batchLevel_le_append (ys : List E) (k : Nat) :
    (batchLevel A lh xs k).length ≤ (batchLevel A lh (xs ++ ys) k).length :=
  Merkle.levels_length_le_append _ _ xs ys k

/-- A layer below the top one of the tree over `xs` has at least two nodes
after leaves are appended. -/
theorem two_le_length_batchLevel (ys : List E) {k : Nat} (hk : k + 1 < Merkle.depth xs.length) :
    2 ≤ (batchLevel A lh (xs ++ ys) k).length :=
  (Merkle.two_le_levels_length _ _ hk).trans (length_batchLevel_le_append A lh xs ys k)

theorem length_batchLevel_bounds (k : Nat) :
    xs.length / 2 ^ k ≤ (batchLevel A lh xs k).length ∧
      (batchLevel A lh xs k).length ≤ xs.length / 2 ^ k + 1 :=
  Merkle.div_pow_le_levels_length _ _ xs k

/-- Appending leaves changes no node of layer `k` whose subtree was full. -/
theorem getElem?_batchLevel_append_of_lt (ys : List E) {k j : Nat} (hj : j < xs.length / 2 ^ k) :
    (batchLevel A lh (xs ++ ys) k)[j]? = (batchLevel A lh xs k)[j]? := by
  have := congrArg (·[j]?)
    (Merkle.levels_append_take A.parent (fun k r => A.parentSingle r (k + lh)) xs ys k)
  simpa only [batchLevel, List.getElem?_take_of_lt hj] using this

/-- The root of a batch tree over leaves is the root of the leaves:
the node of the top layer. -/
theorem root_batchLayers (t : AppendMerkleTree E) {xs : List E} (hxs : xs ≠ []) :
    ∃ r, (t.withLayers (batchLayers A lh xs)).root = .ok r ∧
      Merkle.root A.parent (fun k r => A.parentSingle r (k + lh)) xs = some r := by
  have hd := Merkle.one_le_depth xs.length
  have htop : (batchLayers A lh xs)[Merkle.depth xs.length - 1]? =
      some (batchLevel A lh xs (Merkle.depth xs.length - 1)) :=
    getElem?_batchLayers A lh xs (by omega)
  have hpos := Merkle.levels_length_pos A.parent (fun k r => A.parentSingle r (k + lh)) hxs
    (Merkle.depth xs.length - 1)
  refine ⟨(batchLevel A lh xs (Merkle.depth xs.length - 1))[0], ?_, ?_⟩
  · rw [root, height_withLayers, length_batchLayers]
    exact node_withLayers htop hpos
  · rw [Merkle.root, List.head?_eq_getElem?, List.getElem?_eq_getElem hpos]
    rfl

theorem batchLevel_known [DecidableEq E] (hk : A.KeepsKnown) {xs : List E} (hx : ∀ x ∈ xs, isNull x = false)
    (k : Nat) : ∀ y ∈ batchLevel A lh xs k, isNull y = false :=
  Merkle.levels_forall _ _ hk.parent (fun _ _ ha => hk.parentSingle ha _) hx k

/-- Every node of a window of a layer over known leaves is known. -/
theorem window_known [DecidableEq E] (hk : A.KeepsKnown) {xs ys : List E}
    (hx : ∀ x ∈ xs, isNull x = false) (hy : ∀ y ∈ ys, isNull y = false) {k i m : Nat} :
    ∀ p ∈ ((batchLevel A lh (xs ++ ys) k).drop i).take m, isNull p = false := fun p hp =>
  batchLevel_known A lh hk (fun x hx' => (List.mem_append.mp hx').elim (hx x) (hy x)) k p
    (List.mem_of_mem_drop (List.mem_of_mem_take hp))

end Batch

variable {L M : List E}

/-- The state of the loop of `recompute` at layer `h` after the leaves `M`
were appended to a tree over `L`. -/
structure AppendInv (L M : List E) (ls : List (List E)) (h s : Nat) (me : Option Nat) : Prop where
  /-- A layer is added only above the old top one. -/
  length_eq : ls.length = max (Merkle.depth L.length) (h + 1)
  /-- The layers up to `h` are those over `L ++ M`. -/
  below : ∀ k ≤ h, ls[k]? = some (batchLevel A lh (L ++ M) k)
  /-- The layers above `h` are still those over `L`. -/
  above : ∀ k, h < k → k < ls.length → ls[k]? = some (batchLevel A lh L k)
  /-- The pass starts at the first node whose subtree was not full. -/
  start_eq : s = L.length / 2 ^ h
  start_le : s ≤ me.getD (batchLevel A lh (L ++ M) h).length
  end_le : me.getD (batchLevel A lh (L ++ M) h).length ≤ (batchLevel A lh (L ++ M) h).length
  /-- From the end of the changed range on, layer `h` did not change. -/
  tail : ∀ j, me.getD (batchLevel A lh (L ++ M) h).length ≤ j →
    (batchLevel A lh L h)[j]? = (batchLevel A lh (L ++ M) h)[j]?
  /-- The layers below `h` have at least two nodes. -/
  wide : ∀ k < h, 2 ≤ (batchLevel A lh (L ++ M) k).length

/-- The state in which `append` and `append_list` start the loop: the new
leaves `M` appended to layer `0` of the batch tree over `L`, from position
`L.length` on. -/
theorem AppendInv.init (L M : List E) :
    AppendInv A lh L M ((batchLayers A lh L).set 0 (L ++ M)) 0 L.length none where
  length_eq := by
    have := Merkle.one_le_depth L.length
    simp only [List.length_set, length_batchLayers]
    omega
  below k hk := by
    obtain rfl : k = 0 := by omega
    exact List.getElem?_set_self (by simp only [length_batchLayers]; exact Merkle.one_le_depth _)
  above k hk hk' := by
    rw [List.getElem?_set_ne (by omega), getElem?_batchLayers A lh L (by simpa using hk')]
  start_eq := by simp
  start_le := by simp
  end_le := le_rfl
  tail j hj := by
    simp only [Option.getD_none, batchLevel_zero] at hj ⊢
    rw [List.getElem?_eq_none (by simp at hj; omega), List.getElem?_eq_none hj]
  wide k hk := absurd hk (Nat.not_lt_zero k)

namespace AppendInv

variable {A lh} {ls : List (List E)} {h s : Nat} {me : Option Nat}
  (hinv : AppendInv A lh L M ls h s me)
include hinv

/-- A changed range that ends before the end of layer `h` leaves the layer
as long as it was. -/
theorem length_eq_of_lt (he : me.getD (batchLevel A lh (L ++ M) h).length <
    (batchLevel A lh (L ++ M) h).length) :
    (batchLevel A lh L h).length = (batchLevel A lh (L ++ M) h).length := by
  have hpos : (batchLevel A lh (L ++ M) h).length - 1 < (batchLevel A lh (L ++ M) h).length := by
    omega
  have hj := hinv.tail ((batchLevel A lh (L ++ M) h).length - 1) (by omega)
  rw [List.getElem?_eq_getElem hpos] at hj
  have hlt : (batchLevel A lh (L ++ M) h).length - 1 < (batchLevel A lh L h).length := by
    by_contra hc
    rw [List.getElem?_eq_none (Nat.le_of_not_lt hc)] at hj
    cases hj
  have := length_batchLevel_le_append A lh L M h
  omega

/-- The pass at layer `h` writes from the first node of layer `h + 1` whose
subtree was not full. -/
theorem shift_start : s >>> 1 = L.length / 2 ^ (h + 1) := by
  rw [Nat.shiftRight_eq_div_pow, hinv.start_eq, Nat.div_div_eq_div_mul, ← pow_add]

/-- Layer `h + 1` of the batch tree over `L ++ M` agrees with the one over
`L` from the parent of the end of the changed range on. -/
theorem tail_succ {e' : Nat} (he'1 : me.getD (batchLevel A lh (L ++ M) h).length ≤ e')
    (he'2 : e' ≤ (batchLevel A lh (L ++ M) h).length) :
    ∀ j, (e' + 1) / 2 ≤ j →
      (batchLevel A lh L (h + 1))[j]? = (batchLevel A lh (L ++ M) (h + 1))[j]? := by
  intro j hj
  by_cases he : me.getD (batchLevel A lh (L ++ M) h).length < (batchLevel A lh (L ++ M) h).length
  · rw [batchLevel_succ, batchLevel_succ]
    exact Merkle.up_getElem?_congr _ _ (hinv.length_eq_of_lt he) hinv.tail (by omega)
  · -- the range reached the end of layer `h`, so `j` is past the end of both layers
    have hlen := length_batchLevel_le_append A lh L M (h + 1)
    have hup : (batchLevel A lh (L ++ M) (h + 1)).length =
        ((batchLevel A lh (L ++ M) h).length + 1) / 2 := by
      rw [batchLevel_succ, Merkle.up_length]
    rw [List.getElem?_eq_none (show (batchLevel A lh L (h + 1)).length ≤ j by omega),
      List.getElem?_eq_none (show (batchLevel A lh (L ++ M) (h + 1)).length ≤ j by omega)]

/-- Under the loop condition, layer `h` has at least two nodes. -/
theorem two_le (hc : (batchLevel A lh (L ++ M) h).length > 1 ∨ h < ls.length - 1) :
    2 ≤ (batchLevel A lh (L ++ M) h).length := by
  rcases hc with hc | hc
  · exact hc
  · have := hinv.length_eq
    exact two_le_length_batchLevel A lh L M (by omega)

/-- When layer `h + 1` is the same over `L` and over `L ++ M`, so is every
layer above it, and the layers are those of the batch tree over `L ++ M`. -/
theorem eq_batchLayers (hh : h + 1 < Merkle.depth L.length)
    (heq : batchLevel A lh L (h + 1) = batchLevel A lh (L ++ M) (h + 1))
    (hw : 2 ≤ (batchLevel A lh (L ++ M) h).length) : ls = batchLayers A lh (L ++ M) := by
  have hlen : ls.length = Merkle.depth L.length := by
    have := hinv.length_eq
    omega
  have hup : ∀ k, h + 1 ≤ k → batchLevel A lh L k = batchLevel A lh (L ++ M) k :=
    Merkle.levels_eq_of_le _ _ heq
  have hd := Merkle.one_le_depth L.length
  -- the top layer and the wide layers below it are where they were
  have hdepth : Merkle.depth (L ++ M).length = Merkle.depth L.length := by
    rw [show Merkle.depth L.length = Merkle.depth L.length - 1 + 1 by omega]
    apply Merkle.depth_eq_of_levels
    · change (batchLevel A lh (L ++ M) _).length ≤ 1
      rw [← hup _ (by omega)]
      exact Merkle.levels_length_le_one _ _ (by omega)
    · intro k hk
      change 2 ≤ (batchLevel A lh (L ++ M) k).length
      rcases Nat.lt_trichotomy k h with hlt | rfl | hgt
      · exact hinv.wide k hlt
      · exact hw
      · rw [← hup k (by omega)]
        exact Merkle.two_le_levels_length _ _ (by omega)
  apply Merkle.eq_tower _ _ (hlen.trans hdepth.symm)
  intro k hk
  by_cases hkh : k ≤ h
  · exact hinv.below k hkh
  · rw [hinv.above k (by omega) hk, hup k (by omega)]
    rfl

/-- When the loop stops at layer `h`, the layers are those of the batch
tree over `L ++ M`. -/
theorem eq_batchLayers_of_top (htop : (batchLevel A lh (L ++ M) h).length ≤ 1)
    (hh : ls.length ≤ h + 1) : ls = batchLayers A lh (L ++ M) := by
  have hdepth : Merkle.depth (L ++ M).length = h + 1 :=
    Merkle.depth_eq_of_levels _ _ htop hinv.wide
  have hlen := hinv.length_eq
  apply Merkle.eq_tower _ _ (by omega)
  intro k hk
  exact hinv.below k (by omega)

/-- The invariant one layer up, once layer `h + 1` is the layer over
`L ++ M` and the changed range of it ends at `j`. -/
theorem succ (hw : 2 ≤ (batchLevel A lh (L ++ M) h).length) {ls₁ : List (List E)}
    (hlen₁ : ls₁.length = max (Merkle.depth L.length) (h + 2))
    (hbelow : ∀ k ≤ h, ls₁[k]? = ls[k]?) (habove : ∀ k, h + 1 < k → ls₁[k]? = ls[k]?)
    {j : Nat} (hj₁ : s >>> 1 ≤ j) (hj₂ : j ≤ (batchLevel A lh (L ++ M) (h + 1)).length)
    (htail : ∀ p, j ≤ p →
      (batchLevel A lh L (h + 1))[p]? = (batchLevel A lh (L ++ M) (h + 1))[p]?) :
    AppendInv A lh L M (ls₁.set (h + 1) (batchLevel A lh (L ++ M) (h + 1))) (h + 1) (s >>> 1)
      (some j) where
  length_eq := by rw [List.length_set, hlen₁]
  below k hk := by
    rcases Nat.lt_or_ge k (h + 1) with hlt | hge
    · rw [List.getElem?_set_ne (by omega), hbelow k (by omega), hinv.below k (by omega)]
    · obtain rfl : k = h + 1 := by omega
      exact List.getElem?_set_self (by omega)
  above k hk hk' := by
    have := hinv.length_eq
    rw [List.length_set] at hk'
    rw [List.getElem?_set_ne (by omega), habove k hk, hinv.above k (by omega) (by omega)]
  start_eq := by rw [hinv.shift_start]
  start_le := hj₁
  end_le := hj₂
  tail := htail
  wide k hk := by
    rcases Nat.lt_or_ge k h with hlt | hge
    · exact hinv.wide k hlt
    · obtain rfl : k = h := by omega
      exact hw

variable [DecidableEq E] (hk : A.KeepsKnown) (hL : ∀ x ∈ L, isNull x = false)
  (hM : ∀ x ∈ M, isNull x = false)
include hk hL hM

section Pass

variable {t : AppendMerkleTree E} {e' : Nat} {ps : List E}
  (hw : 2 ≤ (batchLevel A lh (L ++ M) h).length)
  (he'1 : me.getD (batchLevel A lh (L ++ M) h).length ≤ e')
  (he'2 : e' ≤ (batchLevel A lh (L ++ M) h).length)
  (h2i0 : 2 * (s >>> 1) ≤ e')
  (hps : ((batchLevel A lh (L ++ M) (h + 1)).drop (s >>> 1)).take ((e' + 1) / 2 - s >>> 1) = ps)
include hw he'1 he'2 h2i0 hps

/-- The pass below the old top layer: it overwrites the last node of layer
`h + 1` over `L` and appends, giving layer `h + 1` over `L ++ M`. -/
theorem pass_old_layer (hlt : h + 1 < ls.length) :
    ∃ ls' last, (if ((List.range' (s >>> 1) ps.length).zip ps).isEmpty then t.withLayers ls
        else (t.withLayers ls).beforeExtendLayer (h + 1)).applyParentUpdate (h + 1)
          ((List.range' (s >>> 1) ps.length).zip ps) none = .ok (t.withLayers ls', last) ∧
      (last = none → ls' = batchLayers A lh (L ++ M)) ∧
      ∀ i, last = some i → AppendInv A lh L M ls' (h + 1) (s >>> 1) (some (i + 1)) := by
  rw [beforeExtendLayer_withLayers, if_neg (show ¬h + 1 = ls.length by omega), ite_self]
  have hlen := hinv.length_eq
  have hO := hinv.above (h + 1) (by omega) hlt
  have hbounds := length_batchLevel_bounds A lh L (h + 1)
  rw [← hinv.shift_start] at hbounds
  have hY : (batchLevel A lh (L ++ M) (h + 1)).length =
      ((batchLevel A lh (L ++ M) h).length + 1) / 2 := by
    rw [batchLevel_succ, Merkle.up_length]
  have hwin : s >>> 1 + ps.length = (e' + 1) / 2 := by
    rw [← hps, List.length_take, List.length_drop]
    omega
  -- the old layer with the window written in is the new layer
  have hov : Merkle.overwrite (batchLevel A lh L (h + 1)) (s >>> 1) ps =
      batchLevel A lh (L ++ M) (h + 1) := by
    rw [← hps]
    apply Merkle.overwrite_eq_of_agree hbounds.1 (by omega)
    · intro j hj
      rw [getElem?_batchLevel_append_of_lt A lh L M (hinv.shift_start ▸ hj)]
    · intro j hj
      exact hinv.tail_succ he'1 he'2 j (by omega)
  rw [applyParentUpdate_overwrite t (h + 1) ps none hO hbounds.1 hbounds.2
    (hps ▸ window_known A lh hk hL hM), hov]
  refine ⟨_, _, rfl, fun hnone => ?_, fun i hi => ?_⟩
  · -- nothing changed: the layers above `h` are those over `L ++ M` already
    have heq : batchLevel A lh (L ++ M) (h + 1) = batchLevel A lh L (h + 1) := by
      by_contra hne
      rw [if_neg hne] at hnone
      cases hnone
    obtain ⟨hlt', hget⟩ := List.getElem?_eq_some_iff.mp hO
    rw [heq, ← hget, List.set_getElem_self]
    exact hinv.eq_batchLayers (by omega) heq.symm hw
  · have hne : ¬batchLevel A lh (L ++ M) (h + 1) = batchLevel A lh L (h + 1) := by
      intro heq
      rw [if_pos heq] at hi
      cases hi
    rw [if_neg hne, Option.some.injEq] at hi
    have hps0 : ps ≠ [] := by
      rintro rfl
      exact hne (by rw [← hov, Merkle.overwrite_nil])
    have hpos : 0 < ps.length := List.length_pos_iff.mpr hps0
    exact hinv.succ hw (by omega) (fun _ _ => rfl) (fun _ _ => rfl) (by omega) (by omega)
      (fun p hp => hinv.tail_succ he'1 he'2 p (by omega))

/-- The pass at the old top layer: layer `h` changed up to its end, and
its parents fill a new layer `h + 1`. -/
theorem pass_new_layer (htop : ls.length = h + 1) :
    ∃ ls' last, (if ((List.range' (s >>> 1) ps.length).zip ps).isEmpty then t.withLayers ls
        else (t.withLayers ls).beforeExtendLayer (h + 1)).applyParentUpdate (h + 1)
          ((List.range' (s >>> 1) ps.length).zip ps) none = .ok (t.withLayers ls', last) ∧
      (last = none → ls' = batchLayers A lh (L ++ M)) ∧
      ∀ i, last = some i → AppendInv A lh L M ls' (h + 1) (s >>> 1) (some (i + 1)) := by
  have hlen := hinv.length_eq
  have hD : Merkle.depth L.length ≤ h + 1 := by omega
  have hi0 : s >>> 1 = 0 := by
    rw [hinv.shift_start]
    exact Merkle.div_two_pow_eq_zero_of_depth_le hD
  -- layer `h` over `L` has at most one node, so the changed range reaches
  -- the end of layer `h`
  have hfull : me.getD (batchLevel A lh (L ++ M) h).length = (batchLevel A lh (L ++ M) h).length := by
    by_contra hne
    have h1 := hinv.length_eq_of_lt (by omega)
    have h2 : (batchLevel A lh L h).length ≤ 1 := Merkle.levels_length_le_one _ _ hD
    omega
  have hY : (batchLevel A lh (L ++ M) (h + 1)).length =
      ((batchLevel A lh (L ++ M) h).length + 1) / 2 := by
    rw [batchLevel_succ, Merkle.up_length]
  have hpsY : ps = batchLevel A lh (L ++ M) (h + 1) := by
    rw [← hps, hi0, List.drop_zero, List.take_of_length_le (by omega)]
  have hne : ps ≠ [] := by
    intro hnil
    have := congrArg List.length (hpsY ▸ hnil)
    simp only [List.length_nil] at this
    omega
  have hO : (ls ++ [[]])[h + 1]? = some [] := by
    rw [List.getElem?_append_right (by omega), htop, Nat.sub_self, List.getElem?_cons_zero]
  rw [if_neg (by simpa using hne), beforeExtendLayer_withLayers, if_pos htop.symm,
    applyParentUpdate_overwrite t (h + 1) ps none hO (by simp [hi0]) (by simp)
      (hps ▸ window_known A lh hk hL hM)]
  have hov : Merkle.overwrite [] (s >>> 1) ps = ps := by simp [Merkle.overwrite, hi0]
  rw [hov, if_neg hne, hpsY]
  refine ⟨_, _, rfl, fun hnone => (by cases hnone), fun i hi => ?_⟩
  rw [Option.some.injEq] at hi
  have hpos : 0 < (batchLevel A lh (L ++ M) (h + 1)).length := by
    rw [← hpsY]
    exact List.length_pos_iff.mpr hne
  exact hinv.succ hw (by simp; omega) (fun k hk => List.getElem?_append_left (by omega))
    (fun k hk => by rw [List.getElem?_eq_none (by simp; omega), List.getElem?_eq_none (by omega)])
    (by omega) (by omega) (fun p hp => hinv.tail_succ he'1 he'2 p (by omega))

end Pass


/-- One pass of the loop at layer `h`: the parents it writes are the nodes
of layer `h + 1` over `L ++ M` from the first one whose subtree was not
full; it stops at the batch tree over `L ++ M` when nothing changed, and
keeps the invariant one layer up otherwise. -/
theorem pass {t : AppendMerkleTree E} (hlh : t.leafHeight = lh)
    (hc : (batchLevel A lh (L ++ M) h).length > 1 ∨ h < ls.length - 1) :
    ∃ ls' last, (t.withLayers ls).recomputePass A s h me (batchLevel A lh (L ++ M) h).length =
        .ok (t.withLayers ls', last) ∧
      (last = none → ls' = batchLayers A lh (L ++ M)) ∧
      ∀ i, last = some i → AppendInv A lh L M ls' (h + 1) (s >>> 1) (some (i + 1)) := by
  have hw := hinv.two_le hc
  have hlen := hinv.length_eq
  have hlayer := hinv.below h le_rfl
  have hi0 := hinv.shift_start
  have hsle := hinv.start_le
  have hend := hinv.end_le
  have hY : (batchLevel A lh (L ++ M) (h + 1)).length =
      ((batchLevel A lh (L ++ M) h).length + 1) / 2 := by
    rw [batchLevel_succ, Merkle.up_length]
  -- the changed range of layer `h`, widened to whole pairs
  have hstart : (if s % 2 = 1 then s - 1 else s) = 2 * (s >>> 1) := by
    rw [Nat.shiftRight_one]
    split <;> omega
  obtain ⟨e', he', he'1, he'2, he'3⟩ : ∃ e',
      (if me.getD (batchLevel A lh (L ++ M) h).length % 2 = 1 ∧
          me.getD (batchLevel A lh (L ++ M) h).length ≠ (batchLevel A lh (L ++ M) h).length
        then me.getD (batchLevel A lh (L ++ M) h).length + 1
        else me.getD (batchLevel A lh (L ++ M) h).length) = e' ∧
      me.getD (batchLevel A lh (L ++ M) h).length ≤ e' ∧ e' ≤ (batchLevel A lh (L ++ M) h).length ∧
      (e' = (batchLevel A lh (L ++ M) h).length ∨ e' % 2 = 0) :=
    ⟨_, rfl, by split <;> omega, by split <;> omega, by split <;> omega⟩
  have h2i0 : 2 * (s >>> 1) ≤ e' := by
    rw [Nat.shiftRight_one]
    omega
  -- the parents written are a window of layer `h + 1` over `L ++ M`
  have hpu : parentUpdate A (t.withLayers ls).leafHeight h (s >>> 1)
      ((t.withLayers ls).nodeManager.getNodes h (if s % 2 = 1 then s - 1 else s) e') =
      (List.range' (s >>> 1) (((batchLevel A lh (L ++ M) (h + 1)).drop (s >>> 1)).take
        ((e' + 1) / 2 - s >>> 1)).length).zip
        (((batchLevel A lh (L ++ M) (h + 1)).drop (s >>> 1)).take ((e' + 1) / 2 - s >>> 1)) := by
    rw [hstart, getNodes_withLayers hlayer, leafHeight_withLayers, hlh,
      parentUpdate_of_known A lh h _ _ (fun x hx =>
        batchLevel_known A lh hk (fun x hx => (List.mem_append.mp hx).elim (hL x) (hM x)) h x
          (List.mem_of_mem_drop (List.mem_of_mem_take hx))),
      Merkle.up_window _ _ _ h2i0 he'2 he'3, ← batchLevel_succ]
  simp only [recomputePass]
  rw [he', hpu]
  generalize hps : ((batchLevel A lh (L ++ M) (h + 1)).drop (s >>> 1)).take
    ((e' + 1) / 2 - s >>> 1) = ps
  rcases Nat.lt_or_ge (h + 1) ls.length with hlt | hge
  · exact pass_old_layer hinv hk hL hM hw he'1 he'2 h2i0 hps hlt
  · exact pass_new_layer hinv hk hL hM hw he'1 he'2 h2i0 hps (by omega)

end AppendInv

section Loop

variable [DecidableEq E] (hk : A.KeepsKnown) (hL : ∀ x ∈ L, isNull x = false)
  (hM : ∀ x ∈ M, isNull x = false)
include hk hL hM

/-- From a state of the invariant, the loop of `recompute` rebuilds the
batch tree over `L ++ M`, without a panic. -/
theorem recomputeLoop_append {t : AppendMerkleTree E} (hlh : t.leafHeight = lh)
    {ls : List (List E)} {h s : Nat} {me : Option Nat} (hinv : AppendInv A lh L M ls h s me) :
    (t.withLayers ls).recomputeLoop A s h me = .ok (t.withLayers (batchLayers A lh (L ++ M))) := by
  obtain ⟨r, hr, rfl⟩ := recomputeLoop_rule A
    (fun u s h me => ∃ ls, u = t.withLayers ls ∧ AppendInv A lh L M ls h s me)
    (fun r => r = t.withLayers (batchLayers A lh (L ++ M)))
    (fun u s h me ⟨ls, hu, hinv⟩ => ⟨_, hu ▸ layerLen_withLayers (hinv.below h le_rfl)⟩)
    (fun u s h me len ⟨ls, hu, hinv⟩ hl hc => by
      subst hu
      rw [layerLen_withLayers (hinv.below h le_rfl), Except.ok.injEq] at hl
      subst hl
      rw [height_withLayers] at hc
      rw [hinv.eq_batchLayers_of_top (by omega) (by have := hinv.length_eq; omega)])
    (fun u s h me len ⟨ls, hu, hinv⟩ hl hc => by
      subst hu
      rw [layerLen_withLayers (hinv.below h le_rfl), Except.ok.injEq] at hl
      subst hl
      rw [height_withLayers] at hc
      obtain ⟨ls', last, hp, hnone, hsome⟩ := hinv.pass hk hL hM hlh hc
      exact ⟨_, last, hp, fun h => by rw [hnone h], fun i hi => ⟨ls', rfl, hsome i hi⟩⟩)
    (t.withLayers ls) s h me ⟨ls, rfl, hinv⟩
  exact hr

end Loop

variable [DecidableEq E] (hk : A.KeepsKnown)
include hk

/-- `append_list` of known leaves on the batch tree over `L` gives the
batch tree over `L ++ M`. -/
theorem appendList_batch (t : AppendMerkleTree E) (hL : ∀ x ∈ L, isNull x = false)
    (hM : ∀ x ∈ M, isNull x = false) :
    (t.withLayers (batchLayers A t.leafHeight L)).appendList A M =
      .ok (t.withLayers (batchLayers A t.leafHeight (L ++ M))) := by
  have h0 : (batchLayers A t.leafHeight L)[0]? = some L :=
    getElem?_batchLayers A _ L (Merkle.one_le_depth _)
  have hany : M.any isNull = false := List.any_eq_false.mpr fun x hx => by simp [hM x hx]
  simp only [appendList, hany, Bool.false_eq_true, if_false, leaves, layerLen_withLayers h0,
    Except.ok_bind, appendNodes_withLayers h0, recompute,
    Nat.shiftRight_zero, Option.map_none]
  exact recomputeLoop_append A _ hk hL hM rfl (AppendInv.init A _ L M)

/-- `append` of a known leaf on the batch tree over `L` gives the batch tree
over `L ++ [x]`. -/
theorem append_batch (t : AppendMerkleTree E) (hL : ∀ x ∈ L, isNull x = false) {x : E}
    (hx : isNull x = false) :
    (t.withLayers (batchLayers A t.leafHeight L)).append A x =
      .ok (t.withLayers (batchLayers A t.leafHeight (L ++ [x]))) := by
  have h0 : (batchLayers A t.leafHeight L)[0]? = some L :=
    getElem?_batchLayers A _ L (Merkle.one_le_depth _)
  have h0' : ((batchLayers A t.leafHeight L).set 0 (L ++ [x]))[0]? = some (L ++ [x]) :=
    List.getElem?_set_self (by simp only [length_batchLayers]; exact Merkle.one_le_depth _)
  simp only [append, hx, Bool.false_eq_true, if_false, pushNode_withLayers h0, Except.ok_bind,
    leaves, layerLen_withLayers h0', recompute, Nat.shiftRight_zero,
    Option.map_none, List.length_append, List.length_singleton, Nat.add_sub_cancel]
  exact recomputeLoop_append A _ hk hL (by simpa using hx) rfl (AppendInv.init A _ L [x])

/-- `new` over known leaves builds the batch tree, then commits it as the
version `start_tx_seq`. -/
theorem new_commit (leaves : List E) (hleaves : ∀ x ∈ leaves, isNull x = false) (lh : Nat)
    (startTxSeq : Option Nat) :
    new A leaves lh startTxSeq =
      ((empty none lh).withLayers (batchLayers A lh leaves)).commit startTxSeq := by
  have hnil : batchLayers A lh ([] : List E) = [[]] := by
    simp [batchLayers, Merkle.tower, Merkle.depth]
  have hadd : (empty none lh : AppendMerkleTree E).addLayer =
      (empty none lh).withLayers (batchLayers A lh []) := by
    rw [hnil]
    rfl
  unfold new
  rw [hadd, appendNodes_withLayers (by rw [hnil]; rfl), Except.ok_bind, AppendMerkleTree.leaves,
    layerLen_withLayers (List.getElem?_set_self (by simp [hnil])), Except.ok_bind]
  by_cases hl : leaves = []
  · -- no leaves: the version is recorded as an empty tree, as `commit` does
    subst hl
    cases startTxSeq with
    | none => simp [hnil, commit]
    | some seq => simp [hnil, commit, AppendMerkleTree.leaves, layerLen_withLayers]
  · rw [if_neg (by simpa using hl), recompute, Nat.shiftRight_zero,
      Option.map_none]
    have hloop := recomputeLoop_append A lh hk (L := []) (by simp) hleaves
      (t := empty none lh) rfl (AppendInv.init A lh [] leaves)
    simp only [List.nil_append, List.length_nil] at hloop
    rw [List.nil_append, hloop, Except.ok_bind]

/-- `new` over known leaves, without a version, builds the batch tree. -/
theorem new_batch (leaves : List E) (hleaves : ∀ x ∈ leaves, isNull x = false) (lh : Nat) :
    new A leaves lh none = .ok ((empty none lh).withLayers (batchLayers A lh leaves)) := by
  rw [new_commit A hk leaves hleaves lh none]
  rfl

end AppendMerkleTree

/-- A change of the leaves after `new`: `append` or `append_list`. -/
inductive AppendOp (E : Type) where
  | append (newLeaf : E)
  | appendList (leafList : List E)

namespace AppendOp

variable {E : Type}

/-- The leaves an operation appends. -/
def leaves : AppendOp E → List E
  | append newLeaf => [newLeaf]
  | appendList leafList => leafList

/-- Run one operation on a tree. -/
def run [DecidableEq E] [HashElement E] (A : Algorithm E) (t : AppendMerkleTree E) :
    AppendOp E → Except Error (AppendMerkleTree E)
  | append newLeaf => t.append A newLeaf
  | appendList leafList => t.appendList A leafList

end AppendOp

namespace AppendMerkleTree

variable {E : Type} [DecidableEq E] [HashElement E] (A : Algorithm E)

/-- One operation on the batch tree over known leaves `L` gives the batch
tree over `L` and the leaves it appends. -/
theorem appendOp_batch (hk : A.KeepsKnown) (t : AppendMerkleTree E) {L : List E} (op : AppendOp E)
    (hL : ∀ x ∈ L, isNull x = false) (hop : ∀ x ∈ op.leaves, isNull x = false) :
    op.run A (t.withLayers (batchLayers A t.leafHeight L)) =
      .ok (t.withLayers (batchLayers A t.leafHeight (L ++ op.leaves))) := by
  cases op with
  | append x => exact append_batch A hk t hL (hop x (by simp [AppendOp.leaves]))
  | appendList xs => exact appendList_batch A hk t hL hop

/-- Run operations in order, up to the first error. -/
def runAppends (t : AppendMerkleTree E) (ops : List (AppendOp E)) :
    Except Error (AppendMerkleTree E) :=
  ops.foldlM (fun t op => op.run A t) t

/-- Operations on the batch tree over `L` give the batch tree over `L` and
the leaves they append. -/
theorem runAppends_batch (hk : A.KeepsKnown) (t : AppendMerkleTree E) :
    ∀ (ops : List (AppendOp E)) (L : List E),
      (∀ x ∈ L ++ ops.flatMap AppendOp.leaves, isNull x = false) →
      runAppends A (t.withLayers (batchLayers A t.leafHeight L)) ops =
        .ok (t.withLayers (batchLayers A t.leafHeight (L ++ ops.flatMap AppendOp.leaves)))
  | [], L, _ => by simp [runAppends]
  | op :: ops, L, hx => by
    have hop := appendOp_batch A hk t (L := L) op (fun x h => hx x (by simp [h])) (fun x h => hx x (by simp [h]))
    rw [runAppends, List.foldlM_cons, hop, Except.ok_bind, ← runAppends,
      runAppends_batch hk t ops (L ++ op.leaves) (by simpa [List.append_assoc] using hx)]
    simp [List.append_assoc]

/-- A tree built by `new` over known leaves `b₀` and grown by any run of
`append` and `append_list` of known leaves is the tree that `new` builds
over all the leaves at once: the batch tree over them, whose root is the
root of the leaves. Every step succeeds, so no panic branch of `recompute`
is taken. -/
theorem new_runAppends (hk : A.KeepsKnown) (b₀ : List E) (lh : Nat) (ops : List (AppendOp E))
    (hknown : ∀ x ∈ b₀ ++ ops.flatMap AppendOp.leaves, isNull x = false) :
    ∃ T, (new A b₀ lh none >>= fun t => runAppends A t ops) = .ok T ∧
      new A (b₀ ++ ops.flatMap AppendOp.leaves) lh none = .ok T ∧
      T.nodeManager.layers = batchLayers A lh (b₀ ++ ops.flatMap AppendOp.leaves) ∧
      (b₀ ++ ops.flatMap AppendOp.leaves ≠ [] → ∃ r, T.root = .ok r ∧
        Merkle.root A.parent (fun k r => A.parentSingle r (k + lh))
          (b₀ ++ ops.flatMap AppendOp.leaves) = some r) := by
  have hb₀ : ∀ x ∈ b₀, isNull x = false := fun x h => hknown x (by simp [h])
  refine ⟨(empty none lh).withLayers (batchLayers A lh (b₀ ++ ops.flatMap AppendOp.leaves)), ?_,
    new_batch A hk _ hknown lh, rfl, fun hne => root_batchLayers A lh _ hne⟩
  rw [new_batch A hk b₀ hb₀ lh, Except.ok_bind]
  exact runAppends_batch A hk (empty none lh) ops b₀ hknown

/-- `new_runAppends` for `Sha3Algorithm` on `OptionalHash`: one leaf, then
one more by `append` and one by `append_list`. -/
theorem new_runAppends_optional :
    (Sha3Algorithm.optional : Algorithm OptionalHash).KeepsKnown ∧
      (∀ x ∈ [OptionalHash.some H256.zero] ++ [AppendOp.append (.some H256.zero),
        AppendOp.appendList [.some H256.zero]].flatMap AppendOp.leaves,
        isNull (x : OptionalHash) = false) ∧
      ∃ T, (new Sha3Algorithm.optional [.some H256.zero] 0 none >>= fun t =>
          runAppends Sha3Algorithm.optional t
            [AppendOp.append (.some H256.zero), AppendOp.appendList [.some H256.zero]]) = .ok T ∧
        new Sha3Algorithm.optional ([OptionalHash.some H256.zero] ++ [AppendOp.append (.some H256.zero),
          AppendOp.appendList [.some H256.zero]].flatMap AppendOp.leaves) 0 none = .ok T ∧
        T.nodeManager.layers = batchLayers Sha3Algorithm.optional 0 ([OptionalHash.some H256.zero] ++
          [AppendOp.append (.some H256.zero), AppendOp.appendList [.some H256.zero]].flatMap
            AppendOp.leaves) ∧
        ([OptionalHash.some H256.zero] ++ [AppendOp.append (.some H256.zero),
            AppendOp.appendList [.some H256.zero]].flatMap AppendOp.leaves ≠ [] →
          ∃ r, T.root = .ok r ∧
            Merkle.root Sha3Algorithm.optional.parent
              (fun k r => Sha3Algorithm.optional.parentSingle r (k + 0))
              ([OptionalHash.some H256.zero] ++ [AppendOp.append (.some H256.zero),
                AppendOp.appendList [.some H256.zero]].flatMap AppendOp.leaves) = some r) :=
  have hknown : ∀ x ∈ [OptionalHash.some H256.zero] ++ [AppendOp.append (.some H256.zero),
      AppendOp.appendList [.some H256.zero]].flatMap AppendOp.leaves,
      isNull (x : OptionalHash) = false := by
    simp [AppendOp.leaves, Sha3Algorithm.isNull_optional, OptionalHash.some]
  ⟨Sha3Algorithm.optional_keepsKnown, hknown,
    new_runAppends _ Sha3Algorithm.optional_keepsKnown _ 0 _ hknown⟩

end AppendMerkleTree

end ZgStorage
