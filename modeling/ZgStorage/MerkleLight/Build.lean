import ZgStorage.MerkleLight.Merkle
import ZgStorage.Framework.Except

/-!
# What `build` leaves in the array and the link map

Over `n` leaves, layer `l` of the tree has `layerWidth n l` nodes, node `p`
over the leaves `chunk y l p`, and starts at `layerBase n l`, after the
layers below it padded to an even width. A node is real (`IsReal`) when it is
a leaf or its right child has leaves: it then holds the root of its leaves,
and a node that is not holds the null node (`nodeValue`).

`Built A y l data linkMap` is what `build` keeps once it has pushed layer
`l`: every node of the layers so far holds its value, every null node the
proofs still climb through links to a node that holds its leaves' root, and
the pads are null with no link. One pair of a layer keeps it
(`Built.buildPair`), so the layer does (`Built.buildLayer`, `Built.push`),
and so does the whole loop (`Built.buildLoop`), which ends at the layer of
one node. `fromIter_root` follows: the root of the tree is the root of the
split tree over its leaf hashes, as long as no leaf hash and no node hash it
computes is the null node (`NoNullNode`).
-/

namespace ZgStorage

namespace MerkleLight

open SplitTree

/-! ## The shape of the layers -/

/-- The nodes of layer `l` over `n` leaves, before padding. -/
def layerWidth (n : Nat) : Nat → Nat
  | 0 => n
  | l + 1 => (layerWidth n l + 1) / 2

/-- Where layer `l` starts: after the layers below, each padded to an even
width. -/
def layerBase (n : Nat) : Nat → Nat
  | 0 => 0
  | l + 1 => layerBase n l + (layerWidth n l + layerWidth n l % 2)

/-- Node `p` of layer `l` holds a hash: it is a leaf, or its right child has
leaves. -/
def IsReal (n : Nat) : Nat → Nat → Prop
  | 0, _ => True
  | l + 1, p => 2 * p + 1 < layerWidth n l

instance : (n l p : Nat) → Decidable (IsReal n l p)
  | _, 0, _ => isTrue trivial
  | n, l + 1, p => inferInstanceAs (Decidable (2 * p + 1 < layerWidth n l))

theorem lt_layerWidth_iff {n l p : Nat} : p < layerWidth n l ↔ p * 2 ^ l < n := by
  induction l generalizing p with
  | zero => simp [layerWidth]
  | succ l ih =>
    rw [layerWidth, show p < (layerWidth n l + 1) / 2 ↔ 2 * p < layerWidth n l by omega, ih,
      show 2 * p * 2 ^ l = p * 2 ^ (l + 1) by ring]

theorem layerWidth_le_one_iff {n l : Nat} (hn : 0 < n) : layerWidth n l ≤ 1 ↔ n ≤ 2 ^ l := by
  have h₀ := (lt_layerWidth_iff (p := 0) (l := l) (n := n)).mpr (by simpa using hn)
  have h₁ := lt_layerWidth_iff (p := 1) (l := l) (n := n)
  rw [Nat.one_mul] at h₁
  omega

theorem layerWidth_pos {n l : Nat} (hn : 0 < n) : 0 < layerWidth n l :=
  lt_layerWidth_iff.mpr (by rw [Nat.zero_mul]; exact hn)

theorem layerWidth_succ_lt {n l : Nat} (h : 1 < layerWidth n l) : layerWidth n (l + 1) < layerWidth n l := by
  rw [layerWidth]
  omega

theorem layerBase_succ_le {n l l' : Nat} (h : l < l') :
    layerBase n l + (layerWidth n l + layerWidth n l % 2) ≤ layerBase n l' := by
  induction l' with
  | zero => omega
  | succ l' ih =>
    rw [layerBase]
    rcases Nat.lt_succ_iff_lt_or_eq.mp h with h | rfl
    · exact Nat.le_trans (ih h) (Nat.le_add_right _ _)
    · exact Nat.le_refl _

theorem chunk_ne_nil_iff {α : Type} {y : List α} {l p : Nat} : chunk y l p ≠ [] ↔ p < layerWidth y.length l := by
  rw [Ne, chunk_eq_nil_iff, lt_layerWidth_iff]
  omega

/-- The left child of a node whose right child has leaves is real. -/
theorem isReal_left {n l p : Nat} (h : 2 * p + 1 < layerWidth n l) : IsReal n l (2 * p) := by
  cases l with
  | zero => trivial
  | succ l =>
    show 2 * (2 * p) + 1 < layerWidth n l
    rw [lt_layerWidth_iff] at h ⊢
    have : (2 * (2 * p) + 1) * 2 ^ l ≤ (2 * p + 1) * 2 ^ (l + 1) := by
      rw [Nat.pow_succ]
      nlinarith [Nat.two_pow_pos l]
    omega

/-! ## The link map -/

section Updates

variable {T : Type}

/-- The link map after the updates of a layer, one after another. -/
def applyUpdates (linkMap : List (Nat × Nat)) (layer : List (T × Option LinkUpdate)) : List (Nat × Nat) :=
  layer.foldl (fun m e => match e.2 with
    | some u => u.apply m
    | none => m) linkMap

theorem pushLayer_eq (data : List T) (linkMap : List (Nat × Nat)) (layer : List (T × Option LinkUpdate)) :
    pushLayer data linkMap layer = (data ++ layer.map Prod.fst, applyUpdates linkMap layer) := by
  induction layer generalizing data linkMap with
  | nil => simp [pushLayer, applyUpdates]
  | cons e layer ih =>
    obtain ⟨node, u⟩ := e
    have hstep : pushLayer data linkMap ((node, u) :: layer) = pushLayer (data ++ [node]) (match u with
        | some u => u.apply linkMap
        | none => linkMap) layer := by
      cases u <;> rfl
    rw [hstep, ih, List.map_cons, List.append_assoc, List.singleton_append]
    rfl

theorem get?_apply (linkMap : List (Nat × Nat)) (u : LinkUpdate) (k : Nat) :
    SortedMap.get? (u.apply linkMap) k =
      if u.maybeRemove = some k then none else if u.linkFrom = k then some u.linkTo else SortedMap.get? linkMap k := by
  unfold LinkUpdate.apply
  cases u.maybeRemove with
  | none => simp
  | some r => by_cases h : r = k <;> simp [h]

variable {linkMap : List (Nat × Nat)} {layer : List (T × Option LinkUpdate)} {k : Nat}

/-- Updates that neither link from a key nor remove it keep what the map holds there. -/
theorem get?_applyUpdates_of_forall (h : ∀ e ∈ layer, ∀ u, e.2 = some u → u.linkFrom ≠ k ∧ u.maybeRemove ≠ some k) :
    SortedMap.get? (applyUpdates linkMap layer) k = SortedMap.get? linkMap k := by
  induction layer generalizing linkMap with
  | nil => rfl
  | cons e layer ih =>
    rw [applyUpdates, List.foldl_cons, ← applyUpdates, ih fun e' he' => h e' (List.mem_cons_of_mem e he')]
    rcases he : e.2 with _ | u
    · rfl
    · obtain ⟨hfrom, hrm⟩ := h e List.mem_cons_self u he
      simp only [get?_apply, if_neg hrm, if_neg hfrom]

/-- The link an update makes stays when no later update links from its key or removes it. -/
theorem get?_applyUpdates_of_getElem {p : Nat} (hp : p < layer.length) {u : LinkUpdate} (hu : layer[p].2 = some u)
    (hrm : u.maybeRemove ≠ some u.linkFrom)
    (hafter : ∀ q (hq : q < layer.length), p < q → ∀ u', layer[q].2 = some u' →
      u'.linkFrom ≠ u.linkFrom ∧ u'.maybeRemove ≠ some u.linkFrom) :
    SortedMap.get? (applyUpdates linkMap layer) u.linkFrom = some u.linkTo := by
  rw [← List.take_append_drop (p + 1) layer, applyUpdates, List.foldl_append, ← applyUpdates, ← applyUpdates,
    get?_applyUpdates_of_forall, List.take_add_one, List.getElem?_eq_getElem hp, Option.toList_some, applyUpdates,
    List.foldl_append, List.foldl_cons, List.foldl_nil, hu, get?_apply, if_neg hrm, if_pos rfl]
  intro e he u' heu
  obtain ⟨j, hj, rfl⟩ := List.mem_iff_getElem.mp he
  rw [List.getElem_drop] at heu
  rw [List.length_drop] at hj
  exact hafter (p + 1 + j) (by omega) (by omega) u' heu

end Updates

variable {T : Type} [Inhabited T]

/-- What node `p` of layer `l` holds: the root of its leaves when it is
real, the null node when not. -/
def nodeValue (A : Algorithm T) (y : List T) (l p : Nat) : T :=
  if IsReal y.length l p then root A.node (chunk y l p) else nullNode

/-- The array with layer `l` padded to an even width, as `build` pads it. -/
def padLayer (n l : Nat) (data : List T) : List T :=
  if layerWidth n l % 2 = 1 then data ++ [nullNode] else data

/-- What pair `p` of a layer asks of the link map: nothing when the parent is
real, and when not a link from the parent to a node that holds the parent's
leaves' root, with the left child's link removed or kept. -/
def LinkSpec (A : Algorithm T) (y : List T) (l p : Nat) (data : List T) (linkFrom left : Nat) :
    Option LinkUpdate → Prop
  | none => IsReal y.length (l + 1) p
  | some u => ¬ IsReal y.length (l + 1) p ∧ u.linkFrom = linkFrom ∧
      data[u.linkTo]? = some (root A.node (chunk y (l + 1) p)) ∧ (u.maybeRemove = none ∨ u.maybeRemove = some left)

/-- The array and the link map once `build` has pushed layer `l`. -/
structure Built (A : Algorithm T) (y : List T) (l : Nat) (data : List T) (linkMap : List (Nat × Nat)) : Prop where
  length_eq : data.length = layerBase y.length l + layerWidth y.length l
  node : ∀ l' ≤ l, ∀ p < layerWidth y.length l', data[layerBase y.length l' + p]? = some (nodeValue A y l' p)
  link : ∀ l' ≤ l, ∀ p < layerWidth y.length l', ¬ IsReal y.length l' p → (p % 2 = 1 ∨ l' = l) →
    ∃ q, SortedMap.get? linkMap (layerBase y.length l' + p) = some q ∧
      data[q]? = some (root A.node (chunk y l' p))
  pad : ∀ l' < l, layerWidth y.length l' % 2 = 1 →
    data[layerBase y.length l' + layerWidth y.length l']? = some nullNode ∧
      SortedMap.get? linkMap (layerBase y.length l' + layerWidth y.length l') = none
  fresh : ∀ k, data.length ≤ k → SortedMap.get? linkMap k = none

/-- The pairs of layer `l + 1` as `build` computes them from the array with
layer `l` padded. -/
structure NextLayer (A : Algorithm T) (y : List T) (l : Nat) (data : List T) (layer : List (T × Option LinkUpdate)) :
    Prop where
  length_eq : layer.length = layerWidth y.length (l + 1)
  pair : ∀ p (hp : p < layer.length), layer[p].1 = nodeValue A y (l + 1) p ∧
    LinkSpec A y l p (padLayer y.length l data) (layerBase y.length (l + 1) + p) (layerBase y.length l + 2 * p) layer[p].2

theorem two_mul_lt_of_lt_layerWidth {n l q : Nat} (hq : q < layerWidth n (l + 1)) :
    2 * q < layerWidth n l + layerWidth n l % 2 := by
  rw [layerWidth] at hq
  omega

section Layer

variable {A : Algorithm T} {y : List T} {l : Nat} {data : List T} {linkMap : List (Nat × Nat)}

theorem nodeValue_of_isReal {p : Nat} (h : IsReal y.length l p) :
    nodeValue A y l p = root A.node (chunk y l p) := if_pos h

theorem nodeValue_of_not_isReal {p : Nat} (h : ¬ IsReal y.length l p) : nodeValue A y l p = nullNode := if_neg h

theorem getElem?_padLayer_of_lt {n k : Nat} (h : k < data.length) : (padLayer n l data)[k]? = data[k]? := by
  unfold padLayer
  split
  · exact List.getElem?_append_left h
  · rfl

/-- Layer `l` padded: its nodes, then the null pad. -/
theorem Built.getElem?_padLayer (hb : Built A y l data linkMap) {q : Nat}
    (hq : q < layerWidth y.length l + layerWidth y.length l % 2) :
    (padLayer y.length l data)[layerBase y.length l + q]? =
      some (if q < layerWidth y.length l then nodeValue A y l q else nullNode) := by
  have hlen := hb.length_eq
  by_cases hqw : q < layerWidth y.length l
  · rw [getElem?_padLayer_of_lt (by omega), if_pos hqw]
    exact hb.node l (Nat.le_refl l) q hqw
  · have hodd : layerWidth y.length l % 2 = 1 := by omega
    rw [padLayer, if_pos hodd, if_neg hqw, List.getElem?_append_right (by omega), hlen,
      show layerBase y.length l + q - (layerBase y.length l + layerWidth y.length l) = 0 by omega]
    rfl

theorem Built.length_padLayer (hb : Built A y l data linkMap) :
    (padLayer y.length l data).length = layerBase y.length (l + 1) := by
  rw [padLayer, layerBase, ← Nat.add_assoc, ← hb.length_eq]
  split
  · rw [List.length_append, List.length_singleton]
    omega
  · omega

theorem LinkSpec.keys {p : Nat} {linkFrom left : Nat} {u : LinkUpdate}
    (h : LinkSpec A y l p data linkFrom left (some u)) : u.linkFrom = linkFrom ∧ ∀ r, u.maybeRemove = some r → r = left := by
  obtain ⟨-, hfrom, -, hrm⟩ := h
  refine ⟨hfrom, fun r hr => ?_⟩
  rcases hrm with h0 | h0
  · rw [h0] at hr
    cases hr
  · rw [h0] at hr
    exact (Option.some.inj hr).symm

/-- A node of a layer so far lies in the array. -/
theorem Built.index_lt (hb : Built A y l data linkMap) {l' p : Nat} (hl' : l' ≤ l) (hp : p < layerWidth y.length l') :
    layerBase y.length l' + p < data.length := by
  rw [hb.length_eq]
  rcases Nat.lt_or_eq_of_le hl' with hl' | rfl
  · have := layerBase_succ_le (n := y.length) hl'
    omega
  · omega

section Push

variable {layer : List (T × Option LinkUpdate)}

/-- The updates of a layer link from its own nodes and remove links of the
even nodes of the layer below: every other key keeps its link. -/
theorem NextLayer.get?_applyUpdates (hn : NextLayer A y l data layer) {k : Nat}
    (hk₁ : ∀ q < layer.length, k ≠ layerBase y.length (l + 1) + q)
    (hk₂ : ∀ q < layer.length, k ≠ layerBase y.length l + 2 * q) :
    SortedMap.get? (applyUpdates linkMap layer) k = SortedMap.get? linkMap k := by
  apply get?_applyUpdates_of_forall
  intro e he u heu
  obtain ⟨q, hq, rfl⟩ := List.mem_iff_getElem.mp he
  have hs := (hn.pair q hq).2
  rw [heu] at hs
  obtain ⟨hfrom, hrm⟩ := hs.keys
  refine ⟨by rw [hfrom]; exact (hk₁ q hq).symm, fun h => ?_⟩
  exact hk₂ q hq (hrm k h)

/-- The link of a null node of the new layer. -/
theorem NextLayer.link (hn : NextLayer A y l data layer) {p : Nat} (hp : p < layer.length)
    (hreal : ¬ IsReal y.length (l + 1) p) :
    ∃ q, SortedMap.get? (applyUpdates linkMap layer) (layerBase y.length (l + 1) + p) = some q ∧
      (padLayer y.length l data)[q]? = some (root A.node (chunk y (l + 1) p)) := by
  have hs := (hn.pair p hp).2
  have hpw := two_mul_lt_of_lt_layerWidth (hn.length_eq ▸ hp)
  have hbase : layerBase y.length (l + 1) = layerBase y.length l + (layerWidth y.length l + layerWidth y.length l % 2) :=
    rfl
  rcases hu : layer[p].2 with _ | u
  · rw [hu] at hs
    exact absurd hs hreal
  · rw [hu] at hs
    obtain ⟨hfrom, hrm⟩ := hs.keys
    refine ⟨u.linkTo, ?_, hs.2.2.1⟩
    rw [← hfrom]
    refine get?_applyUpdates_of_getElem hp hu (fun h => ?_) fun q hq hpq u' hu' => ?_
    · have := hrm _ h
      omega
    · have hs' := (hn.pair q hq).2
      rw [hu'] at hs'
      obtain ⟨hfrom', hrm'⟩ := hs'.keys
      have hqw := two_mul_lt_of_lt_layerWidth (hn.length_eq ▸ hq)
      refine ⟨by omega, fun h => ?_⟩
      have := hrm' _ h
      omega

/-- Pushing the next layer keeps `Built`. -/
theorem Built.push (hb : Built A y l data linkMap) (hn : NextLayer A y l data layer) :
    Built A y (l + 1) (padLayer y.length l data ++ layer.map Prod.fst) (applyUpdates linkMap layer) := by
  have hlen := hb.length_eq
  have hpad := hb.length_padLayer
  have hbase : layerBase y.length (l + 1) = layerBase y.length l + (layerWidth y.length l + layerWidth y.length l % 2) :=
    rfl
  have hold : ∀ k, k < data.length → (padLayer y.length l data ++ layer.map Prod.fst)[k]? = data[k]? := fun k hk => by
    rw [List.getElem?_append_left (by omega), getElem?_padLayer_of_lt hk]
  refine ⟨by rw [List.length_append, List.length_map, hpad, hn.length_eq], ?_, ?_, ?_, ?_⟩
  · -- the nodes: those below as they were, the new layer's values after them
    intro l' hl' p hp
    rcases Nat.lt_or_eq_of_le hl' with hl' | rfl
    · rw [hold _ (hb.index_lt (Nat.lt_succ_iff.mp hl') hp)]
      exact hb.node l' (Nat.lt_succ_iff.mp hl') p hp
    · have hp' : p < layer.length := hn.length_eq ▸ hp
      rw [List.getElem?_append_right (by omega), hpad, Nat.add_sub_cancel_left, List.getElem?_map,
        List.getElem?_eq_getElem hp', Option.map_some, (hn.pair p hp').1]
  · -- the links: the odd null nodes below keep theirs, the new null nodes have new ones
    intro l' hl' p hp hreal hodd
    rcases Nat.lt_or_eq_of_le hl' with hl' | rfl
    · have hl'' := Nat.lt_succ_iff.mp hl'
      have hodd' : p % 2 = 1 := hodd.resolve_right (by omega)
      have hidx := hb.index_lt hl'' hp
      obtain ⟨q, hq, hdq⟩ := hb.link l' hl'' p hp hreal (Or.inl hodd')
      refine ⟨q, ?_, by rw [hold _ (List.getElem?_eq_some_iff.mp hdq).1, hdq]⟩
      rw [hn.get?_applyUpdates (fun q hq => by omega) (fun q hq => ?_), hq]
      rcases Nat.lt_or_eq_of_le hl'' with hlt | rfl
      · have := layerBase_succ_le (n := y.length) hlt
        omega
      · omega
    · obtain ⟨q, hq, hdq⟩ := hn.link (hn.length_eq ▸ hp) hreal
      exact ⟨q, hq, by rw [List.getElem?_append_left (List.getElem?_eq_some_iff.mp hdq).1, hdq]⟩
  · -- the pads: those below as they were, and layer `l`'s pad is the null node pushed
    intro l' hl' hodd
    rcases Nat.lt_or_eq_of_le (Nat.lt_succ_iff.mp hl') with hl'' | rfl
    · obtain ⟨hd, hg⟩ := hb.pad l' hl'' hodd
      have := layerBase_succ_le (n := y.length) hl''
      refine ⟨by rw [hold _ (by omega), hd], ?_⟩
      rw [hn.get?_applyUpdates (fun q hq => by omega) (fun q hq => by omega), hg]
    · refine ⟨?_, ?_⟩
      · rw [List.getElem?_append_left (by omega), hb.getElem?_padLayer (by omega), if_neg (Nat.lt_irrefl _)]
      · rw [hn.get?_applyUpdates (fun q hq => by omega) (fun q hq => by omega)]
        exact hb.fresh _ (by omega)
  · -- past the array there is no link
    intro k hk
    rw [List.length_append, List.length_map, hpad] at hk
    rw [hn.get?_applyUpdates (fun q hq => by omega) (fun q hq => ?_)]
    · exact hb.fresh k (by omega)
    · have := two_mul_lt_of_lt_layerWidth (hn.length_eq ▸ hq)
      omega

end Push

end Layer


/-- The loop of `build` over the layers above one of more than one node. -/
theorem buildLoop_of_one_lt [DecidableEq T] (A : Algorithm T) {width : Nat} (hw : 1 < width) (layerStart layerEnd : Nat)
    (data : List T) (linkMap : List (Nat × Nat)) :
    buildLoop A width layerStart layerEnd data linkMap =
      (buildLayer A (if width % 2 = 1 then data ++ [nullNode] else data) linkMap layerStart (layerEnd + width % 2)) >>=
        fun layer => buildLoop A ((width + width % 2) / 2) (layerEnd + width % 2)
          (layerEnd + width % 2 + (width + width % 2) / 2)
          (pushLayer (if width % 2 = 1 then data ++ [nullNode] else data) linkMap layer).1
          (pushLayer (if width % 2 = 1 then data ++ [nullNode] else data) linkMap layer).2 := by
  rw [buildLoop, dif_pos hw]
  by_cases h : width % 2 = 1
  · simp only [h, if_true]
  · simp only [Nat.mod_two_ne_one.mp h, Nat.add_zero]
    rfl

/-- No node of the layers over the leaf hashes `y` has the null node for
the root of its leaves: no leaf hash and no node hash that `build` computes
over `y` is the null node. -/
def NoNullNode (A : Algorithm T) (y : List T) : Prop :=
  ∀ l p, p < layerWidth y.length l → root A.node (chunk y l p) ≠ nullNode

section Hashes

variable {A : Algorithm T} {y : List T}

/-- From layer `y.length` on, a layer is one node, over all the leaves: the
layers up to it are all there is to check. -/
theorem noNullNode_iff_le_length :
    NoNullNode A y ↔ ∀ l ≤ y.length, ∀ p < layerWidth y.length l, root A.node (chunk y l p) ≠ nullNode := by
  refine ⟨fun h l _ => h l, fun h l p hp => ?_⟩
  by_cases hl : l ≤ y.length
  · exact h l hl p hp
  · have hn : 0 < y.length := Nat.lt_of_le_of_lt (Nat.zero_le _) (lt_layerWidth_iff.mp hp)
    have htop : y.length ≤ 2 ^ y.length := Nat.lt_two_pow_self.le
    have hlt : y.length ≤ 2 ^ l := htop.trans (Nat.pow_le_pow_right (by decide) (by omega))
    obtain rfl : p = 0 := by
      have := (layerWidth_le_one_iff hn).mpr hlt
      omega
    rw [chunk_top hlt]
    have := h y.length (Nat.le_refl _) 0 (layerWidth_pos hn)
    rwa [chunk_top htop] at this

instance [DecidableEq T] (A : Algorithm T) (y : List T) : Decidable (NoNullNode A y) :=
  decidable_of_iff _ noNullNode_iff_le_length.symm

/-- Leaf hashes and a node hash none of which is the null node. -/
theorem noNullNode_of_forall (hy : ∀ x ∈ y, x ≠ nullNode) (hnode : ∀ a b, A.node a b ≠ nullNode) :
    NoNullNode A y := by
  intro l p h
  rcases root_mem_or_node (chunk_ne_nil_iff.mpr h) with hmem | ⟨a, b, hab⟩
  · exact hy _ (List.mem_of_mem_drop (List.mem_of_mem_take hmem))
  · rw [hab]
    exact hnode a b

/-- The tree over the leaves of a node is a subtree: its nodes are nodes of
the whole tree. -/
theorem NoNullNode.subtree (h : NoNullNode A y) (j q : Nat) : NoNullNode A (chunk y j q) := by
  intro l p hp
  have hp' := lt_layerWidth_iff.mp hp
  have hc : (chunk y j q).length ≤ 2 ^ j := length_chunk_le y j q
  by_cases hl : l ≤ j
  · -- node `p` of layer `l` of the subtree is node `q * 2 ^ (j - l) + p` of the tree
    have hj : 2 ^ j = 2 ^ (j - l) * 2 ^ l := by rw [← Nat.pow_add, Nat.sub_add_cancel hl]
    have hpl : p < 2 ^ (j - l) := Nat.lt_of_mul_lt_mul_right (hj ▸ Nat.lt_of_lt_of_le hp' hc)
    rw [chunk_chunk y hl q hpl]
    apply h
    rw [lt_layerWidth_iff, Nat.add_mul, Nat.mul_assoc, ← hj]
    rw [length_chunk] at hp'
    omega
  · -- above layer `j` the subtree is one node, node `q` of layer `j`
    have hn : 0 < (chunk y j q).length := Nat.lt_of_le_of_lt (Nat.zero_le _) hp'
    have hlt : (chunk y j q).length ≤ 2 ^ l := hc.trans (Nat.pow_le_pow_right (by decide) (by omega))
    obtain rfl : p = 0 := by
      have := (layerWidth_le_one_iff hn).mpr hlt
      omega
    rw [chunk_top hlt]
    exact h j q (chunk_ne_nil_iff.mp (List.ne_nil_of_length_pos hn))

variable (hne : NoNullNode A y)
include hne

variable [DecidableEq T] {l : Nat} {data : List T} {linkMap : List (Nat × Nat)}

/-- One pair of the next layer: the parent holds its value, and asks of the
link map what `LinkSpec` says. -/
theorem Built.buildPair (hb : Built A y l data linkMap) {p : Nat} (hp : p < layerWidth y.length (l + 1)) :
    ∃ u, MerkleLight.buildPair A (padLayer y.length l data) linkMap (layerBase y.length l)
        (layerBase y.length (l + 1)) (layerBase y.length l + 2 * p) = .ok (nodeValue A y (l + 1) p, u) ∧
      LinkSpec A y l p (padLayer y.length l data) (layerBase y.length (l + 1) + p) (layerBase y.length l + 2 * p) u := by
  have h2p : 2 * p < layerWidth y.length l := by
    rw [layerWidth] at hp
    omega
  have hlen := hb.length_eq
  have hL := hb.getElem?_padLayer (q := 2 * p) (by omega)
  have hR := hb.getElem?_padLayer (q := 2 * p + 1) (by omega)
  have hparent : (layerBase y.length l + 2 * p - layerBase y.length l) / 2 + layerBase y.length (l + 1) =
      layerBase y.length (l + 1) + p := by omega
  rw [if_pos h2p] at hL
  rw [← Nat.add_assoc] at hR
  simp only [MerkleLight.buildPair, List.getElem!_eq_getElem?_getD, hL, hR, Option.getD_some, hparent]
  by_cases hr : 2 * p + 1 < layerWidth y.length l
  · -- the right child has leaves: the parent is real, the two children hashed
    have hreal : IsReal y.length (l + 1) p := hr
    have hroot : root A.node (chunk y (l + 1) p) = _ := root_chunk_succ y l p
    rw [if_neg (chunk_ne_nil_iff.mpr hr)] at hroot
    rw [if_pos hr, nodeValue_of_isReal (isReal_left hr), nodeValue_of_isReal hreal, hroot]
    by_cases hRr : IsReal y.length l (2 * p + 1)
    · rw [nodeValue_of_isReal hRr, if_pos (hne _ _ hr)]
      exact ⟨none, rfl, hreal⟩
    · obtain ⟨q, hq, hdq⟩ := hb.link l (Nat.le_refl l) (2 * p + 1) hr hRr (Or.inl (by omega))
      rw [← Nat.add_assoc] at hq
      have hq' : (padLayer y.length l data)[q]? = some (root A.node (chunk y l (2 * p + 1))) := by
        rw [getElem?_padLayer_of_lt (List.getElem?_eq_some_iff.mp hdq).1, hdq]
      rw [nodeValue_of_not_isReal hRr, if_neg (not_not.mpr rfl), if_neg (hne _ _ h2p)]
      simp only [hq, hq', Option.getD_some, if_neg (hne _ _ hr)]
      exact ⟨none, rfl, hreal⟩
  · -- the right child is the pad: the parent is null and links to a node with the left child's root
    have hreal : ¬ IsReal y.length (l + 1) p := hr
    have hroot : root A.node (chunk y (l + 1) p) = _ := root_chunk_succ y l p
    rw [if_pos (not_not.mp (mt chunk_ne_nil_iff.mp hr))] at hroot
    have hfresh := hb.fresh (layerBase y.length l + 2 * p + 1) (by omega)
    rw [if_neg hr, nodeValue_of_not_isReal hreal, if_neg (not_not.mpr rfl)]
    by_cases hLr : IsReal y.length l (2 * p)
    · rw [nodeValue_of_isReal hLr, if_neg (hne _ _ h2p), hfresh]
      refine ⟨_, rfl, hreal, rfl, ?_, Or.inl rfl⟩
      rw [hroot, hL, nodeValue_of_isReal hLr]
    · obtain ⟨q, hq, hdq⟩ := hb.link l (Nat.le_refl l) (2 * p) h2p hLr (Or.inr rfl)
      rw [nodeValue_of_not_isReal hLr, if_pos rfl, hq]
      refine ⟨_, rfl, hreal, rfl, ?_, Or.inr rfl⟩
      rw [hroot, getElem?_padLayer_of_lt (List.getElem?_eq_some_iff.mp hdq).1, hdq]

/-- The next layer's pairs, each as `Built.buildPair` says. -/
theorem Built.buildLayer (hb : Built A y l data linkMap) :
    ∃ layer, MerkleLight.buildLayer A (padLayer y.length l data) linkMap (layerBase y.length l)
        (layerBase y.length (l + 1)) = .ok layer ∧ NextLayer A y l data layer := by
  have hcount : (layerBase y.length (l + 1) - layerBase y.length l + 1) / 2 = layerWidth y.length (l + 1) := by
    rw [layerBase, layerWidth]
    omega
  unfold MerkleLight.buildLayer
  rw [hcount]
  obtain ⟨layer, hlayer⟩ := Except.mapM_ok_of_forall (l := List.range' (layerBase y.length l) _ 2) fun i hi => by
    obtain ⟨p, hp, rfl⟩ := List.mem_range'.mp hi
    obtain ⟨u, hu, -⟩ := hb.buildPair hne hp
    exact ⟨_, hu⟩
  have h₂ := Except.forall₂_of_mapM_eq_ok hlayer
  have hlen : layer.length = layerWidth y.length (l + 1) := by rw [← h₂.length_eq, List.length_range']
  refine ⟨layer, hlayer, hlen, fun p hp => ?_⟩
  have hp' : p < (List.range' (layerBase y.length l) (layerWidth y.length (l + 1)) 2).length := by
    rw [List.length_range', ← hlen]
    exact hp
  have hR := (List.forall₂_iff_get.mp h₂).2 p hp' hp
  simp only [List.get_eq_getElem, List.getElem_range'] at hR
  obtain ⟨u, hu, hspec⟩ := hb.buildPair hne (p := p) (by rw [← hlen]; exact hp)
  rw [← Except.ok.inj (hu.symm.trans hR)]
  exact ⟨rfl, hspec⟩

/-- From layer `l` pushed, the loop of `build` pushes the layers up to the
first one of one node. -/
theorem Built.buildLoop {l : Nat} {data : List T} {linkMap : List (Nat × Nat)} (hb : Built A y l data linkMap) (hwide : ∀ l' < l, 1 < layerWidth y.length l') :
    ∃ top data' linkMap', MerkleLight.buildLoop A (layerWidth y.length l) (layerBase y.length l)
        (layerBase y.length l + layerWidth y.length l) data linkMap = .ok (data', linkMap') ∧
      Built A y top data' linkMap' ∧ layerWidth y.length top ≤ 1 ∧ ∀ l' < top, 1 < layerWidth y.length l' := by
  by_cases h : 1 < layerWidth y.length l
  · have hE : layerBase y.length l + layerWidth y.length l + layerWidth y.length l % 2 = layerBase y.length (l + 1) := by
      rw [layerBase, Nat.add_assoc]
    have hW : (layerWidth y.length l + layerWidth y.length l % 2) / 2 = layerWidth y.length (l + 1) := by
      rw [layerWidth]
      omega
    obtain ⟨layer, hlayer, hn⟩ := hb.buildLayer hne
    rw [buildLoop_of_one_lt A h, hE, hW,
      show (if layerWidth y.length l % 2 = 1 then data ++ [nullNode] else data) = padLayer y.length l data from rfl,
      hlayer, Except.ok_bind, pushLayer_eq]
    refine Built.buildLoop (hb.push hn) fun l' hl' => ?_
    rcases Nat.lt_succ_iff_lt_or_eq.mp hl' with hl' | rfl
    · exact hwide l' hl'
    · exact h
  · rw [MerkleLight.buildLoop, dif_neg h]
    exact ⟨l, data, linkMap, rfl, hb, by omega, hwide⟩
termination_by layerWidth y.length l
decreasing_by exact layerWidth_succ_lt h

end Hashes

section Leaves

variable {A : Algorithm T}

/-- The leaf hashes are layer `0`, and the link map is empty. -/
theorem built_leaves (A : Algorithm T) (y : List T) : Built A y 0 y [] where
  length_eq := by simp [layerBase, layerWidth]
  node l' hl' p hp := by
    obtain rfl := Nat.le_zero.mp hl'
    have hp' : p < y.length := hp
    rw [nodeValue_of_isReal (show IsReal y.length 0 p from trivial), chunk_zero hp', root_singleton,
      show layerBase y.length 0 = 0 from rfl, Nat.zero_add, List.getElem?_eq_getElem hp']
  link l' hl' p _ hreal := by
    obtain rfl := Nat.le_zero.mp hl'
    exact absurd trivial hreal
  pad l' hl' := absurd hl' (Nat.not_lt_zero l')
  fresh k _ := SortedMap.get?_nil k

end Leaves

/-! ## The tree -/

/-- A tree as `from_iter` leaves it over the leaf hashes `y`: its layers up
to the first one of one node. -/
structure IsBuilt (A : Algorithm T) (y : List T) (t : MerkleTree T) (top : Nat) : Prop where
  leafs_eq : t.leafs = y.length
  built : Built A y top t.data t.linkMap
  top_le : layerWidth y.length top ≤ 1
  below_top : ∀ l < top, 1 < layerWidth y.length l

section Tree

variable {A : Algorithm T} {y : List T} {t : MerkleTree T} {top : Nat}

theorem IsBuilt.layerWidth_top (ht : IsBuilt A y t top) (hn : 0 < y.length) : layerWidth y.length top = 1 := by
  have := layerWidth_pos (l := top) hn
  have := ht.top_le
  omega

theorem IsBuilt.length_data (ht : IsBuilt A y t top) (hn : 0 < y.length) : t.len = layerBase y.length top + 1 := by
  rw [MerkleTree.len, ht.built.length_eq, ht.layerWidth_top hn]

/-- The top node is real: the leaf when there is one, and a node whose right
child has leaves when there are more. -/
theorem IsBuilt.isReal_top (ht : IsBuilt A y t top) : IsReal y.length top 0 := by
  cases top with
  | zero => trivial
  | succ l => exact (ht.below_top l (Nat.lt_succ_self l) : 2 * 0 + 1 < layerWidth y.length l)

theorem IsBuilt.chunk_top (ht : IsBuilt A y t top) (hn : 0 < y.length) : chunk y top 0 = y :=
  SplitTree.chunk_top ((layerWidth_le_one_iff hn).mp ht.top_le)

/-- The root of the tree is the root of the split tree over its leaves. -/
theorem IsBuilt.root (ht : IsBuilt A y t top) (hn : 0 < y.length) : t.root = SplitTree.root A.node y := by
  have hnode := ht.built.node top (Nat.le_refl top) 0 (by rw [ht.layerWidth_top hn]; exact Nat.one_pos)
  rw [nodeValue_of_isReal ht.isReal_top, ht.chunk_top hn, Nat.add_zero] at hnode
  have hlen := ht.length_data hn
  rw [MerkleTree.len] at hlen
  rw [MerkleTree.root, List.getElem!_eq_getElem?_getD, hlen, Nat.add_sub_cancel, hnode, Option.getD_some]

variable [DecidableEq T]

/-- `from_iter` builds its layers over the leaf hashes, when none of the
hashes it computes is the null node. -/
theorem fromIter_isBuilt (A : Algorithm T) (items : List T) (hne : NoNullNode A (items.map A.leaf)) :
    ∃ t top, fromIter A items = .ok t ∧ IsBuilt A (items.map A.leaf) t top := by
  obtain ⟨top, data, linkMap, hloop, hb, htop, hbelow⟩ :=
    (built_leaves A (items.map A.leaf)).buildLoop hne fun l' h => absurd h (Nat.not_lt_zero l')
  refine ⟨⟨data, (items.map A.leaf).length, linkMap⟩, top, ?_, rfl, hb, htop, hbelow⟩
  simp only [layerWidth, layerBase, Nat.zero_add] at hloop
  simp only [fromIter, build, hloop]
  rfl

end Tree

end MerkleLight

end ZgStorage
