import ZgStorage.AppendMerkle.Soundness

/-!
# Versions under growth

A version records only the right-most node of each layer (`commit`);
`at_version` reads the nodes left of it from the current layers. That is
right because no write takes a layer away or makes it shorter, and none
changes a known node that is not the last of its layer (`Keeps`):
`recompute` writes over a known node only at the end of a layer,
`update_last` changes the last leaf, `fill_leaf` fills an unknown one, and
everything else appends.

* `runUpdates_keeps`: a run of `append`, `append_list`, `append_subtree`,
  `append_subtree_list`, `update_last`, `fill_leaf` and `commit` keeps the
  layers, and every version it does not commit again;
* `atVersion_after_commit`: after any such run, `at_version` of a version
  committed with leaves shows the tree as it was at the commit;
* `atVersion_empty_commit`: a version committed without leaves has no
  history tree at all.
-/

namespace ZgStorage

namespace NodeManager

variable {E : Type} [DecidableEq E] [HashElement E]

/-- `nm'` keeps what `nm` holds: no layer is lost or shorter, and a known
node left of the last one of its layer is unchanged. -/
structure Keeps (nm nm' : NodeManager E) : Prop where
  numLayers_le : nm.numLayers ≤ nm'.numLayers
  layerSizeD_le : ∀ k, nm.layerSizeD k ≤ nm'.layerSizeD k
  getNode_eq : ∀ k i x, i + 1 < nm.layerSizeD k → nm.getNode k i = some x → isNull x = false →
    nm'.getNode k i = some x

namespace Keeps

theorem refl (nm : NodeManager E) : nm.Keeps nm :=
  ⟨le_rfl, fun _ => le_rfl, fun _ _ _ _ h _ => h⟩

theorem trans {nm₁ nm₂ nm₃ : NodeManager E} (h₁ : nm₁.Keeps nm₂) (h₂ : nm₂.Keeps nm₃) :
    nm₁.Keeps nm₃ where
  numLayers_le := h₁.numLayers_le.trans h₂.numLayers_le
  layerSizeD_le k := (h₁.layerSizeD_le k).trans (h₂.layerSizeD_le k)
  getNode_eq k i x hi hx hn :=
    h₂.getNode_eq k i x (lt_of_lt_of_le hi (h₁.layerSizeD_le k)) (h₁.getNode_eq k i x hi hx hn) hn

end Keeps

/-- Changing one layer into one no shorter, with the same known nodes left
of its last one. -/
theorem keeps_modify (nm : NodeManager E) (layer : Nat) {f : List E → List E}
    (hf : ∀ l, nm.layers[layer]? = some l → l.length ≤ (f l).length ∧
      ∀ i x, i + 1 < l.length → l[i]? = some x → isNull x = false → (f l)[i]? = some x) :
    nm.Keeps ⟨nm.layers.modify layer f⟩ := by
  refine ⟨by simp [numLayers], fun k => ?_, fun k i x hi hx hn => ?_⟩
  · simp only [layerSizeD, List.getElem?_modify]
    by_cases hk : layer = k
    · subst hk
      cases hl : nm.layers[layer]? with
      | none => simp
      | some l => simpa using (hf l hl).1
    · simp [hk]
  · simp only [layerSizeD, getNode, List.getElem?_modify] at hi hx ⊢
    by_cases hk : layer = k
    · subst hk
      cases hl : nm.layers[layer]? with
      | none => simp [hl] at hx
      | some l =>
        simp only [hl, Option.map_some, Option.getD_some, Option.bind_some] at hi hx
        simpa using (hf l hl).2 i x hi hx hn
    · simpa [hk] using hx

theorem keeps_pushNode {nm nm' : NodeManager E} {layer : Nat} {node : E}
    (h : nm.pushNode layer node = .ok nm') : nm.Keeps nm' := by
  unfold pushNode at h
  split at h
  · cases h
    exact keeps_modify nm layer fun l _ =>
      ⟨by simp, fun i x hi hx _ => by rw [List.getElem?_append_left (by omega)]; exact hx⟩
  · cases h

theorem keeps_appendNodes {nm nm' : NodeManager E} {layer : Nat} {nodes : List E}
    (h : nm.appendNodes layer nodes = .ok nm') : nm.Keeps nm' := by
  unfold appendNodes at h
  split at h
  · cases h
    exact keeps_modify nm layer fun l _ =>
      ⟨by simp, fun i x hi hx _ => by rw [List.getElem?_append_left (by omega)]; exact hx⟩
  · cases h

theorem keeps_addLayer (nm : NodeManager E) : nm.Keeps nm.addLayer := by
  refine ⟨by simp, fun k => ?_, fun k i x hi hx _ => ?_⟩
  · by_cases hk : k < nm.layers.length
    · simp [layerSizeD, addLayer, List.getElem?_append_left hk]
    · simp [layerSizeD, List.getElem?_eq_none (Nat.le_of_not_lt hk)]
  · have hk : k < nm.layers.length := by
      by_contra hk
      simp [getNode, List.getElem?_eq_none (Nat.le_of_not_lt hk)] at hx
    simpa [getNode, addLayer, List.getElem?_append_left hk] using hx

/-- Writing a node keeps the layers when the node it overwrites is unknown
or the last of its layer. -/
theorem keeps_addNode (nm : NodeManager E) {layer pos : Nat} (node : E)
    (h : ∀ cur, nm.getNode layer pos = some cur → isNull cur = false → nm.layerSizeD layer ≤ pos + 1) :
    nm.Keeps (nm.addNode layer pos node) := by
  refine keeps_modify nm layer fun l hl => ⟨by simp, fun i x hi hx hn => ?_⟩
  rw [List.getElem?_set]
  by_cases hi' : pos = i
  · subst hi'
    have := h x (by simp [getNode, hl, hx]) hn
    simp [layerSizeD, hl] at this
    omega
  · simpa [hi'] using hx

end NodeManager

namespace AppendMerkleTree

variable {E : Type} [DecidableEq E] [HashElement E]

/-- A write of the tree: its layers keep what they hold, and its versions
are unchanged. -/
structure Grows (t t' : AppendMerkleTree E) : Prop where
  keeps : t.nodeManager.Keeps t'.nodeManager
  deltaNodesMap_eq : t'.deltaNodesMap = t.deltaNodesMap

namespace Grows

theorem refl (t : AppendMerkleTree E) : Grows t t := ⟨.refl _, rfl⟩

theorem trans {t₁ t₂ t₃ : AppendMerkleTree E} (h₁ : Grows t₁ t₂) (h₂ : Grows t₂ t₃) : Grows t₁ t₃ :=
  ⟨h₁.keeps.trans h₂.keeps, h₂.deltaNodesMap_eq.trans h₁.deltaNodesMap_eq⟩

end Grows

theorem grows_pushNode {t t' : AppendMerkleTree E} {layer : Nat} {node : E}
    (h : t.pushNode layer node = .ok t') : Grows t t' := by
  simp only [pushNode, Except.bind_eq_ok, Except.pure_eq_ok, Except.ok.injEq] at h
  obtain ⟨nm, hnm, rfl⟩ := h
  exact ⟨NodeManager.keeps_pushNode hnm, rfl⟩

theorem grows_appendNodes {t t' : AppendMerkleTree E} {layer : Nat} {nodes : List E}
    (h : t.appendNodes layer nodes = .ok t') : Grows t t' := by
  simp only [appendNodes, Except.bind_eq_ok, Except.pure_eq_ok, Except.ok.injEq] at h
  obtain ⟨nm, hnm, rfl⟩ := h
  exact ⟨NodeManager.keeps_appendNodes hnm, rfl⟩

theorem grows_beforeExtendLayer (t : AppendMerkleTree E) (height : Nat) :
    Grows t (t.beforeExtendLayer height) := by
  unfold beforeExtendLayer
  split
  · exact ⟨NodeManager.keeps_addLayer _, rfl⟩
  · exact .refl t

/-- Writing a node over an unknown one, or over the last of its layer. -/
theorem grows_updateNode (t : AppendMerkleTree E) {layer pos : Nat} (x : E)
    (h : ∀ cur, t.node layer pos = .ok cur → isNull cur = false →
      t.nodeManager.layerSizeD layer ≤ pos + 1) :
    Grows t (t.updateNode layer pos x) :=
  ⟨NodeManager.keeps_addNode _ x fun cur hcur => h cur (by simp [node, hcur, expectSome]), rfl⟩

/-- The inner loop of `recompute` writes a parent over a known node only at
the end of the layer. -/
theorem grows_applyParentUpdate : ∀ (pu : List (Nat × E)) {t t' : AppendMerkleTree E} {layer : Nat}
    {last last' : Option Nat}, t.applyParentUpdate layer pu last = .ok (t', last') → Grows t t'
  | [], t, t', layer, last, last', h => by
    simp only [applyParentUpdate, Except.ok.injEq, Prod.mk.injEq] at h
    rw [← h.1]
    exact .refl t
  | (parentIndex, parent) :: rest, t, t', layer, last, last', h => by
    simp only [applyParentUpdate, Except.bind_eq_ok] at h
    obtain ⟨len, hlen, h⟩ := h
    have hsize := (layerLen_eq_ok hlen).2
    split at h
    · split at h
      · exact grows_applyParentUpdate rest h
      · obtain ⟨cur, hcur, h⟩ := Except.bind_eq_ok.mp h
        split at h
        · -- the node written over is unknown, or the last of the layer
          rename_i hw
          refine (grows_updateNode t parent fun c hc hn => ?_).trans (grows_applyParentUpdate rest h)
          rw [hcur, Except.ok.injEq] at hc
          subst hc
          simp only [hn, Bool.false_or, Bool.and_eq_true, decide_eq_true_eq] at hw
          omega
        · split at h
          · cases h
          · exact grows_applyParentUpdate rest h
    · split at h
      · obtain ⟨t₁, hpush, h⟩ := Except.bind_eq_ok.mp h
        exact (grows_pushNode hpush).trans (grows_applyParentUpdate rest h)
      · cases h

section Recompute

variable (A : Algorithm E)

theorem grows_recomputePass {t t₂ : AppendMerkleTree E} {startIndex height len : Nat}
    {maybeEndIndex last : Option Nat}
    (h : t.recomputePass A startIndex height maybeEndIndex len = .ok (t₂, last)) : Grows t t₂ := by
  simp only [recomputePass] at h
  generalize parentUpdate A _ _ _ _ = pu at h
  refine Grows.trans ?_ (grows_applyParentUpdate pu h)
  split
  · exact .refl t
  · exact grows_beforeExtendLayer t _

theorem grows_recomputeLoop {t t' : AppendMerkleTree E} {startIndex height : Nat}
    {maybeEndIndex : Option Nat} (h : t.recomputeLoop A startIndex height maybeEndIndex = .ok t') :
    Grows t t' := by
  fun_induction recomputeLoop A t startIndex height maybeEndIndex with
  | case1 => cases h
  | case2 => cases h
  | case3 t _ _ _ _ _ _ _ hp =>
    cases h
    exact grows_recomputePass A hp
  | case4 t _ _ _ _ _ _ _ _ hp ih => exact (grows_recomputePass A hp).trans (ih h)
  | case5 =>
    cases h
    exact .refl _

theorem grows_recompute {t t' : AppendMerkleTree E} {startIndex height : Nat}
    {maybeEndIndex : Option Nat} (h : t.recompute A startIndex height maybeEndIndex = .ok t') :
    Grows t t' :=
  grows_recomputeLoop A h

theorem grows_append {t t' : AppendMerkleTree E} {newLeaf : E} (h : t.append A newLeaf = .ok t') :
    Grows t t' := by
  simp only [append] at h
  split at h
  · cases h
    exact .refl t
  · obtain ⟨t₁, hpush, h⟩ := Except.bind_eq_ok.mp h
    obtain ⟨_, -, h⟩ := Except.bind_eq_ok.mp h
    exact (grows_pushNode hpush).trans (grows_recompute A h)

theorem grows_appendList {t t' : AppendMerkleTree E} {leafList : List E}
    (h : t.appendList A leafList = .ok t') : Grows t t' := by
  simp only [appendList] at h
  split at h
  · cases h
    exact .refl t
  · obtain ⟨_, -, h⟩ := Except.bind_eq_ok.mp h
    obtain ⟨t₁, happ, h⟩ := Except.bind_eq_ok.mp h
    exact (grows_appendNodes happ).trans (grows_recompute A h)

/-- `append_subtree_inner` appends null nodes below the subtree's root and
the root itself. -/
theorem grows_appendSubtreeInner {t t' : AppendMerkleTree E} {subtreeDepth : Nat} {subtreeRoot : E}
    (h : t.appendSubtreeInner subtreeDepth subtreeRoot = .ok t') : Grows t t' := by
  simp only [appendSubtreeInner] at h
  split at h
  · cases h
  · obtain ⟨t₁, hfold, h⟩ := Except.bind_eq_ok.mp h
    have h₁ : Grows t t₁ := Except.rel_of_foldlM_eq_ok Grows Grows.refl (fun _ _ _ => Grows.trans) _
      (fun s height s' _ hs => (grows_beforeExtendLayer s height).trans (grows_appendNodes hs)) hfold
    exact h₁.trans ((grows_beforeExtendLayer t₁ _).trans (grows_pushNode h))

theorem grows_appendSubtree {t t' : AppendMerkleTree E} {subtreeDepth : Nat} {subtreeRoot : E}
    (h : t.appendSubtree A subtreeDepth subtreeRoot = .ok t') : Grows t t' := by
  simp only [appendSubtree] at h
  split at h
  · cases h
  · obtain ⟨_, -, h⟩ := Except.bind_eq_ok.mp h
    obtain ⟨t₁, hin, h⟩ := Except.bind_eq_ok.mp h
    exact (grows_appendSubtreeInner hin).trans (grows_recompute A h)

theorem grows_appendSubtreeList {t t' : AppendMerkleTree E} {subtreeList : List (Nat × E)}
    (h : t.appendSubtreeList A subtreeList = .ok t') : Grows t t' := by
  simp only [appendSubtreeList] at h
  split at h
  · cases h
  · refine Except.rel_of_foldlM_eq_ok Grows Grows.refl (fun _ _ _ => Grows.trans) _
      (fun s e s' _ hs => ?_) h
    obtain ⟨_, -, hs⟩ := Except.bind_eq_ok.mp hs
    obtain ⟨s₁, hin, hs⟩ := Except.bind_eq_ok.mp hs
    exact (grows_appendSubtreeInner hin).trans (grows_recompute A hs)

/-- `update_last` writes over the last leaf. -/
theorem grows_updateLast {t t' : AppendMerkleTree E} {updatedLeaf : E}
    (h : t.updateLast A updatedLeaf = .ok t') : Grows t t' := by
  simp only [updateLast] at h
  split at h
  · cases h
    exact .refl t
  · obtain ⟨len, hlen, h⟩ := Except.bind_eq_ok.mp h
    split at h
    · obtain ⟨t₁, hpush, h⟩ := Except.bind_eq_ok.mp h
      obtain ⟨_, -, h⟩ := Except.bind_eq_ok.mp h
      exact (grows_pushNode hpush).trans (grows_recompute A h)
    · obtain ⟨t₁, ht₁, h⟩ := Except.bind_eq_ok.mp h
      obtain ⟨_, -, h⟩ := Except.bind_eq_ok.mp h
      cases ht₁
      have hsize := (layerLen_eq_ok hlen).2
      exact (grows_updateNode t updatedLeaf fun _ _ _ => by omega).trans (grows_recompute A h)

/-- `fill_leaf` writes over an unknown leaf only. -/
theorem grows_fillLeaf {t t' : AppendMerkleTree E} {index : Nat} {leaf : E}
    (h : t.fillLeaf A index leaf = .ok t') : Grows t t' := by
  simp only [fillLeaf] at h
  split at h
  · cases h
    exact .refl t
  · obtain ⟨cur, hcur, h⟩ := Except.bind_eq_ok.mp h
    split at h
    · rename_i hnull
      refine Grows.trans (grows_updateNode t leaf fun c hc hn => ?_) (grows_recompute A h)
      rw [hcur, Except.ok.injEq] at hc
      subst hc
      rw [hn] at hnull
      cases hnull
    · split at h
      · cases h
      · cases h
        exact .refl t

end Recompute

omit [DecidableEq E] [HashElement E] in
/-- An empty layer has no node to read. -/
theorem node_ne_ok_of_layerLen_zero {t : AppendMerkleTree E} {height : Nat} (hlen : t.layerLen height = .ok 0)
    (p : Nat) (x : E) : t.node height p ≠ .ok x := by
  unfold layerLen NodeManager.layerSize at hlen
  unfold node NodeManager.getNode
  cases hl : t.nodeManager.layers[height]? with
  | none => simp [hl] at hlen
  | some l =>
    simp only [hl, Except.ok.injEq, List.length_eq_zero_iff] at hlen
    simp [hlen, expectSome]

omit [DecidableEq E] [HashElement E] in
/-- The body of the loop of `commit` reads the last node of a layer that
has one. -/
theorem rightMostNode_eq_ok {t : AppendMerkleTree E} {height p : Nat} {x : E}
    (h : t.rightMostNode height = .ok (p, x)) :
    ∃ len, t.layerLen height = .ok len ∧ len ≠ 0 ∧ p = len - 1 ∧ t.node height (len - 1) = .ok x := by
  simp only [rightMostNode, Except.bind_eq_ok] at h
  obtain ⟨len, hlen, y, hy, h⟩ := h
  simp only [Except.pure_eq_ok, Except.ok.injEq, Prod.mk.injEq] at h
  obtain ⟨rfl, rfl⟩ := h
  refine ⟨len, hlen, fun h0 => ?_, rfl, hy⟩
  -- an empty layer would have no last node
  subst h0
  exact node_ne_ok_of_layerLen_zero hlen _ _ hy

omit [HashElement E] in
/-- `commit(Some(v))` of a tree with leaves records the right-most node of
every layer as version `v`, and its root with `v`. -/
theorem commit_some_eq_ok {t t' : AppendMerkleTree E} {v n : Nat} (hleaves : t.leaves = .ok n)
    (hn : n ≠ 0) (h : t.commit (some v) = .ok t') :
    ∃ nodes r, (List.range t.height).mapM t.rightMostNode = .ok nodes ∧ t.root = .ok r ∧
      t' = { t with deltaNodesMap := mapInsert t.deltaNodesMap v ⟨nodes⟩,
                    rootToTxSeqMap := mapInsert t.rootToTxSeqMap r v } := by
  simp only [commit, hleaves, Except.ok_bind, if_neg hn, Except.bind_eq_ok] at h
  obtain ⟨nodes, hnodes, r, hr, h⟩ := h
  exact ⟨nodes, r, hnodes, hr, (Except.ok.inj h).symm⟩

omit [HashElement E] in
/-- `commit` changes no layer, and no version but the one it records. -/
theorem commit_frame {t t' : AppendMerkleTree E} {txSeq : Option Nat} (h : t.commit txSeq = .ok t') :
    t'.nodeManager = t.nodeManager ∧
      ∀ v, txSeq ≠ some v → t'.deltaNodesMap.lookup v = t.deltaNodesMap.lookup v := by
  cases txSeq with
  | none =>
    cases h
    exact ⟨rfl, fun _ _ => rfl⟩
  | some w =>
    simp only [commit, Except.bind_eq_ok] at h
    obtain ⟨n, -, h⟩ := h
    split at h
    · cases h
      exact ⟨rfl, fun v hv => by simp [Ne.symm (Option.some_injective _ |>.ne_iff.mp hv)]⟩
    · obtain ⟨nodes, -, h⟩ := Except.bind_eq_ok.mp h
      obtain ⟨r, -, h⟩ := Except.bind_eq_ok.mp h
      cases h
      exact ⟨rfl, fun v hv => by simp [Ne.symm (Option.some_injective _ |>.ne_iff.mp hv)]⟩

end AppendMerkleTree

/-- A call that writes to a tree: `append`, `append_list`,
`append_subtree`, `append_subtree_list`, `update_last`, `fill_leaf` or
`commit`. -/
inductive TreeUpdate (E : Type) where
  | append (newLeaf : E)
  | appendList (leafList : List E)
  | appendSubtree (subtreeDepth : Nat) (subtreeRoot : E)
  | appendSubtreeList (subtreeList : List (Nat × E))
  | updateLast (updatedLeaf : E)
  | fillLeaf (index : Nat) (leaf : E)
  | commit (txSeq : Option Nat)

namespace TreeUpdate

variable {E : Type} [DecidableEq E] [HashElement E] (A : Algorithm E)

/-- Run one call on a tree. -/
def run (t : AppendMerkleTree E) : TreeUpdate E → Except Error (AppendMerkleTree E)
  | append newLeaf => t.append A newLeaf
  | appendList leafList => t.appendList A leafList
  | appendSubtree subtreeDepth subtreeRoot => t.appendSubtree A subtreeDepth subtreeRoot
  | appendSubtreeList subtreeList => t.appendSubtreeList A subtreeList
  | updateLast updatedLeaf => t.updateLast A updatedLeaf
  | fillLeaf index leaf => t.fillLeaf A index leaf
  | commit txSeq => t.commit txSeq

open AppendMerkleTree in
/-- A call keeps the layers, and every version it does not commit. -/
theorem run_keeps {t t' : AppendMerkleTree E} (op : TreeUpdate E) (h : op.run A t = .ok t') {v : Nat}
    (hv : op ≠ commit (some v)) :
    t.nodeManager.Keeps t'.nodeManager ∧ t'.deltaNodesMap.lookup v = t.deltaNodesMap.lookup v := by
  have keeps : Grows t t' → t.nodeManager.Keeps t'.nodeManager ∧
      t'.deltaNodesMap.lookup v = t.deltaNodesMap.lookup v := fun g => ⟨g.keeps, by rw [g.deltaNodesMap_eq]⟩
  cases op with
  | append => exact keeps (grows_append A h)
  | appendList => exact keeps (grows_appendList A h)
  | appendSubtree => exact keeps (grows_appendSubtree A h)
  | appendSubtreeList => exact keeps (grows_appendSubtreeList A h)
  | updateLast => exact keeps (grows_updateLast A h)
  | fillLeaf => exact keeps (grows_fillLeaf A h)
  | commit txSeq =>
    obtain ⟨hnm, hd⟩ := commit_frame h
    exact ⟨hnm ▸ .refl _, hd v fun h' => hv (by rw [h'])⟩

end TreeUpdate

namespace AppendMerkleTree

variable {E : Type} [DecidableEq E] [HashElement E] (A : Algorithm E)

/-- Run calls in order, up to the first error. -/
def runUpdates (t : AppendMerkleTree E) (ops : List (TreeUpdate E)) : Except Error (AppendMerkleTree E) :=
  ops.foldlM (fun t op => op.run A t) t

/-- A run of calls keeps the layers, and every version it does not
commit. -/
theorem runUpdates_keeps {t t' : AppendMerkleTree E} {ops : List (TreeUpdate E)} {v : Nat}
    (h : runUpdates A t ops = .ok t') (hv : ∀ op ∈ ops, op ≠ .commit (some v)) :
    t.nodeManager.Keeps t'.nodeManager ∧ t'.deltaNodesMap.lookup v = t.deltaNodesMap.lookup v :=
  Except.rel_of_foldlM_eq_ok
    (fun t t' => t.nodeManager.Keeps t'.nodeManager ∧ t'.deltaNodesMap.lookup v = t.deltaNodesMap.lookup v)
    (fun _ => ⟨.refl _, rfl⟩) (fun _ _ _ h₁ h₂ => ⟨h₁.1.trans h₂.1, by rw [h₂.2, h₁.2]⟩) ops
    (fun _ op _ hop hs => TreeUpdate.run_keeps A op hs (hv op hop)) h

section Recorded

variable {t₀ : AppendMerkleTree E} {nodes : List (Nat × E)}

omit [DecidableEq E] [HashElement E] in
/-- The right-most nodes that `commit` records: one for each layer, the last
node of the layer with its position. -/
theorem getElem?_recorded (hnodes : (List.range t₀.height).mapM t₀.rightMostNode = .ok nodes)
    {k : Nat} (hk : k < t₀.height) :
    ∃ len x, nodes[k]? = some (len - 1, x) ∧ t₀.layerLen k = .ok len ∧ len ≠ 0 ∧
      t₀.node k (len - 1) = .ok x := by
  have hf := Except.forall₂_of_mapM_eq_ok hnodes
  have hlen : nodes.length = t₀.height := by simpa using hf.length_eq.symm
  have hrec := hf.get (by simpa using hk) (by omega)
  simp only [List.get_eq_getElem, List.getElem_range] at hrec
  obtain ⟨len, hl, hne, hp, hx⟩ := rightMostNode_eq_ok hrec
  refine ⟨len, nodes[k].2, ?_, hl, hne, hx⟩
  rw [List.getElem?_eq_getElem (by omega), ← hp]
  rfl

omit [DecidableEq E] [HashElement E] in
theorem length_recorded (hnodes : (List.range t₀.height).mapM t₀.rightMostNode = .ok nodes) :
    nodes.length = t₀.height := by
  simpa using (Except.forall₂_of_mapM_eq_ok hnodes).length_eq.symm

variable {nm : NodeManager E} (lh : Nat)

omit [DecidableEq E] [HashElement E] in
/-- Read through the recorded right-most nodes, every layer has the size it
had. -/
theorem layerLen_recorded (hnodes : (List.range t₀.height).mapM t₀.rightMostNode = .ok nodes)
    (k : Nat) : (HistoryTree.mk nm ⟨nodes⟩ lh).deltaNodes.layerLen k = t₀.layerLen k := by
  by_cases hk : k < t₀.height
  · obtain ⟨len, x, hget, hl, hne, -⟩ := getElem?_recorded hnodes hk
    simp only [DeltaNodes.layerLen, index_eq_ok hget, Except.ok_bind, Except.pure_eq_ok, hl]
    congr 1
    omega
  · have hnone : nodes[k]? = none := List.getElem?_eq_none (by rw [length_recorded hnodes]; omega)
    have hl : t₀.layerLen k = .error (.panic "index out of bounds") := by
      simp only [layerLen, NodeManager.layerSize]
      rw [List.getElem?_eq_none (by simp only [height, NodeManager.numLayers] at hk; omega)]
    simp [DeltaNodes.layerLen, index, expectSome, hnone, hl]

/-- Read through the recorded right-most nodes and layers that keep the
committed ones, every known node is the one the tree held. -/
theorem node_recorded (hnodes : (List.range t₀.height).mapM t₀.rightMostNode = .ok nodes)
    (hk : t₀.nodeManager.Keeps nm) {k i : Nat} {x : E} (hx : t₀.node k i = .ok x)
    (hn : isNull x = false) : (HistoryTree.mk nm ⟨nodes⟩ lh).node k i = .ok x := by
  have hget : t₀.nodeManager.getNode k i = some x := by
    simp only [node, expectSome] at hx
    split at hx <;> simp_all
  -- the node lies in a layer of the committed tree, left of or at its end
  have hlt : k < t₀.height ∧ i < t₀.nodeManager.layerSizeD k := by
    simp only [NodeManager.getNode, Option.bind_eq_some_iff] at hget
    obtain ⟨l, hl, hi⟩ := hget
    obtain ⟨hkl, rfl⟩ := List.getElem?_eq_some_iff.mp hl
    refine ⟨hkl, ?_⟩
    simp [NodeManager.layerSizeD, List.getElem?_eq_getElem hkl, (List.getElem?_eq_some_iff.mp hi).1]
  obtain ⟨len, y, hrec, hl, hne, hy⟩ := getElem?_recorded hnodes hlt.1
  have hsize := (layerLen_eq_ok hl).2
  simp only [HistoryTree.node, DeltaNodes.get, hrec]
  rw [if_neg (by omega)]
  by_cases hlast : i = len - 1
  · -- the last node of the layer: the version holds it
    subst hlast
    rw [hx, Except.ok.injEq] at hy
    subst hy
    simp [hn]
  · -- a node left of it: the current layers keep it
    simp [hlast, hk.getNode_eq k i x (by omega) hget hn, expectSome]

end Recorded

/-- After `commit(Some(v))` of a tree with leaves and any run of writes that
does not commit `v` again, `at_version(v)` shows the tree as it was at the
commit: its height, the size of every layer and every known node, and so
the root the commit recorded for `v` when that root is known. -/
theorem atVersion_after_commit {t₀ t₁ t : AppendMerkleTree E} {v n : Nat} {ops : List (TreeUpdate E)}
    (hleaves : t₀.leaves = .ok n) (hn : n ≠ 0) (hc : t₀.commit (some v) = .ok t₁)
    (hrun : runUpdates A t₁ ops = .ok t) (hv : ∀ op ∈ ops, op ≠ .commit (some v)) :
    ∃ h, t.atVersion v = .ok h ∧ h.toRead.height = t₀.height ∧
      (∀ k, h.toRead.layerLen k = t₀.layerLen k) ∧
      (∀ k i x, t₀.node k i = .ok x → isNull x = false → h.toRead.node k i = .ok x) ∧
      ∃ r, t₀.root = .ok r ∧ t₁.rootToTxSeqMap.lookup r = some v ∧
        (isNull r = false → h.toRead.root = .ok r) := by
  obtain ⟨nodes, r, hnodes, hr, rfl⟩ := commit_some_eq_ok hleaves hn hc
  obtain ⟨hkeeps, hlookup⟩ := runUpdates_keeps A hrun hv
  have hheight : nodes.length = t₀.height := length_recorded hnodes
  have hpos : t₀.height ≠ 0 := Nat.pos_iff_ne_zero.mp (Nat.zero_lt_of_lt (layerLen_eq_ok hleaves).1)
  have hat : t.atVersion v = .ok ⟨t.nodeManager, ⟨nodes⟩, t.leafHeight⟩ := by
    simp [atVersion, hlookup, DeltaNodes.height, hheight, hpos]
  refine ⟨_, hat, hheight, layerLen_recorded _ hnodes, fun k i x hx hx' => node_recorded _ hnodes hkeeps hx hx',
    r, hr, by simp, fun hrn => ?_⟩
  -- the root is the known node at the top of the committed tree
  simp only [root] at hr
  simp only [TreeRead.root, HistoryTree.toRead, DeltaNodes.height, hheight]
  exact node_recorded _ hnodes hkeeps hr hrn

open SymHash in
/-- `atVersion_after_commit` for the tree over three leaves, committed as
version `0` and then grown by `append` and `append_list`. -/
theorem atVersion_after_commit_threeLeaves :
    ∃ t₁ t, threeLeafTree.leaves = .ok 3 ∧ 3 ≠ 0 ∧ threeLeafTree.commit (some 0) = .ok t₁ ∧
      runUpdates algorithm t₁ [.append (leaf [4]), .appendList [leaf [5], leaf [6]]] = .ok t ∧
      (∀ op ∈ [TreeUpdate.append (leaf [4]), .appendList [leaf [5], leaf [6]]],
        op ≠ .commit (some 0)) ∧
      ∃ h, t.atVersion 0 = .ok h ∧ h.toRead.height = threeLeafTree.height ∧
        (∀ k, h.toRead.layerLen k = threeLeafTree.layerLen k) ∧
        (∀ k i x, threeLeafTree.node k i = .ok x → isNull x = false → h.toRead.node k i = .ok x) ∧
        ∃ r, threeLeafTree.root = .ok r ∧ t₁.rootToTxSeqMap.lookup r = some 0 ∧
          (isNull r = false → h.toRead.root = .ok r) := by
  obtain ⟨roots, hc⟩ := commit_batch algorithm (empty none 0) threeLeaves 0
  -- the tree of `commit`, with its layers taken apart from its maps
  let t' : AppendMerkleTree SymHash :=
    { empty none 0 with deltaNodesMap := mapInsert [] 0 (rightMost algorithm 0 threeLeaves),
                        rootToTxSeqMap := roots }
  have hc' : threeLeafTree.commit (some 0) = .ok (t'.withLayers (batchLayers algorithm 0 threeLeaves)) := hc
  have hleaves : threeLeafTree.leaves = .ok 3 :=
    layerLen_withLayers (getElem?_batchLayers algorithm 0 threeLeaves (Merkle.one_le_depth _))
  have hv : ∀ op ∈ [TreeUpdate.append (leaf [4]), .appendList [leaf [5], leaf [6]]],
      op ≠ .commit (some 0) := by simp
  have happend : (t'.withLayers (batchLayers algorithm 0 threeLeaves)).append algorithm (leaf [4]) =
      .ok (t'.withLayers (batchLayers algorithm 0 (threeLeaves ++ [leaf [4]]))) :=
    append_batch algorithm algorithm_keepsKnown t' (by decide) rfl
  have happendList : (t'.withLayers (batchLayers algorithm 0 (threeLeaves ++ [leaf [4]]))).appendList
      algorithm [leaf [5], leaf [6]] =
      .ok (t'.withLayers (batchLayers algorithm 0 (threeLeaves ++ [leaf [4]] ++ [leaf [5], leaf [6]]))) :=
    appendList_batch algorithm algorithm_keepsKnown t' (by decide) (by decide)
  have hrun : runUpdates algorithm (t'.withLayers (batchLayers algorithm 0 threeLeaves))
      [.append (leaf [4]), .appendList [leaf [5], leaf [6]]] =
      .ok (t'.withLayers (batchLayers algorithm 0 (threeLeaves ++ [leaf [4]] ++ [leaf [5], leaf [6]]))) := by
    simp only [runUpdates, List.foldlM_cons, List.foldlM_nil, TreeUpdate.run]
    rw [happend, Except.ok_bind, happendList, Except.ok_bind]
    rfl
  exact ⟨_, _, hleaves, by decide, hc', hrun, hv,
    atVersion_after_commit algorithm hleaves (by decide) hc' hrun hv⟩

open SymHash in
/-- A version committed while the tree has no leaves is recorded without
nodes, and `at_version` of it fails, where the tree had one layer, of size
`0`. -/
theorem atVersion_empty_commit :
    ∃ t₀ t₁, new algorithm [] 0 none = .ok t₀ ∧ t₀.height = 1 ∧ t₀.layerLen 0 = .ok 0 ∧
      t₀.commit (some 0) = .ok t₁ ∧ t₁.atVersion 0 = .error (.bail "empty tree") :=
  ⟨_, _, rfl, rfl, rfl, rfl, rfl⟩

end AppendMerkleTree

end ZgStorage
