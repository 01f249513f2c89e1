import ZgStorage.AppendMerkle.Soundness

/-!
# Reverting to a committed version

`revert_to(tx_seq)` drops the layers from the version's height up
(`foldlM_truncateLayer`), cuts each remaining layer after the version's
right-most node and writes that node back, and then `clear_after` drops the
versions `tx_seq + 1, tx_seq + 2, …` for as long as they exist.

A version committed while the tree had no leaves is recorded without nodes,
so reverting to it from a tree that has leaves drops every layer
(`revertTo_of_height_zero`): the tree left has no layer `0`, and `leaves()`
indexes past the end of `layer_size`.
-/

namespace ZgStorage

namespace NodeManager

variable {E : Type}

/-- `truncate_layer` of the top layer drops it. -/
theorem truncateLayer_top {nm : NodeManager E} {k : Nat} (h : nm.numLayers = k + 1) :
    nm.truncateLayer k = .ok ⟨nm.layers.take k⟩ := by
  have hk : k < nm.numLayers := by omega
  have hlast : nm.layers.length - 1 = k := by simp only [numLayers] at h; omega
  have htop : k = (⟨nm.layers.modify k (·.take 0)⟩ : NodeManager E).numLayers - 1 := by
    simp [numLayers, hlast]
  have hdrop : (nm.layers.modify k (·.take 0)).dropLast = nm.layers.take k := by
    rw [List.dropLast_eq_take, List.length_modify, hlast, List.take_modify]
    exact List.modify_eq_self (by simp)
  simp only [truncateLayer, truncateNodes, if_pos hk, Except.ok_bind, if_pos htop, hdrop]
  rfl

/-- The loop of `revert_to` over the layers from `k` up, the top one first,
drops them. -/
theorem foldlM_truncateLayer (k : Nat) : ∀ (m : Nat) (nm : NodeManager E), nm.numLayers = k + m →
    (List.range' k m).reverse.foldlM (fun nm height => nm.truncateLayer height) nm =
      .ok ⟨nm.layers.take k⟩
  | 0, nm, h => by
    have hlen : nm.layers.length ≤ k := by simp only [numLayers] at h; omega
    simp [List.take_of_length_le hlen]
  | m + 1, nm, h => by
    have htop : nm.numLayers = k + m + 1 := by omega
    have hrest : (⟨nm.layers.take (k + m)⟩ : NodeManager E).numLayers = k + m := by
      simp only [numLayers, List.length_take] at htop ⊢
      omega
    rw [List.range'_concat, List.reverse_append, List.reverse_singleton, List.singleton_append,
      List.foldlM_cons, Nat.one_mul, truncateLayer_top htop, Except.ok_bind,
      foldlM_truncateLayer k m _ hrest, List.take_take, Nat.min_eq_left (Nat.le_add_right k m)]

end NodeManager

namespace AppendMerkleTree

variable {E : Type} [DecidableEq E]

/-- `clear_after` changes only the maps of versions and roots. -/
theorem nodeManager_clearAfterFrom (t : AppendMerkleTree E) (txSeq : Nat) :
    (t.clearAfterFrom txSeq).nodeManager = t.nodeManager := by
  fun_induction clearAfterFrom t txSeq with
  | case1 => rfl
  | case2 _ _ _ _ _ ih => exact ih

/-- Reverting a tree with leaves to a version recorded without nodes drops
every layer. -/
theorem revertTo_of_height_zero {t : AppendMerkleTree E} {txSeq n : Nat} {d : DeltaNodes E}
    (hlen : t.layerLen 0 = .ok n) (hn : n ≠ 0) (hd : t.deltaNodesMap.lookup txSeq = some d)
    (h0 : d.height = 0) :
    t.revertTo txSeq = .ok ({ t with nodeManager := ⟨[]⟩ }.clearAfter txSeq) := by
  have hnodes : d.rightMostNodes = [] := List.eq_nil_of_length_eq_zero h0
  have hdrop := NodeManager.foldlM_truncateLayer 0 t.height t.nodeManager (by simp [height])
  simp only [revertTo, hlen, Except.ok_bind, if_neg hn, hd, h0, Nat.sub_zero, hdrop,
    List.take_zero, hnodes, List.zipIdx_nil, List.foldlM_nil]
  rfl

open SymHash in
/-- Version `0` of a tree built by `new` without leaves is recorded without
nodes; after one leaf and the commit of version `1`, `revert_to(0)` succeeds
but leaves no layer, where version `0` had one, and `leaves()` panics. -/
theorem revertTo_empty_version :
    ∃ t₀ t t', new algorithm [] 0 (some 0) = .ok t₀ ∧ t₀.height = 1 ∧ t₀.leaves = .ok 0 ∧
      runOps algorithm t₀ [.write (.append (leaf [1])), .commit (some 1)] = .ok t ∧
      t.revertTo 0 = .ok t' ∧ t'.height = 0 ∧ t'.leaves = .error (.panic "index out of bounds") := by
  obtain ⟨t₀, hnew, h₀⟩ := new_implements algorithm 0 algorithm_keepsKnown [] (some 0) (by simp)
  obtain ⟨t, hrun, h⟩ := h₀.runOps algorithm_keepsKnown [.write (.append (leaf [1])), .commit (some 1)]
    (by decide)
  have hlayers₀ : t₀.nodeManager.layers = [[]] := by
    rw [h₀.layers_eq]
    simp [TreeSpec.new, TreeSpec.init, batchLayers, Merkle.tower, Merkle.depth]
  have hlayers : t.nodeManager.layers = [[leaf [1]]] := by
    rw [h.layers_eq]
    simp [TreeSpec.new, TreeSpec.init, batchLayers, Merkle.tower, Merkle.depth, TreeOp.leaves,
      AppendOp.leaves]
  have hlen : t.layerLen 0 = .ok 1 := by
    simp [layerLen, NodeManager.layerSize, hlayers]
  have hd : t.deltaNodesMap.lookup 0 = some ⟨[]⟩ := h.versions_eq 0
  refine ⟨t₀, t, _, hnew, ?_, ?_, hrun, revertTo_of_height_zero hlen one_ne_zero hd rfl, ?_, ?_⟩
  · simp [height, NodeManager.numLayers, hlayers₀]
  · simp [leaves, layerLen, NodeManager.layerSize, hlayers₀]
  · simp [height, clearAfter, nodeManager_clearAfterFrom, NodeManager.numLayers]
  · simp [leaves, layerLen, clearAfter, nodeManager_clearAfterFrom, NodeManager.layerSize]

end AppendMerkleTree

end ZgStorage
