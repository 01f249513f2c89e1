import ZgStorage.AppendMerkle.Tree
import ZgStorage.Framework.Layers

/-!
# What one pass of `recompute` writes

The node manager's layers as a list (`withLayers`) and what the writing
operations do to it; then the two halves of a pass of `recompute` on known
nodes. The parents of a run of known nodes are the layer above them
(`Merkle.up`). Writing a run of parents from position `i` into a layer that
ends at most one node after `i` overwrites that node and appends the rest
(`Merkle.overwrite`): the inner loop never takes its panic branches there,
and it reports the run's last position unless the layer did not change.

* `parentUpdate_of_known`: the parents of known nodes;
* `applyParentUpdate_overwrite`: the inner loop on such a run.
-/

namespace ZgStorage

namespace AppendMerkleTree

variable {E : Type}

/-- The tree with the layers of its node manager replaced by `ls`. -/
def withLayers (t : AppendMerkleTree E) (ls : List (List E)) : AppendMerkleTree E :=
  { t with nodeManager := ⟨ls⟩ }

section WithLayers

variable (t : AppendMerkleTree E) (ls : List (List E))

@[simp] theorem withLayers_withLayers (ls' : List (List E)) :
    (t.withLayers ls).withLayers ls' = t.withLayers ls' := rfl

@[simp] theorem height_withLayers : (t.withLayers ls).height = ls.length := rfl

@[simp] theorem leafHeight_withLayers : (t.withLayers ls).leafHeight = t.leafHeight := rfl

@[simp] theorem layers_withLayers : (t.withLayers ls).nodeManager.layers = ls := rfl

@[simp] theorem deltaNodesMap_withLayers : (t.withLayers ls).deltaNodesMap = t.deltaNodesMap := rfl

@[simp] theorem rootToTxSeqMap_withLayers : (t.withLayers ls).rootToTxSeqMap = t.rootToTxSeqMap := rfl

theorem withLayers_layers : t.withLayers t.nodeManager.layers = t := rfl

variable {t ls} {k : Nat} {l : List E}

theorem layerLen_withLayers (hk : ls[k]? = some l) : (t.withLayers ls).layerLen k = .ok l.length := by
  simp [layerLen, NodeManager.layerSize, withLayers, hk]

theorem node_withLayers (hk : ls[k]? = some l) {p : Nat} (hp : p < l.length) :
    (t.withLayers ls).node k p = .ok l[p] := by
  simp [node, NodeManager.getNode, withLayers, hk, hp, expectSome]

theorem getNodes_withLayers (hk : ls[k]? = some l) (s e : Nat) :
    (t.withLayers ls).nodeManager.getNodes k s e = (l.drop s).take (e - s) := by
  simp [NodeManager.getNodes, hk]

theorem modify_withLayers (hk : ls[k]? = some l) (f : List E → List E) :
    ls.modify k f = ls.set k (f l) := by
  obtain ⟨hlt, rfl⟩ := List.getElem?_eq_some_iff.mp hk
  exact List.modify_eq_set_get f hlt

theorem updateNode_withLayers (hk : ls[k]? = some l) (p : Nat) (x : E) :
    (t.withLayers ls).updateNode k p x = t.withLayers (ls.set k (l.set p x)) := by
  simp only [updateNode, NodeManager.addNode, layers_withLayers, modify_withLayers hk]
  rfl

theorem appendNodes_withLayers (hk : ls[k]? = some l) (xs : List E) :
    (t.withLayers ls).appendNodes k xs = .ok (t.withLayers (ls.set k (l ++ xs))) := by
  have hlt : k < ls.length := (List.getElem?_eq_some_iff.mp hk).1
  simp only [appendNodes, NodeManager.appendNodes, NodeManager.numLayers, layers_withLayers,
    if_pos hlt, modify_withLayers hk, Except.ok_bind, Except.pure_eq_ok]
  rfl

theorem pushNode_withLayers (hk : ls[k]? = some l) (x : E) :
    (t.withLayers ls).pushNode k x = .ok (t.withLayers (ls.set k (l ++ [x]))) := by
  have hlt : k < ls.length := (List.getElem?_eq_some_iff.mp hk).1
  simp only [pushNode, NodeManager.pushNode, NodeManager.numLayers, layers_withLayers,
    if_pos hlt, modify_withLayers hk, Except.ok_bind, Except.pure_eq_ok]
  rfl

variable (t ls)

theorem beforeExtendLayer_withLayers (height : Nat) :
    (t.withLayers ls).beforeExtendLayer height =
      t.withLayers (if height = ls.length then ls ++ [[]] else ls) := by
  unfold beforeExtendLayer
  rw [height_withLayers]
  split <;> rfl

end WithLayers

variable [DecidableEq E] [HashElement E] (A : Algorithm E)

/-- On known nodes, the parents of a pass are the layer above them,
numbered from `index`. -/
theorem parentUpdate_of_known (leafHeight height : Nat) :
    ∀ (index : Nat) (nodes : List E), (∀ x ∈ nodes, isNull x = false) →
      parentUpdate A leafHeight height index nodes =
        (List.range' index (Merkle.up A.parent (fun r => A.parentSingle r (height + leafHeight))
          nodes).length).zip
          (Merkle.up A.parent (fun r => A.parentSingle r (height + leafHeight)) nodes)
  | _, [], _ => by simp [parentUpdate]
  | index, [r], h => by simp [parentUpdate, h r (by simp)]
  | index, a :: b :: rest, h => by
    have hrest : ∀ x ∈ rest, isNull x = false := fun x hx => h x (by simp [hx])
    rw [parentUpdate, parentUpdate_of_known leafHeight height (index + 1) rest hrest,
      h a (by simp), h b (by simp), Merkle.up_cons_cons, List.length_cons, List.range'_succ,
      List.zip_cons_cons]
    rfl

/-- The inner loop of `recompute`, on a run `ps` of known parents from
position `i` of a layer `O` that ends at `i` or right after it: the run
overwrites `O` from `i` on, and the last index reported is the run's last
position, or the one given if `O` did not change. -/
theorem applyParentUpdate_overwrite (t : AppendMerkleTree E) (layer : Nat) :
    ∀ {ls : List (List E)} {O : List E} {i : Nat} (ps : List E) (last : Option Nat),
      ls[layer]? = some O → i ≤ O.length → O.length ≤ i + 1 → (∀ p ∈ ps, isNull p = false) →
      (t.withLayers ls).applyParentUpdate layer ((List.range' i ps.length).zip ps) last =
        .ok (t.withLayers (ls.set layer (Merkle.overwrite O i ps)),
          if Merkle.overwrite O i ps = O then last else some (i + ps.length - 1))
  | ls, O, i, [], last, hO, _, _, _ => by
    obtain ⟨hlt, rfl⟩ := List.getElem?_eq_some_iff.mp hO
    simp [applyParentUpdate]
  | ls, O, i, p :: ps, last, hO, hi, hi', hps => by
    have hp : isNull p = false := hps p (by simp)
    have hrest : ∀ q ∈ ps, isNull q = false := fun q hq => hps q (by simp [hq])
    have hlayer : layer < ls.length := (List.getElem?_eq_some_iff.mp hO).1
    -- the rest of the run starts right after the end of the written layer
    have hnext : ∀ {O₁ : List E}, O₁.length = i + 1 →
        (if Merkle.overwrite O₁ (i + 1) ps = O₁ then some i else some (i + 1 + ps.length - 1)) =
          some (i + (ps.length + 1) - 1) := by
      intro O₁ hO₁
      cases ps with
      | nil => simp
      | cons q qs =>
        have hne : Merkle.overwrite O₁ (i + 1) (q :: qs) ≠ O₁ := by
          intro h
          have := congrArg List.length h
          rw [Merkle.length_overwrite (by omega)] at this
          simp only [List.length_cons] at this
          omega
        rw [if_neg hne]
        simp only [List.length_cons]
        congr 1
        omega
    rw [List.length_cons, List.range'_succ, List.zip_cons_cons, applyParentUpdate,
      layerLen_withLayers hO, Except.ok_bind]
    by_cases hlt : i < O.length
    · -- `i` is the last position of the layer
      rw [if_pos hlt, hp, if_neg Bool.false_ne_true, node_withLayers hO hlt, Except.ok_bind]
      by_cases heq : O[i] = p
      · -- the node is already there: nothing is written at `i`
        have hsame : Merkle.overwrite O i (p :: ps) = Merkle.overwrite O (i + 1) ps := by
          rw [Merkle.overwrite_cons hi, Merkle.overwrite_singleton_of_lt hlt, ← heq,
            List.set_getElem_self]
        rw [heq, hsame]
        simp only [hp, ne_eq, not_true_eq_false, decide_false, Bool.false_and, Bool.or_false,
          Bool.false_eq_true, if_false]
        rw [applyParentUpdate_overwrite t layer ps last hO (by omega) (by omega) hrest,
          show i + 1 + ps.length - 1 = i + (ps.length + 1) - 1 by omega]
      · -- the last node changes
        have hne : Merkle.overwrite O i (p :: ps) ≠ O := by
          intro h
          have := congrArg (·[i]?) h
          simp only [Merkle.getElem?_overwrite hi, lt_irrefl, if_false, List.length_cons,
            show i < i + (ps.length + 1) by omega, if_true, Nat.sub_self, List.getElem?_cons_zero,
            List.getElem?_eq_getElem hlt, Option.some.injEq] at this
          exact heq this.symm
        have hcond : (isNull O[i] || (decide (O[i] ≠ p) && decide (i = O.length - 1))) = true := by
          simp only [Bool.or_eq_true, Bool.and_eq_true, decide_eq_true_eq]
          exact Or.inr ⟨heq, by omega⟩
        rw [if_pos hcond, updateNode_withLayers hO,
          applyParentUpdate_overwrite t layer ps (some i) (List.getElem?_set_self hlayer)
            (by simp; omega) (by simp; omega) hrest,
          hnext (by simp; omega), List.set_set, ← Merkle.overwrite_singleton_of_lt hlt,
          ← Merkle.overwrite_cons hi, if_neg hne]
    · -- `i` is one past the end: the run is appended
      obtain rfl : i = O.length := by omega
      have hne : Merkle.overwrite O O.length (p :: ps) ≠ O := by
        intro h
        have := congrArg List.length h
        rw [Merkle.length_overwrite hi] at this
        simp only [List.length_cons] at this
        omega
      rw [if_neg hlt, if_pos rfl, pushNode_withLayers hO, Except.ok_bind,
        applyParentUpdate_overwrite t layer ps (some O.length) (List.getElem?_set_self hlayer)
          (by simp) (by simp) hrest,
        hnext (by simp), List.set_set, ← Merkle.overwrite_length_singleton,
        ← Merkle.overwrite_cons le_rfl, if_neg hne]

end AppendMerkleTree

end ZgStorage
