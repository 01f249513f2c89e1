import ZgStorage.AppendMerkle.Proof

/-!
# The append-only Merkle tree

`lib.rs`: `AppendMerkleTree<E, A>`. The nodes of the latest version are in
the node manager, layer `0` the leaves; `commit` records the right-most node
of every layer of a version (`DeltaNodes`), so that the version can be read
back (`at_version`, a `HistoryTree`) or restored (`revert_to`) while the tree
keeps growing.

Every change of the leaves ends in `recompute`: from a range of changed
nodes of one layer, it recomputes their parents on the layer above, layer
after layer, adding a layer when the top one has more than one node, and
stops when no parent changed. It may overwrite only the last node of a
layer (a node whose subtree was not full) and panics when another node
changes.

`BTreeMap` and `HashMap` are lists of entries here, the latest insert first
(`mapInsert`); only lookups by key are made, so their order does not show.
-/

namespace ZgStorage

/-- `insert` into a map kept as a list of entries. -/
def mapInsert {K V : Type} [DecidableEq K] (m : List (K × V)) (k : K) (v : V) : List (K × V) :=
  (k, v) :: m.filter fun e => e.1 ≠ k

/-- `remove` from a map kept as a list of entries. -/
def mapRemove {K V : Type} [DecidableEq K] (m : List (K × V)) (k : K) : List (K × V) :=
  m.filter fun e => e.1 ≠ k

/-- Removing the entries of key `k` changes no lookup of another key. -/
theorem lookup_mapRemove {K V : Type} [DecidableEq K] (m : List (K × V)) {k k' : K} (h : k' ≠ k) :
    (mapRemove m k).lookup k' = m.lookup k' := by
  induction m with
  | nil => rfl
  | cons e m ih =>
    obtain ⟨a, b⟩ := e
    simp only [mapRemove, ne_eq, decide_not] at ih ⊢
    by_cases ha : a = k
    · subst ha
      simp [List.lookup_cons, beq_false_of_ne h, ih]
    · simp [List.lookup_cons, ha, ih]

@[simp] theorem lookup_mapInsert {K V : Type} [DecidableEq K] (m : List (K × V)) (k k' : K) (v : V) :
    (mapInsert m k v).lookup k' = if k' = k then some v else m.lookup k' := by
  by_cases h : k' = k
  · simp [mapInsert, h]
  · have hm := lookup_mapRemove m h
    simp only [mapRemove, ne_eq, decide_not] at hm
    simp [mapInsert, List.lookup_cons, h, beq_false_of_ne h, hm]

/-- `DeltaNodes`: the right-most node of each layer of a committed version,
with its position. -/
structure DeltaNodes (E : Type) where
  rightMostNodes : List (Nat × E)
  deriving DecidableEq

/-- `AppendMerkleTree<E, A>`; the algorithm `A` is an argument of the
functions that hash. -/
structure AppendMerkleTree (E : Type) where
  nodeManager : NodeManager E
  deltaNodesMap : List (Nat × DeltaNodes E)
  rootToTxSeqMap : List (E × Nat)
  /-- `Some(10)` for a `last_chunk_merkle` after the first chunk, so that
  `reset` restores its layers. -/
  minDepth : Option Nat
  leafHeight : Nat

/-- `HistoryTree`: the current nodes, read through the right-most nodes of a
committed version. -/
structure HistoryTree (E : Type) where
  nodeManager : NodeManager E
  deltaNodes : DeltaNodes E
  leafHeight : Nat

variable {E : Type}

namespace DeltaNodes

def height (d : DeltaNodes E) : Nat := d.rightMostNodes.length

/-- `DeltaNodes::get`: the right-most node of a layer, `None` left of it. -/
def get (d : DeltaNodes E) (height position : Nat) : Except Error (Option E) :=
  match d.rightMostNodes[height]? with
  | none => .error (.bail "position out of tree range")
  | some (last, node) =>
    if position > last then .error (.bail "position out of tree range")
    else if position = last then .ok (some node)
    else .ok none

def layerLen (d : DeltaNodes E) (height : Nat) : Except Error Nat := do
  let (last, _) ← index d.rightMostNodes height
  pure (last + 1)

end DeltaNodes

namespace HistoryTree

variable [DecidableEq E] [HashElement E]

/-- `<HistoryTree as MerkleTreeRead>::node`. -/
def node (h : HistoryTree E) (layer index : Nat) : Except Error E :=
  match h.deltaNodes.get layer index with
  | .error _ => .error (.panic "range checked")
  | .ok (some n) =>
    if !isNull n then .ok n else expectSome (h.nodeManager.getNode layer index) "index checked"
  | .ok none => expectSome (h.nodeManager.getNode layer index) "index checked"

def toRead (h : HistoryTree E) : TreeRead E :=
  ⟨h.node, h.deltaNodes.height, h.deltaNodes.layerLen,
    fun height => HashElement.endPad (height + h.leafHeight)⟩

end HistoryTree

namespace AppendMerkleTree

section Read

variable (t : AppendMerkleTree E)

def height : Nat := t.nodeManager.numLayers

def layerLen (height : Nat) : Except Error Nat := t.nodeManager.layerSize height

def node (layer index : Nat) : Except Error E :=
  expectSome (t.nodeManager.getNode layer index) "index checked"

/-- `leaves`: the size of layer `0`. -/
def leaves : Except Error Nat := t.layerLen 0

/-- `root`: the node of the top layer. On a tree with no layers,
`height() - 1` wraps to a layer that is not there, as layer `0` is not:
`node` panics on both. -/
def root : Except Error E := t.node (t.height - 1) 0

/-- `at_version`. -/
def atVersion (txSeq : Nat) : Except Error (HistoryTree E) := do
  let some d := t.deltaNodesMap.lookup txSeq | throw (.bail "tx_seq unavailable")
  if d.height = 0 then throw (.bail "empty tree")
  return ⟨t.nodeManager, d, t.leafHeight⟩

variable [DecidableEq E] [HashElement E]

def paddingNode (height : Nat) : E := HashElement.endPad (height + t.leafHeight)

/-- `<AppendMerkleTree as MerkleTreeRead>`. -/
def toRead : TreeRead E := ⟨t.node, t.height, t.layerLen, t.paddingNode⟩

/-- `check_root`. -/
def checkRoot (root : E) : Bool := (t.rootToTxSeqMap.lookup root).isSome

/-- `tx_seq_at_root`. -/
def txSeqAtRoot (root : E) : Except Error Nat :=
  match t.rootToTxSeqMap.lookup root with
  | some s => .ok s
  | none => .error (.bail "old root unavailable")

/-- `leaf_at`. -/
def leafAt (position : Nat) : Except Error (Option E) := do
  if position ≥ (← t.leaves) then throw (.bail "Out of bound")
  let n ← t.node 0 position
  if !isNull n then return some n else return none

end Read

section Write

variable (t : AppendMerkleTree E)

def pushNode (layer : Nat) (node : E) : Except Error (AppendMerkleTree E) := do
  return { t with nodeManager := ← t.nodeManager.pushNode layer node }

def appendNodes (layer : Nat) (nodes : List E) : Except Error (AppendMerkleTree E) := do
  return { t with nodeManager := ← t.nodeManager.appendNodes layer nodes }

def updateNode (layer pos : Nat) (node : E) : AppendMerkleTree E :=
  { t with nodeManager := t.nodeManager.addNode layer pos node }

def addLayer : AppendMerkleTree E := { t with nodeManager := t.nodeManager.addLayer }

/-- `before_extend_layer`: add the layer `height` if it is the next one. -/
def beforeExtendLayer (height : Nat) : AppendMerkleTree E :=
  if height = t.height then t.addLayer else t

end Write

theorem height_pushNode {t t' : AppendMerkleTree E} {layer : Nat} {node : E}
    (h : t.pushNode layer node = .ok t') : t'.height = t.height := by
  unfold pushNode NodeManager.pushNode at h
  split at h
  · simp only [Except.ok_bind, Except.pure_eq_ok, Except.ok.injEq] at h
    subst h
    simp [height, NodeManager.numLayers]
  · cases h

theorem layerSizeD_pushNode {t t' : AppendMerkleTree E} {layer : Nat} {node : E}
    (h : t.pushNode layer node = .ok t') :
    t'.nodeManager.layerSizeD layer = t.nodeManager.layerSizeD layer + 1 := by
  unfold pushNode NodeManager.pushNode at h
  split at h
  · rename_i hl
    simp only [Except.ok_bind, Except.pure_eq_ok, Except.ok.injEq] at h
    subst h
    simp [NodeManager.layerSizeD, List.getElem?_eq_getElem hl]
  · cases h

theorem layerSizeD_updateNode (t : AppendMerkleTree E) (layer layer' pos : Nat) (node : E) :
    (t.updateNode layer pos node).nodeManager.layerSizeD layer' = t.nodeManager.layerSizeD layer' := by
  simp only [updateNode, NodeManager.addNode, NodeManager.layerSizeD, List.getElem?_modify]
  cases t.nodeManager.layers[layer']? <;> simp
  split <;> simp

@[simp] theorem height_updateNode (t : AppendMerkleTree E) (layer pos : Nat) (node : E) :
    (t.updateNode layer pos node).height = t.height := by
  simp [updateNode, height]

theorem layerLen_eq_ok {t : AppendMerkleTree E} {height len : Nat} (h : t.layerLen height = .ok len) :
    height < t.height ∧ t.nodeManager.layerSizeD height = len := by
  obtain ⟨hl, hlen⟩ := NodeManager.layerSize_eq_ok.mp h
  exact ⟨hl, by rw [NodeManager.layerSizeD_of_lt hl, hlen]⟩

section Recompute

variable [DecidableEq E] [HashElement E] (A : Algorithm E)

/-- The parents that one pass of `recompute` computes, from the nodes of a
layer taken two at a time (`chunks(2)`), numbered from `index`: a parent
with an unknown child is unknown. -/
def parentUpdate (leafHeight height : Nat) : Nat → List E → List (Nat × E)
  | index, left :: right :: rest =>
    (index, if isNull left || isNull right then HashElement.null else A.parent left right) ::
      parentUpdate leafHeight height (index + 1) rest
  | index, [r] =>
    [(index, if isNull r then HashElement.null else A.parentSingle r (height + leafHeight))]
  | _, [] => []

/-- The inner loop of `recompute`: write the parents into `layer`. Returns
the tree and the last parent index written. -/
def applyParentUpdate (t : AppendMerkleTree E) (layer : Nat) :
    List (Nat × E) → Option Nat → Except Error (AppendMerkleTree E × Option Nat)
  | [], last => .ok (t, last)
  | (parentIndex, parent) :: rest, last => do
    let len ← t.layerLen layer
    if parentIndex < len then
      -- We do not overwrite with null.
      if isNull parent then applyParentUpdate t layer rest last
      else
        let cur ← t.node layer parentIndex
        -- The last node in a layer can be updated.
        if isNull cur || (cur ≠ parent && parentIndex = len - 1) then
          applyParentUpdate (t.updateNode layer parentIndex parent) layer rest (some parentIndex)
        else if cur ≠ parent then throw (.panic "Invalid append merkle tree!")
        else applyParentUpdate t layer rest last
    else if parentIndex = len then do
      applyParentUpdate (← t.pushNode layer parent) layer rest (some parentIndex)
    else throw (.panic "unreachable")

/-- The inner loop keeps the number of layers. -/
theorem height_applyParentUpdate : ∀ {t t' : AppendMerkleTree E} {layer : Nat}
    {pu : List (Nat × E)} {last last' : Option Nat},
    t.applyParentUpdate layer pu last = .ok (t', last') → t'.height = t.height
  | t, t', layer, [], last, last', h => by
    simp only [applyParentUpdate, Except.ok.injEq, Prod.mk.injEq] at h
    rw [h.1]
  | t, t', layer, (pi, p) :: rest, last, last', h => by
    simp only [applyParentUpdate] at h
    obtain ⟨len, -, h⟩ := Except.bind_eq_ok.mp h
    split at h
    · split at h
      · exact height_applyParentUpdate h
      · obtain ⟨cur, -, h⟩ := Except.bind_eq_ok.mp h
        split at h
        · rw [height_applyParentUpdate h, height_updateNode]
        · split at h
          · cases h
          · exact height_applyParentUpdate h
    · split at h
      · obtain ⟨t₁, h₁, h⟩ := Except.bind_eq_ok.mp h
        rw [height_applyParentUpdate h, height_pushNode h₁]
      · cases h

/-- The inner loop pushes at most one node for each parent. -/
theorem layerSizeD_applyParentUpdate_le : ∀ {t t' : AppendMerkleTree E} {layer : Nat}
    {pu : List (Nat × E)} {last last' : Option Nat},
    t.applyParentUpdate layer pu last = .ok (t', last') →
      t'.nodeManager.layerSizeD layer ≤ t.nodeManager.layerSizeD layer + pu.length
  | t, t', layer, [], last, last', h => by
    simp only [applyParentUpdate, Except.ok.injEq, Prod.mk.injEq] at h
    rw [h.1]
    simp
  | t, t', layer, (pi, p) :: rest, last, last', h => by
    simp only [applyParentUpdate] at h
    obtain ⟨len, -, h⟩ := Except.bind_eq_ok.mp h
    simp only [List.length_cons]
    split at h
    · split at h
      · have := layerSizeD_applyParentUpdate_le h
        omega
      · obtain ⟨cur, -, h⟩ := Except.bind_eq_ok.mp h
        split at h
        · have := layerSizeD_applyParentUpdate_le h
          rw [layerSizeD_updateNode] at this
          omega
        · split at h
          · cases h
          · have := layerSizeD_applyParentUpdate_le h
            omega
    · split at h
      · obtain ⟨t₁, h₁, h⟩ := Except.bind_eq_ok.mp h
        have := layerSizeD_applyParentUpdate_le h
        rw [layerSizeD_pushNode h₁] at this
        omega
      · cases h

theorem applyParentUpdate_nil (t : AppendMerkleTree E) (layer : Nat) (last : Option Nat) :
    t.applyParentUpdate layer [] last = .ok (t, last) := rfl

theorem length_parentUpdate (leafHeight height : Nat) :
    ∀ (index : Nat) (nodes : List E),
      (parentUpdate A leafHeight height index nodes).length = (nodes.length + 1) / 2
  | _, [] => by simp [parentUpdate]
  | _, [_] => by simp [parentUpdate]
  | index, _ :: _ :: rest => by
    simp only [parentUpdate, List.length_cons, length_parentUpdate leafHeight height (index + 1) rest]
    omega

/-- One pass of the loop of `recompute` over layer `height` of `len` nodes:
the parents of the changed nodes `[start_index, end_index)`, widened to
whole pairs, written into the layer above. Returns the tree and the last
parent index that changed. -/
def recomputePass (t : AppendMerkleTree E) (startIndex height : Nat) (maybeEndIndex : Option Nat)
    (len : Nat) : Except Error (AppendMerkleTree E × Option Nat) :=
  let nextLayerStartIndex := startIndex >>> 1
  let startIndex := if startIndex % 2 = 1 then startIndex - 1 else startIndex
  let endIndex := maybeEndIndex.getD len
  let endIndex := if endIndex % 2 = 1 ∧ endIndex ≠ len then endIndex + 1 else endIndex
  let pu := parentUpdate A t.leafHeight height nextLayerStartIndex
    (t.nodeManager.getNodes height startIndex endIndex)
  let t := if pu.isEmpty then t else t.beforeExtendLayer (height + 1)
  t.applyParentUpdate (height + 1) pu none

/-- A pass that changed a parent either moves up a layer below the top, or
adds a layer above a top layer of at least two nodes, which then has fewer
nodes. -/
theorem recomputePass_lt {t t₂ : AppendMerkleTree E} {startIndex height len i : Nat}
    {maybeEndIndex : Option Nat} (hl : t.layerLen height = .ok len)
    (hc : len > 1 ∨ height < t.height - 1)
    (hp : t.recomputePass A startIndex height maybeEndIndex len = .ok (t₂, some i)) :
    t₂.height - (height + 1) < t.height - height ∨
      t₂.height - (height + 1) = t.height - height ∧
        t₂.nodeManager.layerSizeD (height + 1) < t.nodeManager.layerSizeD height := by
  obtain ⟨hlt, hlen⟩ := layerLen_eq_ok hl
  simp only [recomputePass] at hp
  generalize hpu : parentUpdate A t.leafHeight height (startIndex >>> 1) _ = pu at hp
  generalize hnodes : t.nodeManager.getNodes height _ _ = nodes at hpu
  have hne : pu.isEmpty = false := by
    cases he : pu.isEmpty
    · rfl
    · rw [List.isEmpty_iff.mp he] at hp
      simp [applyParentUpdate_nil] at hp
  rw [hne, if_neg Bool.false_ne_true] at hp
  have h₂ := height_applyParentUpdate hp
  have hs := layerSizeD_applyParentUpdate_le hp
  have hn : nodes.length ≤ t.nodeManager.layerSizeD height := by
    rw [← hnodes]
    exact (NodeManager.length_getNodes_le _ _ _ _).trans (Nat.sub_le _ _)
  have hpu : pu.length = (nodes.length + 1) / 2 := by
    rw [← hpu]
    exact length_parentUpdate A _ _ _ _
  by_cases htop : height + 1 = t.height
  · -- a new top layer, with fewer nodes than the layer below it
    have hb : t.beforeExtendLayer (height + 1) = t.addLayer := by
      simp [beforeExtendLayer, htop]
    have hnew : t.addLayer.nodeManager.layerSizeD (height + 1) = 0 := by
      simp [addLayer, NodeManager.addLayer, NodeManager.layerSizeD, htop, AppendMerkleTree.height,
        NodeManager.numLayers]
    have hh : t.addLayer.height = t.height + 1 := NodeManager.numLayers_addLayer _
    rw [hb] at h₂ hs
    rw [hnew] at hs
    right
    omega
  · have hb : t.beforeExtendLayer (height + 1) = t := by simp [beforeExtendLayer, htop]
    rw [hb] at h₂
    left
    omega

/-- The loop of `recompute` from layer `height`: the changed nodes of the
layer start at `start_index` and end at `maybe_end_index`, or at the end of
the layer. It ends when the top layer has one node, or when no parent
changed. -/
def recomputeLoop (t : AppendMerkleTree E) (startIndex height : Nat)
    (maybeEndIndex : Option Nat) : Except Error (AppendMerkleTree E) :=
  match hl : t.layerLen height with
  | .error e => .error e
  | .ok len =>
    if hc : len > 1 ∨ height < t.height - 1 then
      match hp : t.recomputePass A startIndex height maybeEndIndex len with
      | .error e => .error e
      | .ok (t₂, none) => .ok t₂
      | .ok (t₂, some i) => recomputeLoop t₂ (startIndex >>> 1) (height + 1) (some (i + 1))
    else .ok t
termination_by (t.height - height, t.nodeManager.layerSizeD height)
decreasing_by
  simp only [Prod.lex_def]
  exact recomputePass_lt A hl hc hp

/-- The invariant rule of the loop of `recompute`: an invariant of the loop
state under which the layer can be read, every pass succeeds and either
stops at a tree with `Q` or keeps the invariant one layer up, and every exit
has `Q`, makes the whole loop succeed with `Q`. -/
theorem recomputeLoop_rule (Inv : AppendMerkleTree E → Nat → Nat → Option Nat → Prop)
    (Q : AppendMerkleTree E → Prop)
    (hlen : ∀ t s h me, Inv t s h me → ∃ len, t.layerLen h = .ok len)
    (hexit : ∀ t s h me len, Inv t s h me → t.layerLen h = .ok len →
      ¬(len > 1 ∨ h < t.height - 1) → Q t)
    (hpass : ∀ t s h me len, Inv t s h me → t.layerLen h = .ok len →
      (len > 1 ∨ h < t.height - 1) →
      ∃ t₂ last, t.recomputePass A s h me len = .ok (t₂, last) ∧
        (last = none → Q t₂) ∧ ∀ i, last = some i → Inv t₂ (s >>> 1) (h + 1) (some (i + 1))) :
    ∀ t s h me, Inv t s h me → ∃ r, t.recomputeLoop A s h me = .ok r ∧ Q r := by
  intro t s h me
  fun_induction recomputeLoop A t s h me with
  | case1 t s h me e hl =>
    intro hinv
    obtain ⟨len, hl'⟩ := hlen t s h me hinv
    rw [hl] at hl'
    cases hl'
  | case2 t s h me len hl hc e hp =>
    intro hinv
    obtain ⟨t₂, last, hp', -⟩ := hpass t s h me len hinv hl hc
    rw [hp] at hp'
    cases hp'
  | case3 t s h me len hl hc t₂ hp =>
    intro hinv
    obtain ⟨t₂', last, hp', hq, -⟩ := hpass t s h me len hinv hl hc
    rw [hp, Except.ok.injEq, Prod.mk.injEq] at hp'
    obtain ⟨rfl, rfl⟩ := hp'
    exact ⟨t₂, rfl, hq rfl⟩
  | case4 t s h me len hl hc t₂ i hp ih =>
    intro hinv
    obtain ⟨t₂', last, hp', -, hinv'⟩ := hpass t s h me len hinv hl hc
    rw [hp, Except.ok.injEq, Prod.mk.injEq] at hp'
    obtain ⟨rfl, rfl⟩ := hp'
    exact ih (hinv' i rfl)
  | case5 t s h me len hl hc =>
    intro hinv
    exact ⟨t, rfl, hexit t s h me len hinv hl hc⟩

/-- `recompute`: the changed range `[start_index, maybe_end_index)` is given
on the layer of the leaves and shifted to layer `height`. -/
def recompute (t : AppendMerkleTree E) (startIndex height : Nat) (maybeEndIndex : Option Nat) :
    Except Error (AppendMerkleTree E) :=
  t.recomputeLoop A (startIndex >>> height) height (maybeEndIndex.map (· >>> height))

/-- The body of the loop of `commit`: the last node of layer `height`, with
its position. -/
def rightMostNode (t : AppendMerkleTree E) (height : Nat) : Except Error (Nat × E) := do
  let len ← t.layerLen height
  -- on an empty layer `len - 1` wraps to a position that is not there, as `0` is not
  pure (len - 1, ← t.node height (len - 1))

/-- `commit`: record the version `tx_seq`. -/
def commit (t : AppendMerkleTree E) : Option Nat → Except Error (AppendMerkleTree E)
  | none => .ok t
  | some txSeq => do
    if (← t.leaves) = 0 then
      -- The state is empty, so we just save the root as `null`.
      return { t with deltaNodesMap := mapInsert t.deltaNodesMap txSeq ⟨[]⟩ }
    let rightMostNodes ← (List.range t.height).mapM t.rightMostNode
    let root ← t.root
    return { t with deltaNodesMap := mapInsert t.deltaNodesMap txSeq ⟨rightMostNodes⟩,
                    rootToTxSeqMap := mapInsert t.rootToTxSeqMap root txSeq }

/-- An empty tree without layers, before its constructor adds them. -/
def empty (minDepth : Option Nat) (leafHeight : Nat) : AppendMerkleTree E :=
  ⟨NodeManager.newDummy, [], [], minDepth, leafHeight⟩

/-- `AppendMerkleTree::new`. -/
def new (leaves : List E) (leafHeight : Nat) (startTxSeq : Option Nat) :
    Except Error (AppendMerkleTree E) := do
  let t ← (empty none leafHeight).addLayer.appendNodes 0 leaves
  if (← t.leaves) = 0 then
    match startTxSeq with
    | some seq => return { t with deltaNodesMap := mapInsert t.deltaNodesMap seq ⟨[]⟩ }
    | none => return t
  -- Reconstruct the whole tree.
  let t ← t.recompute A 0 0 none
  t.commit startTxSeq

/-- `AppendMerkleTree::new_with_depth`, for the last chunk: `depth` layers
whatever the number of leaves. -/
def newWithDepth (leaves : List E) (depth : Nat) (startTxSeq : Option Nat) :
    Except Error (AppendMerkleTree E) := do
  if leaves.isEmpty then
    let t := empty (some depth) 0
    let t := { t with nodeManager := Nat.iterate NodeManager.addLayer depth t.nodeManager }
    match startTxSeq with
    | some seq => return { t with deltaNodesMap := mapInsert t.deltaNodesMap seq ⟨[]⟩ }
    | none => return t
  let t ← (empty (some depth) 0).addLayer.appendNodes 0 leaves
  let t := { t with nodeManager := Nat.iterate NodeManager.addLayer (depth - 1) t.nodeManager }
  let t ← t.recompute A 0 0 none
  t.commit startTxSeq

/-- `append`: a null leaf is not appended. -/
def append (t : AppendMerkleTree E) (newLeaf : E) : Except Error (AppendMerkleTree E) := do
  if isNull newLeaf then return t
  let t ← t.pushNode 0 newLeaf
  t.recompute A ((← t.leaves) - 1) 0 none

/-- `append_list`: a list with a null leaf is not appended. -/
def appendList (t : AppendMerkleTree E) (leafList : List E) : Except Error (AppendMerkleTree E) := do
  if leafList.any isNull then return t
  let startIndex ← t.leaves
  let t ← t.appendNodes 0 leafList
  t.recompute A startIndex 0 none

/-- `append_subtree_inner`: the root of a subtree of depth `subtree_depth`,
above null nodes. -/
def appendSubtreeInner (t : AppendMerkleTree E) (subtreeDepth : Nat) (subtreeRoot : E) :
    Except Error (AppendMerkleTree E) := do
  if subtreeDepth = 0 then throw (.bail "Subtree depth should not be zero!")
  let t ← (List.range (subtreeDepth - 1)).foldlM (fun t height =>
    (t.beforeExtendLayer height).appendNodes height
      (List.replicate (2 ^ (subtreeDepth - 1 - height)) HashElement.null)) t
  (t.beforeExtendLayer (subtreeDepth - 1)).pushNode (subtreeDepth - 1) subtreeRoot

/-- `append_subtree`. -/
def appendSubtree (t : AppendMerkleTree E) (subtreeDepth : Nat) (subtreeRoot : E) :
    Except Error (AppendMerkleTree E) := do
  if isNull subtreeRoot then throw (.bail "subtree_root is null")
  let startIndex ← t.leaves
  let t ← t.appendSubtreeInner subtreeDepth subtreeRoot
  t.recompute A startIndex (subtreeDepth - 1) none

/-- `append_subtree_list`. -/
def appendSubtreeList (t : AppendMerkleTree E) (subtreeList : List (Nat × E)) :
    Except Error (AppendMerkleTree E) := do
  if subtreeList.any (fun e => isNull e.2) then throw (.bail "subtree_list contains null")
  subtreeList.foldlM (fun t (subtreeDepth, subtreeRoot) => do
    let startIndex ← t.leaves
    let t ← t.appendSubtreeInner subtreeDepth subtreeRoot
    t.recompute A startIndex (subtreeDepth - 1) none) t

/-- `update_last`: change the last leaf, or add the first one. -/
def updateLast (t : AppendMerkleTree E) (updatedLeaf : E) : Except Error (AppendMerkleTree E) := do
  if isNull updatedLeaf then return t
  let len ← t.layerLen 0
  let t ← if len = 0 then t.pushNode 0 updatedLeaf else pure (t.updateNode 0 (len - 1) updatedLeaf)
  t.recompute A ((← t.leaves) - 1) 0 none

/-- `fill_leaf`: fill an unknown leaf; a known leaf must not change. -/
def fillLeaf (t : AppendMerkleTree E) (index : Nat) (leaf : E) : Except Error (AppendMerkleTree E) := do
  if isNull leaf then return t
  let cur ← t.node 0 index
  if isNull cur then (t.updateNode 0 index leaf).recompute A index 0 (some (index + 1))
  else if cur ≠ leaf then throw (.panic "Fill with invalid leaf")
  else return t

end Recompute

section Revert

variable [DecidableEq E]

theorem length_mapRemove_lt {K V : Type} [DecidableEq K] {m : List (K × V)} {k : K} {v : V}
    (h : m.lookup k = some v) : (mapRemove m k).length < m.length := by
  obtain ⟨l₁, l₂, rfl, -⟩ := List.lookup_eq_some_iff.mp h
  simp only [mapRemove, List.filter_append, List.filter_cons, ne_eq, not_true_eq_false,
    decide_false, Bool.false_eq_true, if_false, List.length_append, List.length_cons]
  have h₁ := List.length_filter_le (fun e : K × V => decide ¬e.1 = k) l₁
  have h₂ := List.length_filter_le (fun e : K × V => decide ¬e.1 = k) l₂
  omega

/-- The loop of `clear_after` from `tx_seq`: drop the versions `tx_seq`,
`tx_seq + 1`, … while they exist, and their roots. -/
def clearAfterFrom (t : AppendMerkleTree E) (txSeq : Nat) : AppendMerkleTree E :=
  match h : t.deltaNodesMap.lookup txSeq with
  | none => t
  | some nodes =>
    let rootToTxSeqMap :=
      if nodes.height ≠ 0 then
        match nodes.rightMostNodes.getLast? with
        | some (_, root) => mapRemove t.rootToTxSeqMap root
        | none => t.rootToTxSeqMap
      else t.rootToTxSeqMap
    clearAfterFrom { t with deltaNodesMap := mapRemove t.deltaNodesMap txSeq, rootToTxSeqMap }
      (txSeq + 1)
termination_by t.deltaNodesMap.length
decreasing_by exact length_mapRemove_lt h

/-- `clear_after`. -/
def clearAfter (t : AppendMerkleTree E) (txSeq : Nat) : AppendMerkleTree E :=
  t.clearAfterFrom (txSeq + 1)

/-- With no version `tx_seq` there is nothing to clear. -/
theorem clearAfterFrom_of_lookup_none {t : AppendMerkleTree E} {txSeq : Nat}
    (h : t.deltaNodesMap.lookup txSeq = none) : t.clearAfterFrom txSeq = t := by
  unfold clearAfterFrom
  split
  · rfl
  · simp_all

/-- `revert_to`: restore the right-most nodes of a committed version. -/
def revertTo (t : AppendMerkleTree E) (txSeq : Nat) : Except Error (AppendMerkleTree E) := do
  if (← t.layerLen 0) = 0 then
    -- Any previous state of an empty tree is always empty.
    return t
  let some deltaNodes := t.deltaNodesMap.lookup txSeq | throw (.bail "tx_seq unavailable")
  -- Dropping the upper layers that are not in the old merkle tree.
  let nm ← (List.range' deltaNodes.height (t.height - deltaNodes.height)).reverse.foldlM
    (fun nm height => nm.truncateLayer height) t.nodeManager
  let nm ← deltaNodes.rightMostNodes.zipIdx.foldlM (fun nm ((lastIndex, rightMostNode), height) => do
    let nm ← nm.truncateNodes height (lastIndex + 1)
    pure (nm.addNode height lastIndex rightMostNode)) nm
  return ({ t with nodeManager := nm }).clearAfter txSeq

/-- `reset`: drop every layer, then add `min_depth` empty layers (one
without it). -/
def reset (t : AppendMerkleTree E) : Except Error (AppendMerkleTree E) := do
  let nm ← (List.range t.height).reverse.foldlM (fun nm height => nm.truncateLayer height)
    t.nodeManager
  let nm := match t.minDepth with
    | some depth => Nat.iterate NodeManager.addLayer depth nm
    | none => nm.addLayer
  return { t with nodeManager := nm }

end Revert

end AppendMerkleTree

end ZgStorage
