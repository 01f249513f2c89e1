import Mathlib.Data.List.Basic

/-!
# Node storage of an append-only tree

`node_manager.rs`. A `NodeManager` keeps the size of every layer and the
nodes of each, in an LRU cache in front of a database. With the in-memory
database (`NodeManager::new_dummy`, used for every tree built in memory)
and a cache that keeps every node, layer `k` is a list of `layer_size[k]`
nodes, which is the model here: `layers[k]` holds the nodes of layer `k`.

A position at or beyond its layer's size holds nothing: `get_node` returns
`None` there, and `add_node` stores nothing that a read could see.

Indexing `layer_size` out of range panics; `Error.panic` records it.
-/

namespace ZgStorage

/-- How a call fails: an error returned by `bail!` or `?`, or a panic
(`panic!`, `unreachable!`, `assert!`, `expect`, an index out of bounds). -/
inductive Error where
  | bail (msg : String)
  | panic (msg : String)
  deriving DecidableEq, Repr

/-- `NodeManager`: the nodes of each layer, layer `0` the leaves. -/
structure NodeManager (E : Type) where
  layers : List (List E)
  deriving DecidableEq, Repr

namespace NodeManager

variable {E : Type}

/-- `NodeManager::new_dummy`: no layer. -/
def newDummy : NodeManager E := ⟨[]⟩

def numLayers (nm : NodeManager E) : Nat := nm.layers.length

/-- `layer_size[layer]`. -/
def layerSize (nm : NodeManager E) (layer : Nat) : Except Error Nat :=
  match nm.layers[layer]? with
  | some l => .ok l.length
  | none => .error (.panic "index out of bounds")

/-- The size of a layer, `0` for a layer that does not exist. -/
def layerSizeD (nm : NodeManager E) (layer : Nat) : Nat :=
  (nm.layers[layer]?.map List.length).getD 0

def getNode (nm : NodeManager E) (layer pos : Nat) : Option E :=
  nm.layers[layer]?.bind (·[pos]?)

/-- `get_nodes`: the nodes from `start_pos` before `end_pos`, up to the
first position that holds no node. -/
def getNodes (nm : NodeManager E) (layer startPos endPos : Nat) : List E :=
  ((nm.layers[layer]?.getD []).drop startPos).take (endPos - startPos)

def pushNode (nm : NodeManager E) (layer : Nat) (node : E) : Except Error (NodeManager E) :=
  if layer < nm.numLayers then .ok ⟨nm.layers.modify layer (· ++ [node])⟩
  else .error (.panic "index out of bounds")

def appendNodes (nm : NodeManager E) (layer : Nat) (nodes : List E) :
    Except Error (NodeManager E) :=
  if layer < nm.numLayers then .ok ⟨nm.layers.modify layer (· ++ nodes)⟩
  else .error (.panic "index out of bounds")

/-- `add_node`: overwrite the node at `pos`. -/
def addNode (nm : NodeManager E) (layer pos : Nat) (node : E) : NodeManager E :=
  ⟨nm.layers.modify layer (·.set pos node)⟩

def addLayer (nm : NodeManager E) : NodeManager E := ⟨nm.layers ++ [[]]⟩

/-- `truncate_nodes`: keep the first `pos_end` nodes of a layer. -/
def truncateNodes (nm : NodeManager E) (layer posEnd : Nat) : Except Error (NodeManager E) :=
  if layer < nm.numLayers then .ok ⟨nm.layers.modify layer (·.take posEnd)⟩
  else .error (.panic "index out of bounds")

/-- `truncate_layer`: empty a layer, and drop it if it is the top one. -/
def truncateLayer (nm : NodeManager E) (layer : Nat) : Except Error (NodeManager E) := do
  let nm ← nm.truncateNodes layer 0
  if layer = nm.numLayers - 1 then pure ⟨nm.layers.dropLast⟩ else pure nm

@[simp] theorem numLayers_addNode (nm : NodeManager E) (layer pos : Nat) (node : E) :
    (nm.addNode layer pos node).numLayers = nm.numLayers := by
  simp [addNode, numLayers]

@[simp] theorem numLayers_addLayer (nm : NodeManager E) :
    nm.addLayer.numLayers = nm.numLayers + 1 := by
  simp [addLayer, numLayers]

theorem layerSize_eq_ok {nm : NodeManager E} {layer n : Nat} :
    nm.layerSize layer = .ok n ↔ ∃ h : layer < nm.numLayers, nm.layers[layer].length = n := by
  unfold layerSize numLayers
  cases h : nm.layers[layer]? with
  | none =>
    simp only [reduceCtorEq, false_iff, not_exists]
    intro hl
    simp [List.getElem?_eq_getElem hl] at h
  | some l =>
    obtain ⟨hl, rfl⟩ := List.getElem?_eq_some_iff.mp h
    simp [hl, Except.ok.injEq]

theorem layerSizeD_of_lt {nm : NodeManager E} {layer : Nat} (h : layer < nm.numLayers) :
    nm.layerSizeD layer = nm.layers[layer].length := by
  simp [layerSizeD, List.getElem?_eq_getElem h]

theorem layerSize_of_lt {nm : NodeManager E} {layer : Nat} (h : layer < nm.numLayers) :
    nm.layerSize layer = .ok (nm.layerSizeD layer) :=
  layerSize_eq_ok.mpr ⟨h, (layerSizeD_of_lt h).symm⟩

theorem length_getNodes_le (nm : NodeManager E) (layer startPos endPos : Nat) :
    (nm.getNodes layer startPos endPos).length ≤ nm.layerSizeD layer - startPos := by
  unfold getNodes layerSizeD
  rw [List.length_take, List.length_drop]
  cases nm.layers[layer]? with
  | none => simp
  | some l => exact Nat.min_le_right _ _

end NodeManager

end ZgStorage
