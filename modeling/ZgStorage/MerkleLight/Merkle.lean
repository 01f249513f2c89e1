import ZgStorage.AppendMerkle.NodeManager
import ZgStorage.Framework.SortedMap
import ZgStorage.Framework.SplitTree

/-!
# The link-map Merkle tree of `merkle_light`

`merkle_light/src/merkle.rs` and `proof.rs`: `MerkleTree` keeps all its
nodes in one array, layer after layer, each layer of odd width padded with
a null node. A node whose right child has no leaves under it is null too,
and `link_map` links it to the node that holds its hash (its left child, or
the node its left child links to). `gen_proof` climbs the layers from a
leaf, taking each sibling's hash, through its link when it is null, and
skipping a null sibling without a link.

The tree is generic in its node type, with the null node `T::default()`,
and in its algorithm `Algorithm<T>` (`leaf`, `node`).
-/

namespace ZgStorage

namespace MerkleLight

/-- `Algorithm<T>`: the hash of a leaf, and of two children. -/
structure Algorithm (T : Type) where
  leaf : T → T
  node : T → T → T

variable {T : Type} [DecidableEq T] [Inhabited T]

/-- `null_node`: `T::default()`. -/
def nullNode : T := default

/-- `MerkleTree`: the nodes, layer after layer, the number of leaves, and the
links of null nodes (a `BTreeMap`). -/
structure MerkleTree (T : Type) where
  data : List T
  leafs : Nat
  linkMap : List (Nat × Nat)

/-- A link to add, from a parent to the node that holds its hash, and the
link of its left child to remove. -/
structure LinkUpdate where
  linkFrom : Nat
  linkTo : Nat
  maybeRemove : Option Nat

/-- The body of the map over the pairs of a layer in `build`: the parent of
the pair at `i`, and the update of the link map it asks for. -/
def buildPair (A : Algorithm T) (data : List T) (linkMap : List (Nat × Nat)) (layerStart layerEnd i : Nat) :
    Except Error (T × Option LinkUpdate) :=
  -- If the right child is not NULL, the left child is ensured to be not NULL.
  if data[i + 1]! ≠ nullNode then .ok (A.node data[i]! data[i + 1]!, none)
  else
    -- If a child is NULL, the parent should be a linking node to the actual node hash.
    let parentIndex := (i - layerStart) / 2 + layerEnd
    if data[i]! = nullNode then
      -- If both are NULL, the left child must be a linking node.
      match SortedMap.get? linkMap i with
      | some linkedTo => .ok (nullNode, some ⟨parentIndex, linkedTo, some i⟩)
      | none => .error (.panic "called `Option::unwrap()` on a `None` value")
    else
      match SortedMap.get? linkMap (i + 1) with
      -- Right child is linked to a hash, so we just compute the parent hash.
      | some index =>
        if data[index]! = nullNode then .error (.panic "assertion `left != right` failed")
        else .ok (A.node data[i]! data[index]!, none)
      -- Right child is NULL, so link the parent to the left child which has a hash stored.
      | none => .ok (nullNode, some ⟨parentIndex, i, none⟩)

/-- The pairs of a layer `[layer_start, layer_end)`, from the data and the
link map as the layer below left them. -/
def buildLayer (A : Algorithm T) (data : List T) (linkMap : List (Nat × Nat)) (layerStart layerEnd : Nat) :
    Except Error (List (T × Option LinkUpdate)) :=
  (List.range' layerStart ((layerEnd - layerStart + 1) / 2) 2).mapM (buildPair A data linkMap layerStart layerEnd)

/-- A link map with one update made. -/
def LinkUpdate.apply (linkMap : List (Nat × Nat)) (u : LinkUpdate) : List (Nat × Nat) :=
  let linkMap := SortedMap.insert linkMap u.linkFrom u.linkTo
  match u.maybeRemove with
  | some remove => SortedMap.erase linkMap remove
  | none => linkMap

/-- The loop of `build` that pushes a layer's nodes and updates the link map. -/
def pushLayer (data : List T) (linkMap : List (Nat × Nat)) : List (T × Option LinkUpdate) → List T × List (Nat × Nat)
  | [] => (data, linkMap)
  | (node, maybeLinkMapUpdate) :: layer =>
    pushLayer (data ++ [node]) (match maybeLinkMapUpdate with
      | some u => u.apply linkMap
      | none => linkMap) layer

/-- The loop of `build` over the layers, from the layer of `width` nodes at
`[layer_start, layer_end)`. -/
def buildLoop (A : Algorithm T) (width layerStart layerEnd : Nat) (data : List T) (linkMap : List (Nat × Nat)) :
    Except Error (List T × List (Nat × Nat)) :=
  if _h : width > 1 then do
    -- if there is odd num of elements, fill in a NULL.
    let odd := width % 2 = 1
    let data := if odd then data ++ [nullNode] else data
    let width' := if odd then width + 1 else width
    let layerEnd := if odd then layerEnd + 1 else layerEnd
    let layer ← buildLayer A data linkMap layerStart layerEnd
    let (data, linkMap) := pushLayer data linkMap layer
    buildLoop A (width' / 2) layerEnd (layerEnd + width' / 2) data linkMap
  else .ok (data, linkMap)
termination_by width
decreasing_by split <;> omega

/-- `build`. -/
def build (A : Algorithm T) (t : MerkleTree T) : Except Error (MerkleTree T) := do
  let (data, linkMap) ← buildLoop A t.leafs 0 t.leafs t.data t.linkMap
  return { t with data := data, linkMap := linkMap }

/-- `from_iter` (and `MerkleTree::new`): the leaves hashed, and the tree
built over them. -/
def fromIter (A : Algorithm T) (items : List T) : Except Error (MerkleTree T) :=
  let data := items.map A.leaf
  build A ⟨data, data.length, []⟩

namespace MerkleTree

/-- `root`: the last node. -/
def root (t : MerkleTree T) : T := t.data[t.data.length - 1]!

/-- `len`. -/
def len (t : MerkleTree T) : Nat := t.data.length

end MerkleTree

/-- `Proof`: the leaf, the siblings and the root, and whether the node is on
the left at each sibling. -/
structure Proof (T : Type) where
  «lemma» : List T
  path : List Bool

namespace Proof

/-- `Proof::new`. -/
def new (hash : List T) (path : List Bool) : Except Error (Proof T) :=
  if hash.length > 2 then
    if hash.length - 2 = path.length then .ok ⟨hash, path⟩
    else .error (.panic "assertion `left == right` failed")
  else if hash.length = 1 ∧ path = [] then .ok ⟨hash, path⟩
  else .error (.panic "assertion `left == right` failed")

/-- `item`: the first of the lemma. -/
def item (p : Proof T) : T := p.«lemma».head!

/-- `root`: the last of the lemma. -/
def root (p : Proof T) : T := p.«lemma».getLast!

/-- `validate`: hash the item up the lemma along the path. -/
def validate (A : Algorithm T) (p : Proof T) : Bool :=
  let size := p.«lemma».length
  -- Special case for a single node.
  if size = 1 ∧ p.path = [] then true
  else if size < 2 then false
  else
    let h := (List.range' 1 (size - 2)).foldl
      (fun h i => if p.path[i - 1]! then A.node h p.«lemma»[i]! else A.node p.«lemma»[i]! h) p.item
    decide (h = p.root)

end Proof

namespace MerkleTree

/-- The loop of `gen_proof` over the layers, from the one of `width` nodes
(padded) at `base`, where the node is `j`. -/
def genProofLoop (t : MerkleTree T) (base j width : Nat) (hw : 2 ≤ width) («lemma» : List T) (path : List Bool) :
    Except Error (List T × List Bool) :=
  if _hb : base + 1 < t.len then do
    let proofHashIndex ← if j % 2 = 0 then
        -- j is left
        let rightIndex := base + j + 1
        if t.data[rightIndex]! = nullNode then
          -- A link node, so the proof uses the linked hash; a NULL node, just skip.
          (SortedMap.get? t.linkMap rightIndex).elim (pure none) fun index =>
            if t.data[index]! = nullNode then throw (.panic "assertion `left != right` failed")
            else pure (some index)
        else pure (some rightIndex)
      -- j is right
      else pure (some (base + j - 1))
    -- `if let Some(index) = proof_hash_index`: its hash, and the side of the node
    let «lemma» := proofHashIndex.elim «lemma» fun index => «lemma» ++ [t.data[index]!]
    let path := proofHashIndex.elim path fun _ => path ++ [decide (j % 2 = 0)]
    let width' := width / 2
    genProofLoop t (base + width) (j / 2) (if width' % 2 = 1 then width' + 1 else width') (by split <;> omega)
      «lemma» path
  else .ok («lemma», path)
termination_by t.len - base
decreasing_by omega

/-- `gen_proof`: the proof of leaf `i`. -/
def genProof (t : MerkleTree T) (i : Nat) : Except Error (Proof T) :=
  if _h1 : t.leafs = 1 then
    if i = 0 then Proof.new [t.root] [] else .error (.panic "assertion `left == right` failed")
  else if _hi : i < t.leafs then do
    -- level 1 width; the lemma and the path
    let walk ← genProofLoop t 0 i (if t.leafs % 2 = 1 then t.leafs + 1 else t.leafs)
      (by split <;> omega) [t.data[i]!] []
    -- root is final
    Proof.new (walk.1 ++ [t.root]) walk.2
  else .error (.panic "assertion failed: i < self.leafs")

end MerkleTree

/-- `next_pow2`, on a 64-bit `usize`, wrapping at `2 ^ 64`. -/
def nextPow2 (n : Nat) : Nat :=
  let n := (n + 2 ^ 64 - 1) % 2 ^ 64
  let n := n ||| n >>> 1
  let n := n ||| n >>> 2
  let n := n ||| n >>> 4
  let n := n ||| n >>> 8
  let n := n ||| n >>> 16
  let n := n ||| n >>> 32
  (n + 1) % 2 ^ 64

/-- On a number from `2` to `2 ^ 63`, `next_pow2` is the power of two of the
bits of the number below it: the smearing sets every bit under the top one. -/
theorem nextPow2_eq {m : Nat} (h₁ : 2 ≤ m) (h₂ : m ≤ 2 ^ 63) : nextPow2 m = 2 ^ (m - 1).size := by
  have hx : 0 < m - 1 := by omega
  have hs : (m - 1).size ≤ 63 := Nat.size_le.mpr (by omega)
  have h₀ : (m + 2 ^ 64 - 1) % 2 ^ 64 = m - 1 := by
    rw [show m + 2 ^ 64 - 1 = m - 1 + 2 ^ 64 by omega, Nat.add_mod_right, Nat.mod_eq_of_lt (by omega)]
  unfold nextPow2
  dsimp only
  rw [h₀]
  set x₁ := (m - 1) ||| (m - 1) >>> 1
  have b₁ : Pow2.TopBits (m - 1).size 2 x₁ := (Pow2.topBits_size hx).or_shiftRight
  set x₂ := x₁ ||| x₁ >>> 2
  have b₂ : Pow2.TopBits (m - 1).size 4 x₂ := b₁.or_shiftRight
  set x₃ := x₂ ||| x₂ >>> 4
  have b₃ : Pow2.TopBits (m - 1).size 8 x₃ := b₂.or_shiftRight
  set x₄ := x₃ ||| x₃ >>> 8
  have b₄ : Pow2.TopBits (m - 1).size 16 x₄ := b₃.or_shiftRight
  set x₅ := x₄ ||| x₄ >>> 16
  have b₅ : Pow2.TopBits (m - 1).size 32 x₅ := b₄.or_shiftRight
  have b₆ : Pow2.TopBits (m - 1).size 64 (x₅ ||| x₅ >>> 32) := b₅.or_shiftRight
  have hlt : 2 ^ (m - 1).size < 2 ^ 64 := Nat.pow_lt_pow_right (by decide) (by omega)
  rw [b₆.eq (by omega), Nat.sub_add_cancel Nat.one_le_two_pow, Nat.mod_eq_of_lt hlt]

/-- Half of `next_pow2` is where the split tree splits. -/
theorem nextPow2_shiftRight_one {m : Nat} (h₁ : 2 ≤ m) (h₂ : m ≤ 2 ^ 63) : nextPow2 m >>> 1 = Pow2.below m := by
  have hs : 0 < (m - 1).size := Nat.size_pos.mpr (by omega)
  rw [nextPow2_eq h₁ h₂, Nat.shiftRight_eq_div_pow, Nat.pow_div hs (by decide), Pow2.below]

end MerkleLight

end ZgStorage
