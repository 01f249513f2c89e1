import ZgStorage.MerkleLight.GenProof
import ZgStorage.AppendMerkle.Hash

/-!
# File proofs and their positions

`shared_types::FileProof` carries the `merkle_light` proof of a chunk of a
file: its lemma, as `H256`s, and its path. `position` reads the index of the
chunk back from the path and the number of chunks, splitting the chunks at
`next_pow2 / 2` from the top, as the file tree splits them
(`root_eq_nextPow2`). On the path of the split tree's proof of a chunk it
finds that chunk (`positionLoop_proof`, `position_of_proof`).

`fileMerkleTree_spec` puts the file tree together: over `n ≤ 2 ^ 63` chunks
whose leaf hashes are not the null node, with node hashes that never are,
`from_iter` builds the tree whose root is the split tree's, and the proof of
every chunk validates, carries the chunk's leaf hash and the root, and has
the chunk's position.
-/

namespace ZgStorage

namespace SharedTypes

open MerkleLight SplitTree

/-- `FileProof`. -/
structure FileProof where
  «lemma» : List H256
  path : List Bool

namespace FileProof

/-- The loop of `position` over the path from the top: the chunks under the
node so far, and its position. -/
def positionLoop (path : List Bool) (totalChunkCount : Nat) : List Bool → Nat → Nat → Except Error (Nat × Nat)
  | [], leftChunkCount, proofPosition => .ok (leftChunkCount, proofPosition)
  | isLeft :: rest, leftChunkCount, proofPosition =>
    if leftChunkCount ≤ 1 then
      .error (.bail s!"Proof path too long for a tree size: path={path}, size={totalChunkCount}")
    else
      let subtreeSize := nextPow2 leftChunkCount >>> 1
      if !isLeft then positionLoop path totalChunkCount rest (leftChunkCount - subtreeSize) (proofPosition + subtreeSize)
      else positionLoop path totalChunkCount rest subtreeSize proofPosition

/-- `position`: the index of the chunk the proof is for, among
`total_chunk_count`. -/
def position (p : FileProof) (totalChunkCount : Nat) : Except Error Nat := do
  let path := p.path
  let (leftChunkCount, proofPosition) ← positionLoop path totalChunkCount path.reverse totalChunkCount 0
  if leftChunkCount ≠ 1 then
    throw (.bail s!"Proof path too short for a tree size: path={path}, size={totalChunkCount}")
  pure proofPosition

variable {α : Type} [Inhabited α] (node : α → α → α)

/-- Along the split tree's proof of leaf `i`, from the top, the loop ends at
one chunk, `i` chunks after where it started. -/
theorem positionLoop_proof (path : List Bool) (totalChunkCount : Nat) (L : List α) (i pos : Nat) (hi : i < L.length)
    (hL : L.length ≤ 2 ^ 63) :
    positionLoop path totalChunkCount ((proof node L i).map Prod.snd) L.length pos = .ok (1, pos + i) := by
  induction hn : L.length using Nat.strong_induction_on generalizing L i pos with
  | _ n ih =>
    by_cases h1 : n ≤ 1
    · -- one chunk: the path is empty
      rw [proof_of_le_one (by omega), List.map_nil, positionLoop]
      congr 2 <;> omega
    · have h2 : 2 ≤ L.length := by omega
      have hk := Pow2.below_lt h2
      have hsub := nextPow2_shiftRight_one h2 (by omega)
      by_cases hik : i < Pow2.below L.length
      · -- on the left: the chunks left are the left subtree's
        have hlt : (L.take (Pow2.below L.length)).length = Pow2.below L.length := by
          rw [List.length_take]
          omega
        have := ih _ (by rw [hlt]; omega) (L.take (Pow2.below L.length)) i pos (by rw [hlt]; omega)
          (by rw [hlt]; omega) rfl
        rw [hlt] at this
        rw [proof_of_lt h2 hik, List.map_cons, ← hn, positionLoop, if_neg (by omega)]
        simp only [hsub, Bool.not_true, Bool.false_eq_true, if_false]
        exact this
      · -- on the right: the left subtree's chunks come before
        have hlt : (L.drop (Pow2.below L.length)).length = L.length - Pow2.below L.length := List.length_drop
        have := ih _ (by rw [hlt]; have := Pow2.below_pos L.length; omega) (L.drop (Pow2.below L.length))
          (i - Pow2.below L.length) (pos + Pow2.below L.length) (by rw [hlt]; omega) (by rw [hlt]; omega) rfl
        rw [hlt, show pos + Pow2.below L.length + (i - Pow2.below L.length) = pos + i by omega] at this
        rw [proof_of_le h2 (by omega), List.map_cons, ← hn, positionLoop, if_neg (by omega)]
        simp only [hsub, Bool.not_false, if_true]
        exact this

/-- A file proof whose path is the split tree's proof of chunk `i`, from the
bottom, has position `i`. -/
theorem position_of_proof {p : FileProof} {L : List α} {i : Nat} (hpath : p.path.reverse = (proof node L i).map Prod.snd)
    (hi : i < L.length) (hL : L.length ≤ 2 ^ 63) : p.position L.length = .ok i := by
  unfold position
  dsimp only
  rw [hpath, positionLoop_proof node _ _ L i 0 hi hL, Except.ok_bind, Nat.zero_add]
  rfl

end FileProof

/-- Over at least two and at most `2 ^ 63` leaves, the split tree splits at
half of `next_pow2` of their number. -/
theorem root_eq_nextPow2 {α : Type} [Inhabited α] (node : α → α → α) {L : List α} (h₁ : 2 ≤ L.length)
    (h₂ : L.length ≤ 2 ^ 63) :
    SplitTree.root node L =
      node (SplitTree.root node (L.take (nextPow2 L.length / 2))) (SplitTree.root node (L.drop (nextPow2 L.length / 2))) := by
  rw [← Nat.shiftRight_one, nextPow2_shiftRight_one h₁ h₂]
  exact root_of_two_le h₁

variable {T : Type} [DecidableEq T] [Inhabited T]

/-- The file tree: over `n ≤ 2 ^ 63` chunks whose leaf hashes are not the
null node, with node hashes that never are, the root of the tree
`from_iter` builds is the split tree's, and the proof of every chunk
validates, carries the chunk's leaf hash and the root, and has the chunk's
position, whatever the lemma's hashes are as `H256`s. -/
theorem fileMerkleTree_spec (A : MerkleLight.Algorithm T) (items : List T) (hn : 0 < items.length) (hlen : items.length ≤ 2 ^ 63)
    (hy : ∀ x ∈ items, A.leaf x ≠ nullNode) (hnode : ∀ a b, A.node a b ≠ nullNode) (toH256 : T → H256) :
    ∃ t, fromIter A items = .ok t ∧ t.root = SplitTree.root A.node (items.map A.leaf) ∧
      ∀ i (hi : i < items.length), ∃ p, t.genProof i = .ok p ∧ p.validate A = true ∧ p.item = A.leaf items[i] ∧
        p.root = SplitTree.root A.node (items.map A.leaf) ∧
        FileProof.position ⟨p.«lemma».map toH256, p.path⟩ items.length = .ok i := by
  have hy' : ∀ x ∈ items.map A.leaf, x ≠ nullNode := fun x hx => by
    obtain ⟨a, ha, rfl⟩ := List.mem_map.mp hx
    exact hy a ha
  have hne := noNullNode_of_forall hy' hnode
  obtain ⟨t, top, hfrom, ht⟩ := fromIter_isBuilt A items hne
  refine ⟨t, hfrom, ht.root (by rw [List.length_map]; exact hn), fun i hi => ?_⟩
  obtain ⟨p, hp, hvalid, hitem, hroot, hpath⟩ := ht.genProof_spec hne (by rw [List.length_map]; exact hi)
  refine ⟨p, hp, hvalid, by rw [hitem, List.getElem_map], hroot, ?_⟩
  have hpos := FileProof.position_of_proof (p := ⟨p.«lemma».map toH256, p.path⟩) A.node hpath
    (by rw [List.length_map]; exact hi)
    (by rw [List.length_map]; exact hlen)
  rwa [List.length_map] at hpos

theorem fileMerkleTree_spec_three :
    let A : MerkleLight.Algorithm Nat := ⟨fun x => x, fun a b => a + b + 1⟩
    (0 < [1, 2, 3].length ∧ [1, 2, 3].length ≤ 2 ^ 63 ∧ (∀ x ∈ [1, 2, 3], A.leaf x ≠ nullNode) ∧
      ∀ a b, A.node a b ≠ nullNode) ∧
    ∃ t, fromIter A [1, 2, 3] = .ok t ∧ t.root = SplitTree.root A.node ([1, 2, 3].map A.leaf) ∧
      ∀ i (hi : i < [1, 2, 3].length), ∃ p, t.genProof i = .ok p ∧ p.validate A = true ∧
        p.item = A.leaf [1, 2, 3][i] ∧ p.root = SplitTree.root A.node ([1, 2, 3].map A.leaf) ∧
        FileProof.position ⟨p.«lemma».map (fun _ => H256.zero), p.path⟩ [1, 2, 3].length = .ok i :=
  ⟨⟨by decide, by decide, by decide, fun a b => Nat.succ_ne_zero (a + b)⟩,
    fileMerkleTree_spec _ [1, 2, 3] (by decide) (by decide) (by decide) (fun a b => Nat.succ_ne_zero (a + b))
      (fun _ => H256.zero)⟩

end SharedTypes

end ZgStorage
