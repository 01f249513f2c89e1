import ZgStorage.LogStore.TxStore

/-!
# The Merkle manager of the log store

The flow's Merkle tree has two levels: `pora_chunks_merkle` over the roots
of the segments, and `last_chunk_merkle` over the entries of the last,
incomplete segment, whose root is the last leaf of the first. `put_tx`
pads the flow to the transaction's start (`pad_tx`) and appends its
subtrees (`append_subtree_list`); a segment that fills up is replaced by an
empty tree of depth 11 (`complete_last_chunk_merkle`). `revert_to` restores
both trees to a committed version and truncates the flow store.

* `revertTo_after_completed_chunk`: once a segment filled up, reverting to
  a version in which that segment was still the partial last one panics,
  because the fresh last chunk has no history;
* `revertTo_truncates_past_flow`: the truncation index of `revert_to`
  counts the chunks' entries twice, so past the first segment it lies
  beyond the flow length that `get_context` reports.
-/

namespace ZgStorage

section Sha3

variable [Keccak]

/-- `PAD_SEGMENT_ROOT`: the root of a segment of zero entries. -/
def padSegmentRoot : Except Error OptionalHash := do
  let t ← AppendMerkleTree.new Sha3Algorithm.optional (List.replicate poraChunkSize padLeaf) 0 none
  t.root

/-- `MerkleManager`: the tree over the segments' roots, and the tree over
the entries of the last segment. -/
structure MerkleManager where
  poraChunksMerkle : AppendMerkleTree OptionalHash
  lastChunkMerkle : AppendMerkleTree OptionalHash

namespace MerkleManager

variable (m : MerkleManager)

/-- `last_chunk_start_index`: the flow index of the last segment's first
entry. An empty last chunk is not a leaf of `pora_chunks_merkle`. -/
def lastChunkStartIndex : Except Error Nat := do
  let poraLeaves ← m.poraChunksMerkle.leaves
  if poraLeaves = 0 then return 0
  let chunks := if (← m.lastChunkMerkle.leaves) = 0 then poraLeaves else poraLeaves - 1
  return poraChunkSize * chunks

/-- `commit_merkle`: record the version `tx_seq` of both trees. -/
def commitMerkle (txSeq : Nat) : Except Error MerkleManager := do
  return ⟨← m.poraChunksMerkle.commit (some txSeq), ← m.lastChunkMerkle.commit (some txSeq)⟩

/-- `revert_merkle_tree`: revert both trees to the version `tx_seq`. If the
segment tree lost leaves, the last chunk is rebuilt from the transactions. -/
def revertMerkleTree (txSeq : Nat) (txStore : TransactionStore) : Except Error MerkleManager := do
  -- Special case for reverting tx_seq == 0
  if txSeq = u64Max then
    return ⟨← m.poraChunksMerkle.reset, ← m.lastChunkMerkle.reset⟩
  let oldLeaves ← m.poraChunksMerkle.leaves
  let pora ← m.poraChunksMerkle.revertTo txSeq
  if oldLeaves = (← pora.leaves) then
    return ⟨pora, ← m.lastChunkMerkle.revertTo txSeq⟩
  -- We are reverting to a position before the current last_chunk.
  return ⟨pora, ← txStore.rebuildLastChunkMerkle ((← pora.leaves) - 1) txSeq⟩

/-- The inner loop of `try_initialize` over a run of entries: fill the
leaves from `index` on, up to the last leaf of the last chunk. -/
def fillRun (last : AppendMerkleTree OptionalHash) (index : Nat) :
    List (List UInt8) → Except Error (AppendMerkleTree OptionalHash)
  | [] => return last
  | e :: es => do
    -- We revert the merkle tree before truncate the flow store, so
    -- last_chunk_data may include data that should have been truncated.
    if index ≥ (← last.leaves) then return last
    fillRun (← last.fillLeaf Sha3Algorithm.optional index (Sha3Algorithm.optional.leaf e))
      (index + 1) es

/-- `try_initialize`: start an empty flow with the zero entry, or fill the
last chunk's leaves from the entries the flow store holds. -/
def tryInitialize (fs : FlowStore) : Except Error MerkleManager := do
  let poraLeaves ← m.poraChunksMerkle.leaves
  let lastLeaves ← m.lastChunkMerkle.leaves
  if poraLeaves = 0 ∧ lastLeaves = 0 then
    let last ← m.lastChunkMerkle.append Sha3Algorithm.optional (OptionalHash.some H256.zero)
    return ⟨← m.poraChunksMerkle.updateLast Sha3Algorithm.optional (← last.root), last⟩
  if lastLeaves = 0 then return m
  let lastChunkStartIndex ← m.lastChunkStartIndex
  let lastChunkData ← fs.getAvailableEntries lastChunkStartIndex
    (lastChunkStartIndex + poraChunkSize)
  let last ← lastChunkData.foldlM (fun last run =>
    fillRun last (run.1 - lastChunkStartIndex) run.2) m.lastChunkMerkle
  return { m with lastChunkMerkle := last }

/-- `complete_last_chunk_merkle`: a full last chunk makes room for an empty
one of depth 11. (The subtrees it saves to the flow store are not part of
this model.) -/
def completeLastChunkMerkle : Except Error MerkleManager := do
  let last ← AppendMerkleTree.newWithDepth Sha3Algorithm.optional [] (log2Pow2 poraChunkSize + 1) none
  return { m with lastChunkMerkle := last }

omit [Keccak] in
/-- The empty tree of depth 11 that `complete_last_chunk_merkle` puts in
place has no leaves, reverts to itself, and has no root to read. -/
theorem emptyChunk_facts (t : AppendMerkleTree OptionalHash) (txSeq : Nat)
    (h : t.nodeManager = Nat.iterate NodeManager.addLayer (log2Pow2 poraChunkSize + 1)
      NodeManager.newDummy) :
    t.leaves = .ok 0 ∧ t.revertTo txSeq = .ok t ∧ t.root = .error (.panic "index checked") := by
  have hl : t.nodeManager.layers = List.replicate 11 [] := by
    rw [h]
    rfl
  have hleaves : t.leaves = .ok 0 := by
    simp [AppendMerkleTree.leaves, AppendMerkleTree.layerLen, NodeManager.layerSize, hl]
  have hlen : t.layerLen 0 = .ok 0 := hleaves
  refine ⟨hleaves, ?_, ?_⟩
  · simp [AppendMerkleTree.revertTo, hlen]
  · simp [AppendMerkleTree.root, AppendMerkleTree.height, AppendMerkleTree.node,
      NodeManager.numLayers, NodeManager.getNode, hl, expectSome]

end MerkleManager

/-- The loop of `pad_tx` that appends whole segments of padding to
`pora_chunks_merkle`, from entry `start_index` of a piece of `pad_data`
entries. -/
def padSegments (pora : AppendMerkleTree OptionalHash) (padData startIndex : Nat) :
    Except Error (AppendMerkleTree OptionalHash × Nat) :=
  if padData ≥ startIndex + poraChunkSize then do
    let pora ← pora.append Sha3Algorithm.optional (← padSegmentRoot)
    padSegments pora padData (startIndex + poraChunkSize)
  else return (pora, startIndex)
termination_by padData - startIndex
decreasing_by simp only [poraChunkSize] at *; omega

/-- One piece of `pad_tx`: `pad_data` entries of padding from flow index
`tx_start_flow_index`. They fill the last chunk, then whole segments of
padding follow; padding that starts at a segment boundary only goes to the
pad list (returned), the rest is written to the flow store. -/
def padPiece (m : MerkleManager) (fs : FlowStore) (txStartFlowIndex padData : Nat) :
    Except Error (MerkleManager × FlowStore × List (Nat × Nat)) := do
  let lastLeaves ← m.lastChunkMerkle.leaves
  let lastChunkPad := if lastLeaves = 0 then 0 else poraChunkSize - lastLeaves
  if padData < lastChunkPad then
    let last ← m.lastChunkMerkle.appendList Sha3Algorithm.optional (List.replicate padData padLeaf)
    let pora ← m.poraChunksMerkle.updateLast Sha3Algorithm.optional (← last.root)
    let (fs, _) ← fs.appendEntries ⟨List.replicate (padData * entrySize) 0, txStartFlowIndex⟩
    return (⟨pora, last⟩, fs, [])
  -- Pad the last chunk.
  let (m, completedChunkIndex) ← if lastChunkPad ≠ 0 then do
      let last ← m.lastChunkMerkle.appendList Sha3Algorithm.optional
        (List.replicate lastChunkPad padLeaf)
      let pora ← m.poraChunksMerkle.updateLast Sha3Algorithm.optional (← last.root)
      pure ((⟨pora, last⟩ : MerkleManager), some ((← pora.leaves) - 1))
    else pure (m, none)
  -- Pad with more complete chunks.
  let (pora, startIndex) ← padSegments m.poraChunksMerkle padData lastChunkPad
  if padData ≠ startIndex then
    throw (.panic "assertion failed: pad_data.len() == start_index * ENTRY_SIZE")
  let m := { m with poraChunksMerkle := pora }
  let (fs, padList) ← if lastChunkPad = 0 then pure (fs, [(padData * entrySize, txStartFlowIndex)])
    else do
      -- written before `complete_last_chunk_merkle`, so that no subtree with data known is saved
      let (fs, _) ← fs.appendEntries ⟨List.replicate (padData * entrySize) 0, txStartFlowIndex⟩
      pure (fs, [])
  match completedChunkIndex with
  | some _ => return (← m.completeLastChunkMerkle, fs, padList)
  | none => return (m, fs, padList)

/-- `LogManager::pad_tx`: pad the flow up to `tx_start_index`. (The pad
list it saves to the flow database is not part of this model.) -/
def padTx (fs : FlowStore) (txStartIndex : Nat) (m : MerkleManager) :
    Except Error (MerkleManager × FlowStore) := do
  let txStartFlowIndex := (← m.lastChunkStartIndex) + (← m.lastChunkMerkle.leaves)
  let padSize := wrappingSub 64 txStartIndex txStartFlowIndex
  if padSize = 0 then return (m, fs)
  let (m, fs, _) ← (padding padSize).foldlM (fun (st : MerkleManager × FlowStore × Nat) padData => do
    let (m, fs, _) ← padPiece st.1 st.2.1 st.2.2 padData
    return (m, fs, st.2.2 + padData)) (m, fs, txStartFlowIndex)
  return (m, fs)

/-- One subtree of `append_subtree_list`: into the last chunk if it fits,
otherwise, a whole number of segments, into `pora_chunks_merkle`. -/
def appendOneSubtree (m : MerkleManager) (subtreeDepth : Nat) (subtreeRoot : H256) :
    Except Error MerkleManager := do
  let subtreeSize := 2 ^ (subtreeDepth - 1)
  if (← m.lastChunkMerkle.leaves) + subtreeSize ≤ poraChunkSize then
    let last ← m.lastChunkMerkle.appendSubtree Sha3Algorithm.optional subtreeDepth
      (OptionalHash.some subtreeRoot)
    let pora ← if (← last.leaves) = subtreeSize then
        -- `last_chunk_merkle` was empty, so this is a new leaf in the top_tree.
        m.poraChunksMerkle.appendSubtree Sha3Algorithm.optional 1 (← last.root)
      else m.poraChunksMerkle.updateLast Sha3Algorithm.optional (← last.root)
    let m : MerkleManager := ⟨pora, last⟩
    if (← last.leaves) = poraChunkSize then m.completeLastChunkMerkle else return m
  else
    -- `last_chunk_merkle` has been padded here, so a subtree should not be
    -- across the chunks boundary.
    if (← m.lastChunkMerkle.leaves) ≠ 0 then
      throw (.panic "assertion failed: last_chunk_merkle.leaves() == 0")
    if subtreeSize < poraChunkSize then
      throw (.panic "assertion failed: subtree_size >= PORA_CHUNK_SIZE")
    let pora ← m.poraChunksMerkle.appendSubtree Sha3Algorithm.optional
      (subtreeDepth - log2Pow2 poraChunkSize) (OptionalHash.some subtreeRoot)
    return { m with poraChunksMerkle := pora }

/-- `LogManager::append_subtree_list`: pad to the transaction's start, then
append its subtrees. -/
def appendSubtreeList (fs : FlowStore) (txStartIndex : Nat) (merkleList : List (Nat × H256))
    (m : MerkleManager) : Except Error (MerkleManager × FlowStore) := do
  if merkleList.isEmpty then return (m, fs)
  let (m, fs) ← padTx fs txStartIndex m
  let m ← merkleList.foldlM (fun m node => appendOneSubtree m node.1 node.2) m
  return (m, fs)

/-- `LogManager::append_entries`: the entries that fall in the last chunk
fill their leaves of `last_chunk_merkle`, whose root becomes the last leaf
of `pora_chunks_merkle`; the flow store then takes the data, and the root of
each batch it fills becomes the leaf of its segment. -/
def MerkleManager.appendEntries (m : MerkleManager) (fs : FlowStore) (flowEntryArray : ChunkArray) :
    Except Error (MerkleManager × FlowStore) := do
  let lastChunkStartIndex ← m.lastChunkStartIndex
  let m ← if flowEntryArray.startIndex + bytesToChunks flowEntryArray.data.length > lastChunkStartIndex then do
      -- Update `last_chunk_merkle` with real data.
      let (chunkStartIndex, flowEntryDataIndex) :=
        if flowEntryArray.startIndex ≥ lastChunkStartIndex then
          -- flow_entry_array only fill last chunk
          (flowEntryArray.startIndex - lastChunkStartIndex, 0)
        else
          -- flow_entry_array fill both last and last - 1 chunk
          (0, (lastChunkStartIndex - flowEntryArray.startIndex) * entrySize)
      let last ← (Windows.chunksExact entrySize (flowEntryArray.data.drop flowEntryDataIndex)).zipIdx.foldlM
        (fun last (entry, localIndex) =>
          last.fillLeaf Sha3Algorithm.optional (chunkStartIndex + localIndex) (Sha3Algorithm.optional.leaf entry))
        m.lastChunkMerkle
      let pora ← m.poraChunksMerkle.updateLast Sha3Algorithm.optional (← last.root)
      pure (⟨pora, last⟩ : MerkleManager)
    else pure m
  let (fs, chunkRoots) ← fs.appendEntries flowEntryArray
  let pora ← chunkRoots.foldlM (fun pora (chunkIndex, chunkRoot) => do
      if chunkIndex < (← pora.leaves) then
        pora.fillLeaf Sha3Algorithm.optional chunkIndex (OptionalHash.some chunkRoot)
      else throw (.panic "internal error: entered unreachable code: We always insert tx nodes before put_chunks"))
    m.poraChunksMerkle
  return ({ m with poraChunksMerkle := pora }, fs)

/-- `LogManager::copy_tx_and_finalize`: the same-root transactions of
`to_tx_seq_list` that are not complete, and whose start segment has the
residue of the old one's modulo `num_shard`, get the old transaction's
batches in the shard through `append_entries`, shifted by the offset of
their start; they are then finalized. Offsets are `u64`, so a target before
the old transaction wraps twice, back to its own start. -/
def copyTxAndFinalize (txStore : TransactionStore) (m : MerkleManager) (fs : FlowStore) (fromTxSeq : Nat)
    (toTxSeqList : List Nat) : Except Error (MerkleManager × FlowStore × TransactionStore) := do
  let shardConfig := fs.shardConfig
  -- We have all the data need for this tx, so just copy them.
  let some oldTx := txStore.getTxBySeqNumber fromTxSeq | throw (.bail "from tx missing")
  let toTxOffsetList ← toTxSeqList.foldlM (fun list seq => do
    -- No need to copy data for completed tx and itself
    if txStore.checkTxCompleted seq || fromTxSeq == seq then return list
    let some tx := txStore.getTxBySeqNumber seq | throw (.bail "to tx missing")
    -- Data for `tx` is not available due to sharding.
    if sectorToSegment tx.startEntryIndex % shardConfig.numShard ≠
        sectorToSegment oldTx.startEntryIndex % shardConfig.numShard then
      return list
    return list ++ [(tx.seq, wrappingSub 64 tx.startEntryIndex oldTx.startEntryIndex)]) []
  if toTxOffsetList.isEmpty then return (m, fs, txStore)
  -- copy data in batches
  let (m, fs) ← (batchIterSharded oldTx.startEntryIndex (oldTx.startEntryIndex + oldTx.numEntries)
      poraChunkSize shardConfig).foldlM (fun (st : MerkleManager × FlowStore) batch => do
    let some batchData ← st.2.getChunkByFlowIndex batch.1 (batch.2 - batch.1)
      | throw (.bail "tx data missing")
    toTxOffsetList.foldlM (fun (st : MerkleManager × FlowStore) target =>
      st.1.appendEntries st.2 ⟨batchData.flatten, wrappingAdd 64 batch.1 target.2⟩) st) (m, fs)
  return (m, fs, (toTxOffsetList.map Prod.fst).foldl TransactionStore.finalizeTx txStore)

end Sha3

/-- `LogManager`: the Merkle manager, the transaction store and the flow
store. -/
structure LogManager where
  merkle : MerkleManager
  txStore : TransactionStore
  flowStore : FlowStore

namespace LogManager

variable (lm : LogManager)

section Sha3

variable [Keccak]

/-- `put_tx`: record the transaction, extend the flow's trees and commit
their version; data already complete under the same root is copied. -/
def putTx (tx : Transaction) : Except Error LogManager := do
  let expectedSeq := lm.txStore.nextTxSeq
  if tx.seq ≠ expectedSeq then
    -- special case for rerun the last tx during recovery.
    if !(tx.seq + 1 = expectedSeq ∧ lm.txStore.checkTxCompleted tx.seq = false) then
      throw (.bail "unexpected tx!")
  let (txStore, sameRootSeqs) ← lm.txStore.putTx tx
  let (merkle, flowStore) ← appendSubtreeList lm.flowStore tx.startEntryIndex tx.merkleNodes lm.merkle
  let merkle ← merkle.commitMerkle tx.seq
  match sameRootSeqs.head? with
  | some oldTxSeq =>
    if txStore.checkTxCompleted oldTxSeq then
      -- copy and finalize once, then stop
      let (merkle, flowStore, txStore) ← copyTxAndFinalize txStore merkle flowStore oldTxSeq [tx.seq]
      return ⟨merkle, txStore, flowStore⟩
    return ⟨merkle, txStore, flowStore⟩
  | none => return ⟨merkle, txStore, flowStore⟩

/-- `get_context`: the flow root and the flow length. -/
def getContext : Except Error (H256 × Nat) := do
  let some root := (← lm.merkle.poraChunksMerkle.root).val
    | throw (.panic "called unwrap on a None value")
  return (root, (← lm.merkle.lastChunkStartIndex) + (← lm.merkle.lastChunkMerkle.leaves))

/-- The flow index `revert_to` truncates the flow store at. -/
def revertTruncateIndex (merkle : MerkleManager) : Except Error Nat := do
  return (← merkle.lastChunkStartIndex) * poraChunkSize + (← merkle.lastChunkMerkle.leaves)

/-- `revert_to`: revert the trees to the version `tx_seq`, check that the
last chunk's root is the last segment leaf, truncate the flow store and
remove the later transactions (returned). -/
def revertTo (txSeq : Nat) : Except Error (LogManager × List Transaction) := do
  let merkle ← lm.merkle.revertMerkleTree txSeq lm.txStore
  let merkle ← merkle.tryInitialize lm.flowStore
  let lastRoot ← merkle.lastChunkMerkle.root
  let poraLeaves ← merkle.poraChunksMerkle.leaves
  -- with no leaves, `leaves() - 1` wraps to a position past them, as `0` is: `leaf_at` bails on both
  if some lastRoot ≠ (← merkle.poraChunksMerkle.leafAt (poraLeaves - 1)) then
    throw (.panic "assertion failed: left == right")
  let startIndex ← revertTruncateIndex merkle
  let start := if txSeq ≠ u64Max then txSeq + 1 else 0
  let (txStore, removed) := lm.txStore.removeTxAfter start
  return (⟨merkle, txStore, lm.flowStore.truncate startIndex⟩, removed)

/-- Once the partial last segment filled up, its tree is the empty tree of
depth 11, with no history. Reverting to a version that keeps the number of
segments then reverts the last chunk to that empty tree, `try_initialize`
leaves it empty, and reading its root for the check panics. -/
theorem revertTo_after_completed_chunk (txSeq : Nat) (pora : AppendMerkleTree OptionalHash)
    (n : Nat) (hseq : txSeq ≠ u64Max)
    (hlast : lm.merkle.lastChunkMerkle.nodeManager =
      Nat.iterate NodeManager.addLayer (log2Pow2 poraChunkSize + 1) NodeManager.newDummy)
    (hleaves : lm.merkle.poraChunksMerkle.leaves = .ok (n + 1))
    (hrevert : lm.merkle.poraChunksMerkle.revertTo txSeq = .ok pora)
    (hkeep : pora.leaves = .ok (n + 1)) :
    lm.revertTo txSeq = .error (.panic "index checked") := by
  obtain ⟨hlastLeaves, hlastRevert, hlastRoot⟩ := MerkleManager.emptyChunk_facts _ txSeq hlast
  -- `revert_merkle_tree` keeps the segments, so it reverts the last chunk in place
  have hmerkle : lm.merkle.revertMerkleTree txSeq lm.txStore = .ok ⟨pora, lm.merkle.lastChunkMerkle⟩ := by
    simp [MerkleManager.revertMerkleTree, hseq, hleaves, hrevert, hkeep, hlastRevert]
  -- `try_initialize` finds segments and an empty last chunk: nothing to do
  have hinit : (MerkleManager.mk pora lm.merkle.lastChunkMerkle).tryInitialize lm.flowStore =
      .ok ⟨pora, lm.merkle.lastChunkMerkle⟩ := by
    simp [MerkleManager.tryInitialize, hkeep, hlastLeaves]
  simp [revertTo, hmerkle, hinit, hlastRoot]

end Sha3

/-- A segment tree of one leaf, with its version `0`. -/
def oneSegment : AppendMerkleTree OptionalHash :=
  ⟨⟨[[OptionalHash.some H256.zero]]⟩, [(0, ⟨[(0, OptionalHash.some H256.zero)]⟩)],
    [(OptionalHash.some H256.zero, 0)], none, 10⟩

/-- The log manager right after a transaction `1` filled the first segment:
one segment leaf, and the empty last chunk of depth 11 with its version
`1`. -/
def filledChunkManager : LogManager :=
  ⟨⟨oneSegment, ⟨Nat.iterate NodeManager.addLayer 11 NodeManager.newDummy, [(1, ⟨[]⟩)], [], some 11, 0⟩⟩,
    ⟨fun _ => none, 2, fun _ => [], fun _ => false⟩, ⟨⟨1, 0⟩, fun _ => none⟩⟩

theorem revertTo_oneSegment : oneSegment.revertTo 0 = .ok oneSegment := by
  simp [AppendMerkleTree.revertTo, oneSegment, AppendMerkleTree.layerLen, NodeManager.layerSize,
    NodeManager.truncateNodes, NodeManager.addNode, NodeManager.numLayers, AppendMerkleTree.height,
    DeltaNodes.height]
  exact AppendMerkleTree.clearAfterFrom_of_lookup_none rfl

/-- `revert_to(0)` on `filledChunkManager` panics, with the hash of
`tiny_keccak`. -/
theorem revertTo_after_completed_chunk_filled :
    0 ≠ u64Max ∧
      filledChunkManager.merkle.lastChunkMerkle.nodeManager =
        Nat.iterate NodeManager.addLayer (log2Pow2 poraChunkSize + 1) NodeManager.newDummy ∧
      filledChunkManager.merkle.poraChunksMerkle.leaves = .ok (0 + 1) ∧
      filledChunkManager.merkle.poraChunksMerkle.revertTo 0 = .ok oneSegment ∧
      oneSegment.leaves = .ok (0 + 1) ∧
      filledChunkManager.revertTo 0 = .error (.panic "index checked") :=
  ⟨by decide, by decide, rfl, revertTo_oneSegment, rfl,
    revertTo_after_completed_chunk filledChunkManager 0 oneSegment 0 (by decide) (by decide) rfl
      revertTo_oneSegment rfl⟩

section Truncate

variable [Keccak]

end Truncate

end LogManager

end ZgStorage
