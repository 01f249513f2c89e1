import ZgStorage.LogStore.LogManager

/-!
# Copying a transaction's data to its same-root transactions

`copy_tx_and_finalize` reads the batches of the old transaction that the
shard stores, writes each of them, shifted by a target's offset, through
`LogManager::append_entries`, and then finalizes the targets. The targets it
keeps are those whose start segment has the old one's residue modulo
`num_shard`: that is all it checks. A batch lies in one segment, so a
shifted batch lands where the target has the same data only in the same
position of another segment, and only an offset of whole rounds of the
shards (`PORA_CHUNK_SIZE × num_shard`) maps the segments the shard stores of
one transaction onto those of the other.

* `MerkleManager.appendEntries_of_before`: data before the last chunk whose
  batches do not fill up leaves both trees as they are;
* `copyTxAndFinalize_misses`: a copy with an offset of `3584` finalizes the
  target while an entry of it in the shard stays missing.
-/

namespace ZgStorage

namespace FlowStore

/-- `get_entries` of a range that starts past entry `0`, inside one batch
whose entries are all there. -/
theorem getEntries_of_batch (fs : FlowStore) {a b : Nat} (f : Nat → List UInt8) (hab : a < b)
    (hb : batchIter a b poraChunkSize = [(a, b)]) (ha : a ≠ 0)
    (hf : ∀ i, a ≤ i → i < b → fs.entries i = some (f i)) :
    fs.getEntries a b = .ok (some ((List.range (b - a)).map fun i => f (a + i))) := by
  have hoff : a / poraChunkSize * poraChunkSize + (a - a / poraChunkSize * poraChunkSize) = a := by
    have := Nat.div_mul_le_self a poraChunkSize
    omega
  have hentries : ∀ i ∈ List.range (b - a),
      fs.entries (a / poraChunkSize * poraChunkSize + (a - a / poraChunkSize * poraChunkSize) + i) =
        some (f (a + i)) := by
    intro i hi
    rw [hoff]
    exact hf _ (by omega) (by simp at hi; omega)
  -- the first batch of the flow starts at entry `1`, which this one does not
  have hne : ¬(a / poraChunkSize = 0 ∧ a - a / poraChunkSize * poraChunkSize = 0) := by
    simp only [poraChunkSize] at ha ⊢
    omega
  simp only [getEntries, if_neg (Nat.not_le.mpr hab), hb, List.foldlM_cons, List.foldlM_nil,
    if_neg hne]
  rw [Option.mapM_eq_some hentries]
  rfl

end FlowStore

section Sha3

variable [Keccak]

/-- Data that ends before the last chunk, and whose batches the flow store
does not fill up, leaves both trees as they are. -/
theorem MerkleManager.appendEntries_of_before {m : MerkleManager} {fs fs' : FlowStore} {data : ChunkArray}
    {s : Nat} (hs : m.lastChunkStartIndex = .ok s)
    (hbefore : data.startIndex + bytesToChunks data.data.length ≤ s)
    (hfs : fs.appendEntries data = .ok (fs', [])) : m.appendEntries fs data = .ok (m, fs') := by
  simp [MerkleManager.appendEntries, hs, Nat.not_lt.mpr hbefore, hfs]

end Sha3

section Misses

/-- A transaction of 768 entries (subtrees of 512 and 256) at flow index
`512`: segment `0`. -/
def sourceTx : Transaction := ⟨0, 512, [(10, H256.zero), (9, H256.zero)], 768 * 256, H256.zero⟩

/-- A transaction of 2048 entries that takes the flow to `4096`. -/
def fillerTx : Transaction := ⟨1, 2048, [(12, H256.zero)], 2048 * 256, H256.zero⟩

/-- The same data as `sourceTx` at flow index `4096`: segment `4`. -/
def targetTx : Transaction := ⟨2, 4096, [(10, H256.zero), (9, H256.zero)], 768 * 256, H256.zero⟩

/-- The three transactions, `sourceTx` complete. (The data-root index is
not read by the copy.) -/
def sameRootStore : TransactionStore :=
  ⟨fun seq => if seq = 0 then some sourceTx else if seq = 1 then some fillerTx
    else if seq = 2 then some targetTx else none, 3, fun _ => [], fun seq => seq == 0⟩

/-- Copying `sourceTx` to `targetTx` in shard `0` of `2`, from any flow
store that holds the source's batch in the shard and nothing from `4096`
on, with the last chunk past `4608`: the source's one batch in the shard,
`[512, 1024)`, is written to `[4096, 4608)`, and the target is finalized,
yet its entry `4608`, in segment `4` of the shard and inside its range,
stays missing. -/
theorem copyTxAndFinalize_misses [Keccak] (sourceData : Nat → Vector UInt8 entrySize)
    (other : Nat → Option (List UInt8)) {m : MerkleManager} {s : Nat}
    (hs : m.lastChunkStartIndex = .ok s) (hlast : 4608 ≤ s) :
    ∃ fs' txStore', copyTxAndFinalize sameRootStore m
        ⟨⟨2, 0⟩, fun i => if 512 ≤ i ∧ i < 1024 then some (sourceData i).toList
          else if 4096 ≤ i then none else other i⟩ 0 [2] = .ok (m, fs', txStore') ∧
      txStore'.checkTxCompleted 2 = true ∧ fs'.entries 4608 = none ∧
      targetTx.startEntryIndex ≤ 4608 ∧ 4608 < targetTx.startEntryIndex + bytesToEntries targetTx.size ∧
      (ShardConfig.mk 2 0).inRange (sectorToSegment 4608) = true := by
  set fs : FlowStore := ⟨⟨2, 0⟩, fun i => if 512 ≤ i ∧ i < 1024 then some (sourceData i).toList
    else if 4096 ≤ i then none else other i⟩ with hfs
  obtain ⟨batchData, hbd⟩ : ∃ l, l = (List.range (1024 - 512)).map fun i => (sourceData (512 + i)).toList :=
    ⟨_, rfl⟩
  -- entries of `ENTRY_SIZE` bytes each, a sector each
  have hlen : batchData.flatten.length = 512 * bytesPerSector := by
    rw [hbd, List.length_flatten, List.map_map]
    simp only [Function.comp_def, Vector.length_toList, List.map_const', List.sum_replicate, List.length_range,
      smul_eq_mul]
    rfl
  have hmod : (⟨batchData.flatten, 4096⟩ : ChunkArray).data.length % bytesPerSector = 0 := by
    rw [hlen]
    exact Nat.mul_mod_left _ _
  -- the copy lands over entries that hold nothing
  obtain ⟨fs', roots, hcall⟩ := @FlowStore.appendEntries_ok_of_absent _ ⟨batchData.flatten, 4096⟩ fs hmod
    (by rw [hlen]; decide) fun i hi _ _ => by
      have hi' : 4096 ≤ i := hi
      show (if 512 ≤ i ∧ i < 1024 then _ else if 4096 ≤ i then none else other i) = none
      rw [if_neg (by omega), if_pos hi']
  obtain ⟨-, hw, -, hroots⟩ := FlowStore.appendEntries_ok hcall
  -- entry `4608` lies past the copy, so batch `4` is not full and has no root
  have hend : (⟨batchData.flatten, 4096⟩ : ChunkArray).startIndex +
      (⟨batchData.flatten, 4096⟩ : ChunkArray).data.length / bytesPerSector = 4608 := by
    dsimp only
    rw [hlen]
    rfl
  have h4608 : fs'.entries 4608 = none := by
    rcases hw.2 4608 with h | ⟨-, -, h, -⟩
    · rw [h, hfs]
      simp
    · omega
  have hlist : FlowStore.batchList ⟨2, 0⟩ ⟨batchData.flatten, 4096⟩ = [4] := by
    rw [FlowStore.batchList]
    dsimp only
    rw [hlen]
    decide
  have hroot : fs'.batchRoot 4 = none := by
    rw [FlowStore.batchRoot, if_neg (by decide), FlowStore.getUnsealedData_eq_none (j := 512) (by decide) h4608]
    rfl
  have hnil : roots = [] := by
    rw [hroots, show fs.shardConfig = ⟨2, 0⟩ from rfl, hlist, List.filterMap_cons, hroot]
    rfl
  have hmerkle : m.appendEntries fs ⟨batchData.flatten, 4096⟩ = .ok (m, fs') :=
    MerkleManager.appendEntries_of_before hs (by dsimp only; rw [hlen]; exact Nat.le_trans (by decide) hlast)
      (hnil ▸ hcall)
  -- the source's one batch in the shard is segment `0`'s `[512, 1024)`, read whole
  have hbatches : batchIterSharded sourceTx.startEntryIndex (sourceTx.startEntryIndex + sourceTx.numEntries)
      poraChunkSize ⟨2, 0⟩ = [(512, 1024)] := by
    decide
  have hread : fs.getChunkByFlowIndex 512 (1024 - 512) = .ok (some batchData) := by
    rw [hbd]
    exact FlowStore.getEntries_of_batch fs (fun i => (sourceData i).toList) (by decide) (by decide) (by decide)
      fun i h1 h2 => by simp [hfs, h1, h2]
  -- the target's start segment `4` has the residue of the source's `0`, at offset `3584`
  have hres : sectorToSegment targetTx.startEntryIndex % 2 = sectorToSegment sourceTx.startEntryIndex % 2 := by
    decide
  have hoff : wrappingAdd 64 512 (wrappingSub 64 targetTx.startEntryIndex sourceTx.startEntryIndex) = 4096 := by decide
  have hsc : fs.shardConfig = ⟨2, 0⟩ := rfl
  have hseq : targetTx.seq = 2 := rfl
  refine ⟨fs', sameRootStore.finalizeTx 2, ?_, by simp [TransactionStore.finalizeTx,
    TransactionStore.checkTxCompleted], h4608, by decide, by decide, by decide⟩
  simp [copyTxAndFinalize, sameRootStore, TransactionStore.getTxBySeqNumber, TransactionStore.checkTxCompleted,
    hbatches, hread, hoff, hmerkle, hres, hsc, hseq]

/-- A Merkle manager over six whole segments: its last chunk, empty, starts
at `6144`. -/
def sixSegments : MerkleManager :=
  ⟨⟨⟨[List.replicate 6 (OptionalHash.some H256.zero)]⟩, [], [], none, 10⟩,
    ⟨Nat.iterate NodeManager.addLayer 11 NodeManager.newDummy, [], [], some 11, 0⟩⟩

/-- The copy over a source of zero entries, the flow six segments long. -/
theorem copyTxAndFinalize_misses_sixSegments :
    sixSegments.lastChunkStartIndex = .ok 6144 ∧ 4608 ≤ 6144 ∧
      ∃ fs' txStore', copyTxAndFinalize sameRootStore sixSegments
          ⟨⟨2, 0⟩, fun i => if 512 ≤ i ∧ i < 1024 then some (Vector.replicate entrySize (0 : UInt8)).toList
            else if 4096 ≤ i then none else none⟩ 0 [2] = .ok (sixSegments, fs', txStore') ∧
        txStore'.checkTxCompleted 2 = true ∧ fs'.entries 4608 = none ∧
        targetTx.startEntryIndex ≤ 4608 ∧ 4608 < targetTx.startEntryIndex + bytesToEntries targetTx.size ∧
        (ShardConfig.mk 2 0).inRange (sectorToSegment 4608) = true :=
  ⟨rfl, by decide, copyTxAndFinalize_misses (fun _ => Vector.replicate entrySize 0) (fun _ => none) rfl (by decide)⟩

end Misses

end ZgStorage
