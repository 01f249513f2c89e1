import ZgStorage.LogStore.EntryBatch
import ZgStorage.LogStore.Flow
import ZgStorage.Framework.SortedMap

/-!
# The seal queue of the flow store

`FlowStore` keeps its entry batches in the data db, by batch index, and in
its seal task manager the seals to be sealed (`to_seal_set`, by global seal
index `64 × batch + seal`), each with the version it was queued at.
`append_entries` queues the unsealed seals of each batch it completes,
`pull_seal_chunk` hands out the data of the first queued batch's seals,
`submit_seal_result` writes the answers of a version still queued over their
seals, and `truncate` drops the queue from the cut on and queues, at a new
version, the seals that the cut unseals.

A task is loadable when its batch is stored and its seal is not sealed and
all there (`Loadable`); on a store whose tasks all are, `pull_seal_chunk`
does not panic (`pullSealChunk_ok_of_loadable`). A cut inside a sealed seal
breaks this: the seal is queued again while the batch keeps only its part
before the cut (`truncate_cut_inside_seal`).
-/

namespace ZgStorage

/-- `ChunkArray`: entries of `CHUNK_SIZE` bytes from entry `start_index` on. -/
structure ChunkArray where
  data : List UInt8
  startIndex : Nat

/-- `ChunkArray::sub_array`: the entries `[start, end)`, if the array holds
them. -/
def ChunkArray.subArray (c : ChunkArray) (start stop : Nat) : Option ChunkArray :=
  if start ≥ c.data.length / chunkSize + c.startIndex ∨ start < c.startIndex ∨
      stop > c.data.length / chunkSize + c.startIndex ∨ stop ≤ c.startIndex ∨ stop ≤ start then none
  else
    let startOffset := (start - c.startIndex) * chunkSize
    let endOffset := (stop - c.startIndex) * chunkSize
    some ⟨(c.data.take endOffset).drop startOffset, start⟩

/-- The whole array. -/
theorem ChunkArray.subArray_whole {c : ChunkArray} {n : Nat} (h : c.data.length = n * chunkSize) (hn : 0 < n) :
    c.subArray c.startIndex (c.startIndex + n) = some c := by
  have hdiv : c.data.length / chunkSize = n := by rw [h]; exact Nat.mul_div_cancel n (by decide)
  simp [subArray, hdiv, ← h, Nat.pos_iff_ne_zero.mp hn, Nat.add_comm]

/-- `FlowDBStore`: the column `COL_ENTRY_BATCH`, by batch index in the order
of the keys. A batch is stored as it is: its encoding is left out. -/
structure FlowDBStore where
  entryBatches : List (Nat × EntryBatch)

namespace FlowDBStore

def getEntryBatch (db : FlowDBStore) (batchIndex : Nat) : Option EntryBatch :=
  SortedMap.get? db.entryBatches batchIndex

/-- `put_entry_batch_list` and `put_entry_raw`: one transaction of puts. -/
def putEntryBatchList (db : FlowDBStore) (batchList : List (Nat × EntryBatch)) : FlowDBStore :=
  ⟨batchList.foldl (fun m e => SortedMap.insert m e.1 e.2) db.entryBatches⟩

/-- `FlowDBStore::delete_batch_list`. -/
def deleteBatchList (db : FlowDBStore) (batchList : List Nat) : FlowDBStore :=
  ⟨batchList.foldl SortedMap.erase db.entryBatches⟩

variable [Keccak]

/-- `FlowDBStore::truncate`: cut the batch of `start_index`, and delete the
batches after it up to the last one stored; the seals to seal again. -/
def truncate (db : FlowDBStore) (startIndex : Nat) : Except Error (FlowDBStore × List Nat) := do
  let startBatchIndex := startIndex / poraChunkSize
  let firstBatchOffset := startIndex % poraChunkSize
  let (tx, indexToReseal, startBatchIndex) ← if firstBatchOffset ≠ 0 then
      match db.getEntryBatch startBatchIndex with
      | some firstBatch => do
        let (firstBatch, toReseal) ← firstBatch.truncate firstBatchOffset
        let tx := if !firstBatch.isEmpty then SortedMap.insert db.entryBatches startBatchIndex firstBatch
          else SortedMap.erase db.entryBatches startBatchIndex
        pure (tx, toReseal.map (startBatchIndex * sealsPerLoad + ·), startBatchIndex + 1)
      | none => pure (db.entryBatches, [], startBatchIndex + 1)
    else pure (db.entryBatches, [], startBatchIndex)
  match db.entryBatches.getLast? with
  -- The db has no data, so we can just return
  | none => return (db, indexToReseal)
  | some (stop, _) => return (⟨tx.filter fun e => ¬(startBatchIndex ≤ e.1 ∧ e.1 ≤ stop)⟩, indexToReseal)

/-- `FlowDBStore::truncate` inside a stored batch that the cut leaves not
empty: the batch is cut and kept. -/
theorem truncate_cut {db : FlowDBStore} {startIndex : Nat} {b b' : EntryBatch} {toReseal : List Nat}
    (hcut : startIndex % poraChunkSize ≠ 0) (hb : db.getEntryBatch (startIndex / poraChunkSize) = some b)
    (htr : b.truncate (startIndex % poraChunkSize) = .ok (b', toReseal)) (hne : b'.isEmpty = false) :
    ∃ db', db.truncate startIndex =
        .ok (db', toReseal.map (startIndex / poraChunkSize * sealsPerLoad + ·)) ∧
      db'.getEntryBatch (startIndex / poraChunkSize) = some b' := by
  have hne' : db.entryBatches ≠ [] := by
    intro h
    simp [getEntryBatch, h] at hb
  have hlast := List.getLast?_eq_some_getLast hne'
  generalize db.entryBatches.getLast hne' = e at hlast
  obtain ⟨stop, x⟩ := e
  let kept := fun k => decide ¬(startIndex / poraChunkSize + 1 ≤ k ∧ k ≤ stop)
  refine ⟨⟨(SortedMap.insert db.entryBatches (startIndex / poraChunkSize) b').filter fun e => kept e.1⟩,
    ?_, ?_⟩
  · simp [truncate, hcut, hb, htr, hne, hlast, kept]
  · rw [getEntryBatch, SortedMap.get?_filter]
    simp [kept]

end FlowDBStore

/-- `SealTaskManager`: the seals to seal, each with the version it was
queued at, and the current version. -/
structure SealTaskManager where
  toSealSet : List (Nat × Nat)
  toSealVersion : Nat

/-- `SealTaskManager::delete_batch_list`. -/
def SealTaskManager.deleteBatchList (m : SealTaskManager) (batchList : List Nat) : SealTaskManager :=
  { m with toSealSet := batchList.foldl (fun s batchIndex =>
      (List.range' (batchIndex * sealsPerLoad) sealsPerLoad).foldl SortedMap.erase s) m.toSealSet }

/-- `FlowStore` over its entry batches: the data db, the seal task manager
and the shard the node stores, with `batch_size = PORA_CHUNK_SIZE`. -/
structure BatchFlowStore where
  dataDb : FlowDBStore
  sealManager : SealTaskManager
  shardConfig : ShardConfig

namespace BatchFlowStore

/-- A store with an empty db, the default seal task manager and the default
shard. -/
def empty : BatchFlowStore := ⟨⟨[]⟩, ⟨[], 0⟩, ⟨1, 0⟩⟩

/-- One seal of the loop of `append_entries` over a complete batch: only
seals that are not already sealed are queued. -/
def queueSeal (batch : EntryBatch) (chunkIndex version : Nat) (toSealSet : List (Nat × Nat))
    (sealIndex : Nat) : List (Nat × Nat) :=
  if !batch.isSealSealed sealIndex then SortedMap.insert toSealSet (chunkIndex * sealsPerLoad + sealIndex) version
  else toSealSet

def queueSeals (toSealSet : List (Nat × Nat)) (batch : EntryBatch) (chunkIndex version : Nat) :
    List (Nat × Nat) :=
  (List.range sealsPerLoad).foldl (queueSeal batch chunkIndex version) toSealSet

open SortedMap

/-- What the loop over the seals of a batch queues. -/
theorem get?_foldl_queueSeal (batch : EntryBatch) (c v k : Nat) :
    ∀ (xs : List Nat) (m : List (Nat × Nat)), get? (xs.foldl (queueSeal batch c v) m) k =
      if ∃ i ∈ xs, batch.isSealSealed i = false ∧ c * sealsPerLoad + i = k then some v else get? m k
  | [], m => by simp
  | i :: xs, m => by
    rw [List.foldl_cons, get?_foldl_queueSeal batch c v k xs]
    simp only [List.mem_cons, or_and_right, exists_or, exists_eq_left]
    by_cases hx : ∃ j ∈ xs, batch.isSealSealed j = false ∧ c * sealsPerLoad + j = k
    · simp [hx]
    · by_cases hi : batch.isSealSealed i = false ∧ c * sealsPerLoad + i = k
      · simp [hx, queueSeal, hi.1, hi.2]
      · simp only [hx, hi, or_false, if_false, queueSeal]
        split
        · rename_i hs
          rw [get?_insert, if_neg]
          intro heq
          exact hi ⟨by simpa using hs, heq⟩
        · rfl

/-- Seals queued after the first seal of the batch stay behind it. -/
theorem foldl_queueSeal_cons (batch : EntryBatch) (c v w : Nat) :
    ∀ (xs : List Nat) (m : List (Nat × Nat)), (∀ i ∈ xs, 0 < i) →
      xs.foldl (queueSeal batch c v) ((c * sealsPerLoad, w) :: m) =
        (c * sealsPerLoad, w) :: xs.foldl (queueSeal batch c v) m
  | [], _, _ => rfl
  | i :: xs, m, hpos => by
    have hi := hpos i List.mem_cons_self
    have hstep : queueSeal batch c v ((c * sealsPerLoad, w) :: m) i =
        (c * sealsPerLoad, w) :: queueSeal batch c v m i := by
      unfold queueSeal
      split
      · exact insert_cons_of_lt (by omega) w v m
      · rfl
    rw [List.foldl_cons, hstep, foldl_queueSeal_cons batch c v w xs _ fun j hj =>
      hpos j (List.mem_cons_of_mem i hj), List.foldl_cons]

/-- The seals of a batch whose first seal is not sealed are queued from it
on. -/
theorem queueSeals_nil (batch : EntryBatch) (c v : Nat) (h : batch.isSealSealed 0 = false) :
    ∃ rest, queueSeals [] batch c v = (c * sealsPerLoad, v) :: rest := by
  have hrange : List.range sealsPerLoad = 0 :: List.range' 1 (sealsPerLoad - 1) := by
    rw [List.range_eq_range']
    rfl
  have hfirst : queueSeal batch c v [] 0 = [(c * sealsPerLoad, v)] := by
    simp [queueSeal, h, SortedMap.insert]
  refine ⟨(List.range' 1 (sealsPerLoad - 1)).foldl (queueSeal batch c v) [], ?_⟩
  rw [queueSeals, hrange, List.foldl_cons, hfirst]
  exact foldl_queueSeal_cons batch c v v _ [] fun i hi => by
    rw [List.mem_range'_1] at hi
    omega

section Calls

variable [Keccak]

/-- The loop of `append_entries` over the batches of the data. `to_seal_set`
is written in place, so what a batch queued stays when a later one fails. -/
def appendLoop (fs : BatchFlowStore) (sealWorkerAvailable : Bool) (data : ChunkArray) :
    List (Nat × Nat) → List (Nat × Nat) → List (Nat × EntryBatch) →
      List (Nat × Nat) × Except Error (List (Nat × EntryBatch))
  | [], toSealSet, batchList => (toSealSet, .ok batchList)
  | (startEntryIndex, endEntryIndex) :: rest, toSealSet, batchList =>
    match data.subArray startEntryIndex endEntryIndex with
    | none => (toSealSet, .error (.panic "in range"))
    | some chunk =>
      let chunkIndex := chunk.startIndex / poraChunkSize
      -- The data are in a shard range that we are not storing.
      if !fs.shardConfig.inRange chunkIndex then appendLoop fs sealWorkerAvailable data rest toSealSet batchList
      else
        let batch := (fs.dataDb.getEntryBatch chunkIndex).getD (EntryBatch.new chunkIndex)
        match batch.insertData (chunk.startIndex % poraChunkSize) chunk.data with
        | .error e => (toSealSet, .error e)
        | .ok (batch, _) =>
          let toSealSet := if sealWorkerAvailable && batch.isComplete then
              queueSeals toSealSet batch chunkIndex fs.sealManager.toSealVersion
            else toSealSet
          appendLoop fs sealWorkerAvailable data rest toSealSet (batchList ++ [(chunkIndex, batch)])

/-- `FlowStore::append_entries`, given whether the seal worker is available:
the store after the call, and what the call returns. The roots of the
completed batches are left out. -/
def appendEntries (fs : BatchFlowStore) (sealWorkerAvailable : Bool) (data : ChunkArray) :
    BatchFlowStore × Except Error Unit :=
  if data.data.length % bytesPerSector ≠ 0 then
    (fs, .error (.bail ("append_entries: invalid data size, len=" ++ toString data.data.length)))
  else
    let (toSealSet, result) := fs.appendLoop sealWorkerAvailable data
      (batchIter data.startIndex (data.startIndex + bytesToEntries data.data.length) poraChunkSize)
      fs.sealManager.toSealSet []
    let fs := { fs with sealManager := { fs.sealManager with toSealSet } }
    match result with
    | .error e => (fs, .error e)
    | .ok batchList => ({ fs with dataDb := fs.dataDb.putEntryBatchList batchList }, .ok ())

/-- `FlowStore::truncate`. -/
def truncate (fs : BatchFlowStore) (startIndex : Nat) : Except Error BatchFlowStore := do
  let (dataDb, toReseal) ← fs.dataDb.truncate startIndex
  let toSealSet := SortedMap.splitOff fs.sealManager.toSealSet (startIndex / sectorsPerSeal)
  let newSealVersion := fs.sealManager.toSealVersion + 1
  return { fs with dataDb, sealManager :=
    ⟨toReseal.foldl (fun s x => SortedMap.insert s x newSealVersion) toSealSet, newSealVersion⟩ }

/-- The task of a queued seal, from the data of its batch. -/
def sealTask (batchData : EntryBatch) (entry : Nat × Nat) : Except Error SealTask := do
  let some nonSealedData ← batchData.getNonSealedData (entry.1 % sealsPerLoad)
    | throw (.panic "Lost seal chunk in to_seal_set")
  return ⟨entry.1, entry.2, nonSealedData⟩

/-- `FlowStore::pull_seal_chunk`: the tasks of the queued seals below
`seal_index_max` of the first queued seal's batch. -/
def pullSealChunk (fs : BatchFlowStore) (sealIndexMax : Nat) : Except Error (Option (List SealTask)) :=
  match fs.sealManager.toSealSet with
  | [] => .ok none
  | (firstIndex, firstVersion) :: rest =>
    if firstIndex ≥ sealIndexMax then .ok none
    else match fs.dataDb.getEntryBatch (firstIndex / sealsPerLoad) with
      | none => .error (.panic "Lost data chunk in to_seal_set")
      | some batchData =>
        some <$> ((firstIndex, firstVersion) :: rest.filter fun x =>
          firstIndex / sealsPerLoad = x.1 / sealsPerLoad ∧ x.1 < sealIndexMax).mapM (sealTask batchData)

/-- The answers of one load in `submit_seal_result`: written over the
batch's seals, and their indices kept to be removed from the queue. -/
def submitChunk (fs : BatchFlowStore) (state : List (Nat × EntryBatch) × List Nat)
    (answersInChunk : List SealAnswer) : Except Error (List (Nat × EntryBatch) × List Nat) := do
  let (updatedChunk, removedSealIndex) := state
  let some first := answersInChunk.head? | return state
  let loadIndex := first.sealIndex / sealsPerLoad
  let some batchChunk := fs.dataDb.getEntryBatch loadIndex | throw (.panic "Can not find chunk data")
  let (batchChunk, removedSealIndex) ← answersInChunk.foldlM (fun (b, removed) answer => do
    return (← b.submitSealResult answer, removed ++ [answer.sealIndex])) (batchChunk, removedSealIndex)
  return (updatedChunk ++ [(loadIndex, batchChunk)], removedSealIndex)

/-- `FlowStore::submit_seal_result`: the answers of the versions still
queued, load by load (`chunk_by`). -/
def submitSealResult (fs : BatchFlowStore) (answers : List SealAnswer) : Except Error BatchFlowStore := do
  let isConsistent := fun answer : SealAnswer =>
    SortedMap.get? fs.sealManager.toSealSet answer.sealIndex == some answer.version
  let (updatedChunk, removedSealIndex) ← ((answers.filter isConsistent).splitBy fun a b =>
      a.sealIndex / sealsPerLoad == b.sealIndex / sealsPerLoad).foldlM fs.submitChunk ([], [])
  return { fs with
    sealManager := { fs.sealManager with
      toSealSet := removedSealIndex.foldl SortedMap.erase fs.sealManager.toSealSet }
    dataDb := fs.dataDb.putEntryBatchList updatedChunk }

/-- `FlowStore::delete_batch_list`. -/
def deleteBatchList (fs : BatchFlowStore) (batchList : List Nat) : BatchFlowStore :=
  { fs with sealManager := fs.sealManager.deleteBatchList batchList,
            dataDb := fs.dataDb.deleteBatchList batchList }

/-- `append_entries` of one whole batch that the store does not hold: the
batch is stored complete, and all its seals are queued. -/
theorem appendEntries_whole_batch {fs : BatchFlowStore} {c : Nat} {d : List UInt8}
    (hnone : fs.dataDb.getEntryBatch c = none) (hin : fs.shardConfig.inRange c = true)
    (hd : d.length = bytesPerLoad) :
    fs.appendEntries true ⟨d, c * poraChunkSize⟩ =
      ({ fs with
        sealManager := { fs.sealManager with
          toSealSet := queueSeals fs.sealManager.toSealSet ⟨SealInfo.new c, .complete d⟩ c
            fs.sealManager.toSealVersion }
        dataDb := fs.dataDb.putEntryBatchList [(c, ⟨SealInfo.new c, .complete d⟩)] }, .ok ()) := by
  obtain ⟨ready, hins⟩ := EntryBatch.insertData_new (c := c) hd
  have hsize : d.length % bytesPerSector = 0 := by rw [hd]; decide
  have hentries : bytesToEntries d.length = poraChunkSize := by rw [hd]; decide
  have hsub : (⟨d, c * poraChunkSize⟩ : ChunkArray).subArray (c * poraChunkSize)
      (c * poraChunkSize + poraChunkSize) = some ⟨d, c * poraChunkSize⟩ :=
    ChunkArray.subArray_whole (n := poraChunkSize) (by rw [hd]; decide) (by decide)
  have hidx : c * poraChunkSize / poraChunkSize = c := Nat.mul_div_cancel c (by decide)
  have hoff : c * poraChunkSize % poraChunkSize = 0 := Nat.mul_mod_left c poraChunkSize
  simp [appendEntries, hsize, hentries, batchIter_segment, appendLoop, hsub, hidx, hin, hnone, hoff, hins,
    EntryBatch.isComplete]

omit [Keccak] in
/-- The task of an unsealed seal of a complete batch is its 4 KiB. -/
theorem sealTask_complete {b : EntryBatch} {d : List UInt8} (hd : b.data = .complete d)
    (hlen : d.length = bytesPerLoad) {x v : Nat} (hns : b.isSealSealed (x % sealsPerLoad) = false) :
    sealTask b (x, v) = .ok ⟨x, v, (d.drop (x % sealsPerLoad * bytesPerSeal)).take bytesPerSeal⟩ := by
  have hx := Nat.mod_lt x (show 0 < sealsPerLoad by decide)
  have hseal : x % sealsPerLoad * bytesPerSeal + bytesPerSeal ≤ bytesPerLoad := by
    unfold sealsPerLoad bytesPerSeal bytesPerLoad at *; omega
  simp only [EntryBatch.isSealSealed] at hns
  simp [sealTask, EntryBatch.getNonSealedData, hns, EntryBatchData.get, hd, hseal, sliceGet, hlen]

omit [Keccak] in
/-- `pull_seal_chunk` of a queue whose first seal is in a complete batch
with no seal sealed: the first task is that seal's data. -/
theorem pullSealChunk_complete {fs : BatchFlowStore} {x v sealIndexMax : Nat} {rest : List (Nat × Nat)}
    {b : EntryBatch} {d : List UInt8} (hq : fs.sealManager.toSealSet = (x, v) :: rest)
    (hmax : x < sealIndexMax) (hb : fs.dataDb.getEntryBatch (x / sealsPerLoad) = some b)
    (hd : b.data = .complete d) (hlen : d.length = bytesPerLoad) (hns : ∀ i, b.isSealSealed i = false) :
    ∃ tasks, fs.pullSealChunk sealIndexMax = .ok (some tasks) ∧
      tasks.head? = some ⟨x, v, (d.drop (x % sealsPerLoad * bytesPerSeal)).take bytesPerSeal⟩ := by
  have hmap := Except.mapM_eq_ok (f := sealTask b)
    (g := fun e => ⟨e.1, e.2, (d.drop (e.1 % sealsPerLoad * bytesPerSeal)).take bytesPerSeal⟩)
    (l := (x, v) :: rest.filter fun y => x / sealsPerLoad = y.1 / sealsPerLoad ∧ y.1 < sealIndexMax)
    fun e _ => sealTask_complete hd hlen (hns _)
  refine ⟨((x, v) :: rest.filter fun y => x / sealsPerLoad = y.1 / sealsPerLoad ∧ y.1 < sealIndexMax).map
    fun e => ⟨e.1, e.2, (d.drop (e.1 % sealsPerLoad * bytesPerSeal)).take bytesPerSeal⟩, ?_, rfl⟩
  simp only [pullSealChunk, hq, Nat.not_le.mpr hmax, if_false, hb, hmap]
  rfl

omit [Keccak] in
/-- `pull_seal_chunk` panics when the first queued seal's data is not all
there. -/
theorem pullSealChunk_lost_seal {fs : BatchFlowStore} {x v sealIndexMax : Nat} {rest : List (Nat × Nat)}
    {b : EntryBatch} (hq : fs.sealManager.toSealSet = (x, v) :: rest) (hmax : x < sealIndexMax)
    (hb : fs.dataDb.getEntryBatch (x / sealsPerLoad) = some b)
    (hlost : b.getNonSealedData (x % sealsPerLoad) = .ok none) :
    fs.pullSealChunk sealIndexMax = .error (.panic "Lost seal chunk in to_seal_set") := by
  simp [pullSealChunk, hq, Nat.not_le.mpr hmax, hb, List.mapM_cons, sealTask, hlost]

omit [Keccak] in
/-- `submit_seal_result` of one answer of a version still queued. -/
theorem submitSealResult_single {fs : BatchFlowStore} {a : SealAnswer} {b b' : EntryBatch}
    (hv : SortedMap.get? fs.sealManager.toSealSet a.sealIndex = some a.version)
    (hb : fs.dataDb.getEntryBatch (a.sealIndex / sealsPerLoad) = some b)
    (hs : b.submitSealResult a = .ok b') :
    fs.submitSealResult [a] = .ok { fs with
      sealManager := { fs.sealManager with toSealSet := SortedMap.erase fs.sealManager.toSealSet a.sealIndex }
      dataDb := fs.dataDb.putEntryBatchList [(a.sealIndex / sealsPerLoad, b')] } := by
  simp [submitSealResult, hv, List.splitBy, List.splitBy.loop, submitChunk, hb, hs]

/-- `truncate` after the data db's. -/
theorem truncate_eq {fs : BatchFlowStore} {startIndex : Nat} {db : FlowDBStore} {toReseal : List Nat}
    (h : fs.dataDb.truncate startIndex = .ok (db, toReseal)) :
    fs.truncate startIndex = .ok { fs with dataDb := db, sealManager :=
      ⟨toReseal.foldl (fun s x => SortedMap.insert s x (fs.sealManager.toSealVersion + 1))
        (SortedMap.splitOff fs.sealManager.toSealSet (startIndex / sectorsPerSeal)),
        fs.sealManager.toSealVersion + 1⟩ } := by
  simp [truncate, h]

/-- A full batch appended with the seal worker available queues its 64
seals; after seal `0` is sealed in an epoch ending at seal `1`, `truncate(8)`
queues it again while the batch keeps only its first 2 KiB, and
`pull_seal_chunk` panics on it. -/
theorem pullSealChunk_after_cut_panics (d : List UInt8) (hd : d.length = bytesPerLoad)
    (sealedData : Vector UInt8 (4 * 1024)) (minerId sealContext : H256) :
    ∃ fs₁ fs₂ fs₃ tasks,
      empty.appendEntries true ⟨d, 0⟩ = (fs₁, .ok ()) ∧
      fs₁.pullSealChunk sealsPerLoad = .ok (some tasks) ∧
      tasks.head? = some ⟨0, 0, d.take bytesPerSeal⟩ ∧
      fs₁.submitSealResult [⟨0, 0, sealedData, minerId, sealContext, 1⟩] = .ok fs₂ ∧
      fs₂.truncate 8 = .ok fs₃ ∧ fs₃.sealManager.toSealSet = [(0, 1)] ∧
      fs₃.pullSealChunk sealsPerLoad = .error (.panic "Lost seal chunk in to_seal_set") := by
  let b₁ : EntryBatch := ⟨SealInfo.new 0, .complete d⟩
  -- the batch is stored complete and its seals are queued at version `0`
  have happend : empty.appendEntries true ⟨d, 0⟩ =
      (⟨⟨[(0, b₁)]⟩, ⟨queueSeals [] b₁ 0 0, 0⟩, ⟨1, 0⟩⟩, .ok ()) :=
    appendEntries_whole_batch (c := 0) rfl rfl hd
  obtain ⟨rest, hq⟩ := queueSeals_nil b₁ 0 0 rfl
  rw [Nat.zero_mul] at hq
  have hv : SortedMap.get? (queueSeals [] b₁ 0 0) 0 = some 0 := by
    rw [queueSeals, get?_foldl_queueSeal]
    exact if_pos ⟨0, List.mem_range.mpr (by decide), rfl, rfl⟩
  generalize queueSeals [] b₁ 0 0 = queue at happend hq hv
  let fs₁ : BatchFlowStore := ⟨⟨[(0, b₁)]⟩, ⟨queue, 0⟩, ⟨1, 0⟩⟩
  have hb₁ : fs₁.dataDb.getEntryBatch 0 = some b₁ := rfl
  have hq₁ : fs₁.sealManager.toSealSet = (0, 0) :: rest := hq
  obtain ⟨tasks, hpull, hhead⟩ := pullSealChunk_complete hq₁ (show 0 < sealsPerLoad by decide) hb₁ rfl hd
    fun _ => rfl
  -- seal `0` is sealed
  let a : SealAnswer := ⟨0, 0, sealedData, minerId, sealContext, 1⟩
  have hs₁ := EntryBatch.submitSealResult_fresh (c := 0) hd (a := a) (i := 0) rfl (by decide)
    (show 0 * sealsPerLoad < 1 by decide)
  let b₂ : EntryBatch := ⟨(⟨fun _ => false, 0, minerId, [⟨sealContext, 1⟩]⟩ : SealInfo).markSealed 0,
    .complete (sealedData.toList ++ d.drop bytesPerSeal)⟩
  have hs₁' : b₁.submitSealResult a = .ok b₂ := by
    rw [hs₁]
    simp [b₂, a, sealsPerLoad]
  have hv₁ : SortedMap.get? fs₁.sealManager.toSealSet a.sealIndex = some a.version := hv
  have hsubmit := submitSealResult_single hv₁ (b := b₁) (by simpa [a] using hb₁) hs₁'
  -- the cut at sector `8` unseals seal `0` up to it and queues it again
  have hlen₂ : (sealedData.toList ++ d.drop bytesPerSeal).length = bytesPerLoad := by
    simp [hd, bytesPerSeal, bytesPerLoad]
  have hfirst : b₂.seal.truncatedSealIndex (8 / sectorsPerSeal) = 0 := by
    simp [b₂, SealInfo.truncatedSealIndex, SealInfo.contextIndex, SealInfo.markSealed, sectorsPerSeal,
      wrappingAdd, Runs.binarySearchByKey]
  obtain ⟨b₃, htr, hp₃, hbits₃⟩ := EntryBatch.truncate_complete (b := b₂) rfl hlen₂
    (show 0 < 8 by decide) (show 8 < sectorsPerLoad by decide) (fun j h₁ h₂ _ => by
      rw [hfirst] at h₁
      have hj : j = 0 := by simpa [sectorsPerSeal] using h₂
      subst hj
      simp [b₂, SealInfo.getSealContextDigest, SealInfo.contextIndex, SealInfo.markSealed, wrappingAdd,
        Runs.binarySearchByKey]) (by rw [hfirst]; decide)
  rw [hfirst] at htr hbits₃
  have hreseal : (List.range' 0 ((8 - 1) / sectorsPerSeal + 1 - 0)).filter b₂.seal.isSealed = [0] := by
    simp [sectorsPerSeal, b₂, SealInfo.isSealed, SealInfo.markSealed]
  rw [hreseal] at htr
  let fs₂ : BatchFlowStore := ⟨⟨[(0, b₂)]⟩, ⟨SortedMap.erase queue 0, 0⟩, ⟨1, 0⟩⟩
  obtain ⟨db₃, hdb, hb₃⟩ := FlowDBStore.truncate_cut (show 8 % poraChunkSize ≠ 0 by decide)
    (show fs₂.dataDb.getEntryBatch (8 / poraChunkSize) = some b₂ from rfl) htr
    hp₃.isEmpty
  have hns₃ : b₃.seal.isSealed (8 / sectorsPerSeal) = false := by simp [hbits₃, sectorsPerSeal]
  have hlost := EntryBatch.getNonSealedData_cut hp₃ (by decide) (by decide) hns₃
  have hq₃ : ∀ m : List (Nat × Nat), ([0].map (8 / poraChunkSize * sealsPerLoad + ·)).foldl
      (fun s x => SortedMap.insert s x (0 + 1)) (SortedMap.splitOff m (8 / sectorsPerSeal)) = [(0, 1)] := by
    intro m
    simp [SortedMap.splitOff, SortedMap.insert, sectorsPerSeal, poraChunkSize]
  refine ⟨fs₁, fs₂, _, tasks, happend, hpull, by simpa using hhead, ?_, truncate_eq hdb, hq₃ _, ?_⟩
  · simpa [fs₂, fs₁, a, FlowDBStore.putEntryBatchList, SortedMap.insert] using hsubmit
  · exact pullSealChunk_lost_seal (hq₃ _) (by decide) hb₃ hlost

end Calls

/-- The run on a batch of zeros. -/
theorem pullSealChunk_after_cut_panics_zeros :
    (List.replicate bytesPerLoad (0 : UInt8)).length = bytesPerLoad ∧
    ∃ fs₁ fs₂ fs₃ tasks,
      empty.appendEntries true ⟨List.replicate bytesPerLoad 0, 0⟩ = (fs₁, .ok ()) ∧
      fs₁.pullSealChunk sealsPerLoad = .ok (some tasks) ∧
      tasks.head? = some ⟨0, 0, (List.replicate bytesPerLoad 0).take bytesPerSeal⟩ ∧
      fs₁.submitSealResult [⟨0, 0, Vector.replicate _ 0, H256.zero, H256.zero, 1⟩] = .ok fs₂ ∧
      fs₂.truncate 8 = .ok fs₃ ∧ fs₃.sealManager.toSealSet = [(0, 1)] ∧
      fs₃.pullSealChunk sealsPerLoad = .error (.panic "Lost seal chunk in to_seal_set") :=
  ⟨List.length_replicate, pullSealChunk_after_cut_panics _ List.length_replicate _ _ _⟩

/-- Every queued seal can be loaded: its batch is stored, and the seal is
not sealed and has all its 4 KiB. -/
def Loadable (fs : BatchFlowStore) : Prop :=
  ∀ x v, (x, v) ∈ fs.sealManager.toSealSet → ∃ b, fs.dataDb.getEntryBatch (x / sealsPerLoad) = some b ∧
    b.isSealSealed (x % sealsPerLoad) = false ∧
    ∃ data, b.data.get (x % sealsPerLoad * bytesPerSeal) bytesPerSeal = .ok (some data)

/-- A queued seal whose data is not all there breaks the invariant. -/
theorem not_loadable_of_lost {fs : BatchFlowStore} {x v : Nat} {b : EntryBatch}
    (hmem : (x, v) ∈ fs.sealManager.toSealSet) (hb : fs.dataDb.getEntryBatch (x / sealsPerLoad) = some b)
    (hlost : b.getNonSealedData (x % sealsPerLoad) = .ok none) : ¬fs.Loadable := by
  intro hload
  obtain ⟨b', hb', hns, data, hdata⟩ := hload x v hmem
  rw [hb, Option.some_inj] at hb'
  subst hb'
  simp only [EntryBatch.isSealSealed] at hns
  simp [EntryBatch.getNonSealedData, hns, hdata] at hlost

section Cut

variable [Keccak]

/-- A cut inside a sealed seal of a complete batch queues the seal again at
the new version, while the batch keeps only its part before the cut: the
queue is no longer loadable. -/
theorem truncate_cut_inside_seal {fs : BatchFlowStore} {t : Nat} {b : EntryBatch} {d : List UInt8}
    (hb : fs.dataDb.getEntryBatch (t / poraChunkSize) = some b) (hd : b.data = .complete d)
    (hlen : d.length = bytesPerLoad) (hcut : t % sectorsPerSeal ≠ 0)
    (hsealed : b.seal.isSealed (t % poraChunkSize / sectorsPerSeal) = true)
    (hfirst : b.seal.truncatedSealIndex (t % poraChunkSize / sectorsPerSeal) ≤ t % poraChunkSize / sectorsPerSeal)
    (hctx : ∀ j, b.seal.truncatedSealIndex (t % poraChunkSize / sectorsPerSeal) ≤ j →
      j ≤ (t % poraChunkSize - 1) / sectorsPerSeal → b.seal.isSealed j = true →
        (b.seal.getSealContextDigest j).isSome)
    (htrunc : b.seal.truncatedSealIndex (t % poraChunkSize / sectorsPerSeal) < sealsPerLoad) :
    ∃ fs', fs.truncate t = .ok fs' ∧
      (t / sectorsPerSeal, fs'.sealManager.toSealVersion) ∈ fs'.sealManager.toSealSet ∧ ¬fs'.Loadable := by
  have hts : 0 < t % poraChunkSize ∧ t % poraChunkSize < sectorsPerLoad := by
    unfold sectorsPerSeal at hcut
    unfold poraChunkSize sectorsPerLoad
    omega
  obtain ⟨b', htr, hp, hbits⟩ := EntryBatch.truncate_complete hd hlen hts.1 hts.2 hctx htrunc
  obtain ⟨db', hdb, hb'⟩ := FlowDBStore.truncate_cut (by unfold poraChunkSize at hts ⊢; omega) hb htr
    hp.isEmpty
  -- the cut seal is the last one the loop reaches, and it is reported
  have hlast : (t % poraChunkSize - 1) / sectorsPerSeal = t % poraChunkSize / sectorsPerSeal := by
    unfold sectorsPerSeal at hcut
    unfold sectorsPerSeal poraChunkSize
    omega
  have hr : t % poraChunkSize / sectorsPerSeal ∈ (List.range' (b.seal.truncatedSealIndex
      (t % poraChunkSize / sectorsPerSeal)) ((t % poraChunkSize - 1) / sectorsPerSeal + 1 -
        b.seal.truncatedSealIndex (t % poraChunkSize / sectorsPerSeal))).filter b.seal.isSealed := by
    rw [List.mem_filter, List.mem_range'_1, hlast]
    exact ⟨⟨hfirst, by omega⟩, hsealed⟩
  have hglobal : t / poraChunkSize * sealsPerLoad + t % poraChunkSize / sectorsPerSeal = t / sectorsPerSeal := by
    unfold poraChunkSize sealsPerLoad sectorsPerSeal
    omega
  have hidx : t / sectorsPerSeal / sealsPerLoad = t / poraChunkSize := by
    unfold sectorsPerSeal sealsPerLoad poraChunkSize
    omega
  have hloc : t / sectorsPerSeal % sealsPerLoad = t % poraChunkSize / sectorsPerSeal := by
    unfold sectorsPerSeal sealsPerLoad poraChunkSize
    omega
  have hns : b'.seal.isSealed (t % poraChunkSize / sectorsPerSeal) = false := by
    simp [hbits, Nat.not_lt.mpr hfirst]
  refine ⟨_, truncate_eq hdb, ?_⟩
  refine (fun hmem => ⟨hmem, not_loadable_of_lost hmem (by rw [hidx]; exact hb') ?_⟩) ?_
  · apply SortedMap.mem_of_get?
    rw [SortedMap.get?_foldl_insert, if_pos (List.mem_map.mpr ⟨_, hr, hglobal⟩)]
  · rw [hloc]
    exact EntryBatch.getNonSealedData_cut hp
      (by unfold sectorsPerSeal at hcut ⊢; unfold poraChunkSize; omega) hts.2 hns

end Cut

/-- A batch of zeros with seal `0` sealed in an epoch that ends at seal `1`. -/
def sealedZeros : EntryBatch :=
  ⟨(⟨fun _ => false, 0, H256.zero, [⟨H256.zero, 1⟩]⟩ : SealInfo).markSealed 0,
    .complete (List.replicate bytesPerLoad 0)⟩

/-- A cut at sector `8` of the batch of zeros. -/
theorem truncate_cut_inside_seal_zeros :
    ∃ fs', (⟨⟨[(0, sealedZeros)]⟩, ⟨[], 0⟩, ⟨1, 0⟩⟩ : BatchFlowStore).truncate 8 = .ok fs' ∧
      (8 / sectorsPerSeal, fs'.sealManager.toSealVersion) ∈ fs'.sealManager.toSealSet ∧ ¬fs'.Loadable :=
  truncate_cut_inside_seal (d := List.replicate bytesPerLoad 0) rfl rfl List.length_replicate (by decide) rfl
    (by decide) (fun j _ h₂ _ => by
      have hj : j = 0 := by simpa [poraChunkSize, sectorsPerSeal] using h₂
      subst hj
      rfl) (by decide)

end BatchFlowStore

end ZgStorage
