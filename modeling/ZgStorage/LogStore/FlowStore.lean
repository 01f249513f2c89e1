import ZgStorage.LogStore.SealQueue
import ZgStorage.AppendMerkle.Append
import ZgStorage.Framework.Windows

/-!
# The flow store

The flow store keeps the entries of the segments its shard stores, batch by
batch, a batch being a segment of `PORA_CHUNK_SIZE` entries. This model sees
a batch through its entries: the partial batches that `EntryBatchData`
keeps are its runs of entries there, since `insert_data` merges a new one
with those it touches, and a complete batch is one with all its entries.
The seals of a batch and its subtrees are left out (`BatchFlowStore` keeps
the seals).

`insert_data` writes data only where the batch holds none of it: data that
the batch shows already is taken as it is, and data that meets an entry
there is refused, with the partial batch it meets. `append_entries` inserts
the data of each batch of the shard, and returns the root of every batch it
wrote that is then full; a batch that refuses its data fails the call, and
nothing is written.

* `appendEntries_ok`: a call that succeeds only adds the data's sectors
  where the store held none (`WritesOver`), leaves every batch of the shard
  showing its part, and returns the roots of the full batches (`batchRoot`,
  the root `build_root` computes);
* `appendEntries_of_absent`: data over entries that hold nothing is
  written, and nothing else;
* `appendEntries_adds_sectors`, `appendEntries_idempotent`: what a call
  that succeeds keeps, and that it succeeds again on its own result with
  the same roots;
* `appendEntries_refuses_conflict`: data that meets an entry with other
  data fails the call with a bail.
-/

namespace ZgStorage

/-- The flow store: the shard this node stores, and the entries it holds.
A batch is a segment (`batch_size = PORA_CHUNK_SIZE`). -/
structure FlowStore where
  shardConfig : ShardConfig
  entries : Nat → Option (List UInt8)

namespace FlowStore

/-! ### A batch seen through its entries -/

/-- `EntryBatch::get_unsealed_data` of sectors `[offset, offset + len)` of
batch `k`, entry by entry: `none` unless all of them are there. -/
def getUnsealedData (fs : FlowStore) (k offset len : Nat) : Option (List (List UInt8)) :=
  (List.range len).mapM fun j => fs.entries (k * poraChunkSize + offset + j)

/-- Batch `k` holds all its entries: its data is `EntryBatchData::Complete`. -/
def isComplete (fs : FlowStore) (k : Nat) : Bool :=
  (List.range poraChunkSize).all fun j => (fs.entries (k * poraChunkSize + j)).isSome

/-- Going down from entry `i`, to entry `lo` at the lowest: the first entry
of the run of entries there that ends at `i`. -/
def runStart (fs : FlowStore) (lo : Nat) : Nat → Nat
  | 0 => 0
  | i + 1 => if lo ≤ i ∧ (fs.entries i).isSome then fs.runStart lo i else i + 1

/-- Going up from entry `i`, for `fuel` entries at most: the first entry
that is not there. -/
def runEnd (fs : FlowStore) : Nat → Nat → Nat
  | 0, i => i
  | fuel + 1, i => if (fs.entries i).isSome then fs.runEnd fuel (i + 1) else i

/-- The partial batch of batch `k` that holds its entry `i`: its start
sector in the batch, and its length in bytes, a sector an entry. -/
def partialBatchAt (fs : FlowStore) (k i : Nat) : Nat × Nat :=
  let start := fs.runStart (k * poraChunkSize) i
  let stop := fs.runEnd (k * poraChunkSize + poraChunkSize - i) i
  (start - k * poraChunkSize, (stop - start) * bytesPerSector)

/-- The data written over the sectors of batch `k` from `offset` on, a
sector an entry. -/
def writeData (fs : FlowStore) (k offset : Nat) (data : List UInt8) : FlowStore :=
  { fs with entries := fun i =>
      if k * poraChunkSize + offset ≤ i ∧ i < k * poraChunkSize + offset + data.length / bytesPerSector then
        some (Windows.window bytesPerSector data (i - (k * poraChunkSize + offset)))
      else fs.entries i }

/-- `EntryBatch::insert_data` of `data` at sector `offset` of batch `k`, and
the `EntryBatchData::insert_data` it calls: data that the batch shows
already is not inserted again; a complete batch, and data that meets an
entry there, are refused. -/
def insertData (fs : FlowStore) (k offset : Nat) (data : List UInt8) : Except Error FlowStore := do
  if data.isEmpty then return fs
  if (fs.getUnsealedData k offset (data.length / bytesPerSector)).map List.flatten = some data then return fs
  -- the start byte `offset * BYTES_PER_SECTOR` is whole sectors
  if data.length % bytesPerSector ≠ 0 then throw (.panic "assertion `left == right` failed")
  if fs.isComplete k then
    throw (.bail ("overwriting a completed PoRA Chunk with conflict data, start_byte=" ++
      toString (offset * bytesPerSector)))
  let base := k * poraChunkSize
  let endSector := offset + data.length / bytesPerSector
  if (fs.entries (base + offset)).isSome then
    let (s, len) := fs.partialBatchAt k (base + offset)
    throw (.bail ("start position overlapped with existing batch: start " ++ toString s ++ ", len " ++
      toString len))
  if (fs.entries (base + endSector - 1)).isSome then
    let (s, len) := fs.partialBatchAt k (base + endSector - 1)
    throw (.bail ("end position overlapped with existing batch: start " ++ toString s ++ ", len " ++
      toString len))
  -- the two ends fall between the same partial batches unless one lies between them
  if (List.range' (offset + 1) (endSector - offset - 2)).any fun j => (fs.entries (base + j)).isSome then
    throw (.bail "data overlapped with existing batches")
  return fs.writeData k offset data

section Sha3

variable [Keccak]

/-- `EntryBatch::build_root` of batch `k`, through `to_merkle_tree`: the
root of the tree over the leaves of the batch's entries, batch `0` starting
with the zero leaf in place of its first entry, or `none` when an entry is
not there. A batch has no subtrees in this model, so it is full only with
all its entries. -/
def buildRoot (fs : FlowStore) (k : Nat) : Except Error (Option H256) := do
  let initialLeaves := if k = 0 then [OptionalHash.some H256.zero] else []
  let merkle ← AppendMerkleTree.new Sha3Algorithm.optional initialLeaves 0 none
  -- the tree has fewer leaves than a batch: the rest are read
  let leaves ← merkle.leaves
  let some leafData := fs.getUnsealedData k leaves (sectorsPerLoad - leaves) | return none
  let merkle ← merkle.appendList Sha3Algorithm.optional (leafData.map Sha3Algorithm.optional.leaf)
  return (← merkle.root).val

/-- One batch of the loop of `append_entries`: a batch outside the shard is
skipped, a batch of the shard takes its part of the data. Each batch of
`batch_iter` is another segment, so reading it from the store as written so
far reads it as stored. -/
def appendBatch (shardConfig : ShardConfig) (data : ChunkArray) (st : FlowStore × List Nat)
    (b : Nat × Nat) : Except Error (FlowStore × List Nat) := do
  let some chunk := data.subArray b.1 b.2 | throw (.panic "in range")
  let chunkIndex := chunk.startIndex / poraChunkSize
  -- The data are in a shard range that we are not storing.
  if !shardConfig.inRange chunkIndex then return st
  let fs ← st.1.insertData chunkIndex (chunk.startIndex % poraChunkSize) chunk.data
  return (fs, st.2 ++ [chunkIndex])

/-- `FlowDBStore::put_entry_batch_list`: the root of each batch of the list
that is full. -/
def putEntryBatchList (fs : FlowStore) (batchList : List Nat) : Except Error (List (Nat × H256)) :=
  batchList.foldlM (fun roots k => do
    match ← fs.buildRoot k with
    | some root => return roots ++ [(k, root)]
    | none => return roots) []

/-- `FlowStore::append_entries`: the store after the call, and the roots of
the batches it wrote that are full. -/
def appendEntries (fs : FlowStore) (data : ChunkArray) : Except Error (FlowStore × List (Nat × H256)) := do
  if data.data.length % bytesPerSector ≠ 0 then
    throw (.bail ("append_entries: invalid data size, len=" ++ toString data.data.length))
  let (fs', batchList) ← (batchIter data.startIndex (data.startIndex + bytesToEntries data.data.length)
    poraChunkSize).foldlM (appendBatch fs.shardConfig data) (fs, [])
  return (fs', ← fs'.putEntryBatchList batchList)

end Sha3

/-- `FlowStore::get_entries`: the entries of `[index_start, index_end)`, if
all are there. The first entry of the flow is never read back: a range
starting at it starts at entry `1`. -/
def getEntries (fs : FlowStore) (indexStart indexEnd : Nat) :
    Except Error (Option (List (List UInt8))) := do
  if indexEnd ≤ indexStart then throw (.bail "invalid entry index")
  return (batchIter indexStart indexEnd poraChunkSize).foldlM (fun data b =>
    let chunkIndex := b.1 / poraChunkSize
    let offset := b.1 - chunkIndex * poraChunkSize
    let length := b.2 - b.1
    -- Tempfix: for first chunk, its offset is always 1
    let (offset, length) := if chunkIndex = 0 ∧ offset = 0 then (1, length - 1) else (offset, length)
    ((List.range length).mapM fun i => fs.entries (chunkIndex * poraChunkSize + offset + i)).map
      (data ++ ·)) []

/-- `LogManager::get_chunk_by_flow_index`. -/
def getChunkByFlowIndex (fs : FlowStore) (index length : Nat) :
    Except Error (Option (List (List UInt8))) :=
  fs.getEntries index (index + length)

/-- The runs of entries held from `index` on, over `n` entries: each run a
start index and its entries, the runs as long as they go. -/
def availableRuns (fs : FlowStore) : Nat → Nat → List (Nat × List (List UInt8))
  | _, 0 => []
  | index, n + 1 =>
    match fs.entries index, availableRuns fs (index + 1) n with
    | some e, (start, run) :: rest =>
      if start = index + 1 then (index, e :: run) :: rest else (index, [e]) :: (start, run) :: rest
    | some e, [] => [(index, [e])]
    | none, runs => runs

/-- `FlowStore::get_available_entries`: the runs of entries held in a range
of whole batches. -/
def getAvailableEntries (fs : FlowStore) (indexStart indexEnd : Nat) :
    Except Error (List (Nat × List (List UInt8))) := do
  if indexEnd ≤ indexStart ∨ indexStart % poraChunkSize ≠ 0 ∨ indexEnd % poraChunkSize ≠ 0 then
    throw (.bail "invalid entry index")
  return fs.availableRuns indexStart (indexEnd - indexStart)

/-- `FlowStore::truncate`: drop the entries from `start_index` on. -/
def truncate (fs : FlowStore) (startIndex : Nat) : FlowStore :=
  { fs with entries := fun i => if startIndex ≤ i then none else fs.entries i }

/-! ### `insert_data` -/

/-- A batch whose range misses an entry does not show it. -/
theorem getUnsealedData_eq_none {fs : FlowStore} {k offset len j : Nat} (hj : j < len)
    (h : fs.entries (k * poraChunkSize + offset + j) = none) : fs.getUnsealedData k offset len = none :=
  Option.mapM_eq_none_of_mem (List.mem_range.mpr hj) h

/-- A read that succeeds holds the entries of the range, all there. -/
theorem getUnsealedData_eq_some {fs : FlowStore} {k offset len : Nat} {es : List (List UInt8)}
    (h : fs.getUnsealedData k offset len = some es) :
    es = (List.range len).map (fun j => (fs.entries (k * poraChunkSize + offset + j)).getD []) ∧
      ∀ j < len, (fs.entries (k * poraChunkSize + offset + j)).isSome := by
  have hsome : ∀ j < len, (fs.entries (k * poraChunkSize + offset + j)).isSome :=
    fun j hj => Option.isSome_of_mapM_eq_some h j (List.mem_range.mpr hj)
  refine ⟨Option.some.inj (h.symm.trans (Option.mapM_eq_some fun j hj => ?_)), hsome⟩
  obtain ⟨e, he⟩ := Option.isSome_iff_exists.mp (hsome j (List.mem_range.mp hj))
  rw [he]
  rfl

@[simp] theorem shardConfig_writeData (fs : FlowStore) (k offset : Nat) (data : List UInt8) :
    (fs.writeData k offset data).shardConfig = fs.shardConfig := rfl

theorem entries_writeData (fs : FlowStore) (k offset : Nat) (data : List UInt8) (i : Nat) :
    (fs.writeData k offset data).entries i =
      if k * poraChunkSize + offset ≤ i ∧ i < k * poraChunkSize + offset + data.length / bytesPerSector then
        some (Windows.window bytesPerSector data (i - (k * poraChunkSize + offset)))
      else fs.entries i := rfl

/-- A read of entries that are all there reads the same from a store that
keeps them. -/
theorem getUnsealedData_of_keeps {fs fs' : FlowStore} (h : ∀ i e, fs.entries i = some e → fs'.entries i = some e)
    {k offset len : Nat} {es : List (List UInt8)} (hes : fs.getUnsealedData k offset len = some es) :
    fs'.getUnsealedData k offset len = some es :=
  Option.mapM_of_keeps (fun _ _ he => h _ _ he) hes

/-- Written sectors read back as the data's sectors. -/
theorem getUnsealedData_writeData (fs : FlowStore) (k offset : Nat) (data : List UInt8) :
    (fs.writeData k offset data).getUnsealedData k offset (data.length / bytesPerSector) =
      some ((List.range (data.length / bytesPerSector)).map (Windows.window bytesPerSector data)) :=
  Option.mapM_eq_some fun j hj => by
    rw [List.mem_range] at hj
    rw [entries_writeData, if_pos ⟨by omega, by omega⟩, Nat.add_sub_cancel_left]

/-- Data that the batch shows already is taken as it is. -/
theorem insertData_of_shows {fs : FlowStore} {k offset : Nat} {data : List UInt8}
    (h : (fs.getUnsealedData k offset (data.length / bytesPerSector)).map List.flatten = some data) :
    fs.insertData k offset data = .ok fs := by
  unfold insertData
  by_cases he : data.isEmpty = true
  · simp [he]
  · simp [he, h]

/-- Whole sectors of data over sectors of the batch that hold no entry are
written. -/
theorem insertData_of_absent {fs : FlowStore} {k offset : Nat} {data : List UInt8} (hne : data ≠ [])
    (hmod : data.length % bytesPerSector = 0) (hfit : offset + data.length / bytesPerSector ≤ poraChunkSize)
    (habs : ∀ j < data.length / bytesPerSector, fs.entries (k * poraChunkSize + offset + j) = none) :
    fs.insertData k offset data = .ok (fs.writeData k offset data) := by
  have hn : 0 < data.length / bytesPerSector := by
    have := List.length_pos_of_ne_nil hne
    unfold bytesPerSector at hmod ⊢
    omega
  have h0 := habs 0 hn
  have hlast := habs (data.length / bytesPerSector - 1) (by omega)
  rw [Nat.add_zero] at h0
  -- the batch does not show the data, and it is not complete
  have hshow : fs.getUnsealedData k offset (data.length / bytesPerSector) = none :=
    getUnsealedData_eq_none hn (by rw [Nat.add_zero]; exact h0)
  have hcomplete : fs.isComplete k = false := by
    rw [isComplete, List.all_eq_false]
    exact ⟨offset, List.mem_range.mpr (by omega), by simp [h0]⟩
  have hend : fs.entries (k * poraChunkSize + (offset + data.length / bytesPerSector) - 1) = none := by
    rw [show k * poraChunkSize + (offset + data.length / bytesPerSector) - 1 =
      k * poraChunkSize + offset + (data.length / bytesPerSector - 1) by omega]
    exact hlast
  simp [insertData, List.isEmpty_iff.not.mpr hne, hshow, hmod, hcomplete, h0, hend]
  -- no entry between the two ends either
  intro j hj1 hj2
  have := habs (j - offset) (by omega)
  rwa [show k * poraChunkSize + offset + (j - offset) = k * poraChunkSize + j by omega] at this

/-- What `insert_data` does when it succeeds: nothing, for data that is
empty or that the batch shows already; or it writes whole sectors of data
over sectors that held no entry. -/
theorem insertData_ok {fs fs' : FlowStore} {k offset : Nat} {data : List UInt8}
    (h : fs.insertData k offset data = .ok fs') :
    (fs' = fs ∧ (data = [] ∨
        (fs.getUnsealedData k offset (data.length / bytesPerSector)).map List.flatten = some data)) ∨
      (fs' = fs.writeData k offset data ∧ data.length % bytesPerSector = 0 ∧
        ∀ j < data.length / bytesPerSector, fs.entries (k * poraChunkSize + offset + j) = none) := by
  unfold insertData at h
  by_cases he : data.isEmpty = true
  · simp only [he, if_true] at h
    exact .inl ⟨(Except.ok.inj h).symm, .inl (List.isEmpty_iff.mp he)⟩
  by_cases hs : (fs.getUnsealedData k offset (data.length / bytesPerSector)).map List.flatten = some data
  · simp only [he, hs, if_true, Bool.false_eq_true, if_false] at h
    exact .inl ⟨(Except.ok.inj h).symm, .inr hs⟩
  simp only [he, hs, Bool.false_eq_true, if_false] at h
  -- each of the five checks either fails the call or passes
  split at h
  · cases h
  split at h
  · cases h
  split at h
  · cases h
  split at h
  · cases h
  split at h
  · cases h
  rename_i hmod _ hstart hend hmid
  refine .inr ⟨(Except.ok.inj h).symm, not_not.mp hmod, fun j hj => ?_⟩
  simp at hstart hend hmid
  -- the first sector, the last, or one between them
  rcases Nat.eq_zero_or_pos j with rfl | hj0
  · rwa [Nat.add_zero]
  by_cases hjl : j = data.length / bytesPerSector - 1
  · rwa [hjl, show k * poraChunkSize + offset + (data.length / bytesPerSector - 1) =
      k * poraChunkSize + (offset + data.length / bytesPerSector) - 1 by omega]
  · rw [Nat.add_assoc]
    exact hmid (offset + j) (by omega) (by omega)

/-- Whole sectors of data that the batch does not show, over sectors one of
which holds an entry, are refused. -/
theorem insertData_refuses {fs : FlowStore} {k offset : Nat} {data : List UInt8}
    (hmod : data.length % bytesPerSector = 0)
    (hs : (fs.getUnsealedData k offset (data.length / bytesPerSector)).map List.flatten ≠ some data)
    {j : Nat} (hj : j < data.length / bytesPerSector)
    (hthere : (fs.entries (k * poraChunkSize + offset + j)).isSome) :
    ∃ msg, fs.insertData k offset data = .error (.bail msg) := by
  have he : data.isEmpty = false := by
    rw [List.isEmpty_eq_false_iff]
    rintro rfl
    simp at hj
  unfold insertData
  simp only [he, hs, hmod, Bool.false_eq_true, if_false, ne_eq, not_true_eq_false]
  -- a complete batch, and data over either end of a partial batch, are refused at once
  split
  · exact ⟨_, rfl⟩
  split
  · exact ⟨_, rfl⟩
  split
  · exact ⟨_, rfl⟩
  rename_i hstart hend
  rw [if_pos]
  · exact ⟨_, rfl⟩
  -- otherwise the entry lies strictly between the two ends
  rw [List.any_eq_true]
  refine ⟨offset + j, List.mem_range'_1.mpr ⟨?_, ?_⟩, by rwa [← Nat.add_assoc]⟩
  · rcases Nat.eq_zero_or_pos j with rfl | hj0
    · rw [Nat.add_zero] at hthere
      exact absurd hthere hstart
    · omega
  · by_cases hjl : j = data.length / bytesPerSector - 1
    · rw [hjl, show k * poraChunkSize + offset + (data.length / bytesPerSector - 1) =
        k * poraChunkSize + (offset + data.length / bytesPerSector) - 1 by omega] at hthere
      exact absurd hthere hend
    · omega

section Append

variable {data : ChunkArray} {b : Nat × Nat}

/-- Whole sectors of data take `bytes_to_entries` of their length in entries. -/
theorem bytesToEntries_of_mod (hmod : data.data.length % bytesPerSector = 0) :
    bytesToEntries data.data.length = data.data.length / bytesPerSector := by
  unfold bytesToEntries
  rw [if_pos (show data.data.length % entrySize = 0 from hmod)]
  rfl

/-- The part that `sub_array` cuts from whole sectors of data for a batch of
its range: it starts at the batch, and holds the data's entries of the
batch. -/
theorem subArray_of_mem_batchIter (hmod : data.data.length % bytesPerSector = 0) (hpos : 0 < data.data.length)
    (hb : b ∈ batchIter data.startIndex (data.startIndex + bytesToEntries data.data.length) poraChunkSize) :
    ∃ chunk, data.subArray b.1 b.2 = some chunk ∧ chunk.startIndex = b.1 ∧
      chunk.data.length = (b.2 - b.1) * bytesPerSector ∧
      ∀ j < b.2 - b.1, Windows.window bytesPerSector chunk.data j =
        Windows.window bytesPerSector data.data (b.1 - data.startIndex + j) := by
  rw [bytesToEntries_of_mod hmod] at hb
  have hlen : data.startIndex < data.startIndex + data.data.length / bytesPerSector := by
    unfold bytesPerSector at hmod ⊢
    omega
  obtain ⟨h1, h12, h2, -⟩ := bounds_of_mem_batchIter hb hlen
  refine ⟨⟨(data.data.take ((b.2 - data.startIndex) * chunkSize)).drop ((b.1 - data.startIndex) * chunkSize), b.1⟩,
    ?_, rfl, ?_, fun j hj => Windows.window_drop_take bytesPerSector data.data (by omega)⟩
  · rw [ChunkArray.subArray, if_neg]
    unfold chunkSize
    unfold bytesPerSector at h2
    omega
  · rw [List.length_drop, List.length_take]
    unfold chunkSize
    unfold bytesPerSector at h2 ⊢
    omega

/-- What a call that writes the data does to the store: it keeps its shard,
and leaves each entry as it is or writes one that was not there, in the
data's range and in the shard, with its entry of the data. -/
def WritesOver (data : ChunkArray) (fs fs' : FlowStore) : Prop :=
  fs'.shardConfig = fs.shardConfig ∧ ∀ i, fs'.entries i = fs.entries i ∨
    (fs.entries i = none ∧ data.startIndex ≤ i ∧ i < data.startIndex + data.data.length / bytesPerSector ∧
      fs.shardConfig.inRange (i / poraChunkSize) = true ∧
      fs'.entries i = some (Windows.window bytesPerSector data.data (i - data.startIndex)))

theorem WritesOver.refl (fs : FlowStore) : WritesOver data fs fs := ⟨rfl, fun _ => .inl rfl⟩

theorem WritesOver.trans {fs₁ fs₂ fs₃ : FlowStore} (h₁ : WritesOver data fs₁ fs₂) (h₂ : WritesOver data fs₂ fs₃) :
    WritesOver data fs₁ fs₃ := by
  refine ⟨h₂.1.trans h₁.1, fun i => ?_⟩
  rcases h₁.2 i with h | ⟨hn, hs, he, hr, hw⟩
  · rcases h₂.2 i with h' | ⟨hn', hs', he', hr', hw'⟩
    · exact .inl (h'.trans h)
    · exact .inr ⟨h ▸ hn', hs', he', h₁.1 ▸ hr', hw'⟩
  · rcases h₂.2 i with h' | ⟨hn', -⟩
    · exact .inr ⟨hn, hs, he, hr, h'.trans hw⟩
    · -- an entry written once is there
      rw [hw] at hn'
      cases hn'

/-- An entry that was there stays. -/
theorem WritesOver.keeps {fs fs' : FlowStore} (h : WritesOver data fs fs') :
    ∀ i e, fs.entries i = some e → fs'.entries i = some e := by
  intro i e he
  rcases h.2 i with h' | ⟨hn, -⟩
  · rw [h', he]
  · rw [hn] at he
    cases he

/-- Batch `b` shows its part of the data. -/
def Shows (data : ChunkArray) (fs : FlowStore) (b : Nat × Nat) : Prop :=
  ∀ chunk, data.subArray b.1 b.2 = some chunk →
    (fs.getUnsealedData (b.1 / poraChunkSize) (b.1 % poraChunkSize) (chunk.data.length / bytesPerSector)).map
      List.flatten = some chunk.data

theorem Shows.of_writesOver {fs fs' : FlowStore} (hs : Shows data fs b) (h : WritesOver data fs fs') :
    Shows data fs' b := by
  intro chunk hc
  obtain ⟨es, hes, hflat⟩ := Option.map_eq_some_iff.mp (hs chunk hc)
  rw [getUnsealedData_of_keeps h.keeps hes, Option.map_some, hflat]

/-- What `sub_array` cuts: the data's entries of the range, from its start,
when the range is a nonempty part of the data's. -/
theorem subArray_some {a c : Nat} {chunk : ChunkArray} (h : data.subArray a c = some chunk) :
    chunk = ⟨(data.data.take ((c - data.startIndex) * chunkSize)).drop ((a - data.startIndex) * chunkSize), a⟩ ∧
      data.startIndex ≤ a ∧ a < c ∧ c ≤ data.startIndex + data.data.length / chunkSize := by
  unfold ChunkArray.subArray at h
  split at h
  · cases h
  · rename_i hc
    cases h
    exact ⟨rfl, by omega, by omega, by omega⟩

/-- One batch of the loop of `append_entries`: it adds the batch to the list
when the shard stores it, writes only entries of the batch that were not
there, and leaves the batch showing its part of the data. -/
theorem appendBatch_ok {c : ShardConfig}
    (hb : b ∈ batchIter data.startIndex (data.startIndex + bytesToEntries data.data.length) poraChunkSize)
    {st st' : FlowStore × List Nat} (hc : st.1.shardConfig = c) (h : appendBatch c data st b = .ok st') :
    st'.2 = st.2 ++ (if c.inRange (b.1 / poraChunkSize) then [b.1 / poraChunkSize] else []) ∧
      WritesOver data st.1 st'.1 ∧ (c.inRange (b.1 / poraChunkSize) = true → Shows data st'.1 b) ∧
      ∀ i, ¬(b.1 ≤ i ∧ i < b.2) → st'.1.entries i = st.1.entries i := by
  cases hsub : data.subArray b.1 b.2 with
  | none => simp [appendBatch, hsub] at h
  | some chunk =>
  obtain ⟨hchunk, h1, h12, h2⟩ := subArray_some hsub
  -- the batch is a part of the data's range, inside one segment
  have hents : data.data.length / chunkSize ≤ bytesToEntries data.data.length := by
    unfold bytesToEntries chunkSize entrySize
    split <;> omega
  have hseg := (bounds_of_mem_batchIter hb (by omega)).2.2.2
  have hlen : chunk.data.length = (b.2 - b.1) * bytesPerSector := by
    rw [hchunk, List.length_drop, List.length_take]
    unfold chunkSize at h2 ⊢
    unfold bytesPerSector
    omega
  have hn : chunk.data.length / bytesPerSector = b.2 - b.1 := by
    rw [hlen]
    exact Nat.mul_div_cancel _ (by decide)
  have hwin : ∀ j < b.2 - b.1, Windows.window bytesPerSector chunk.data j =
      Windows.window bytesPerSector data.data (b.1 - data.startIndex + j) := fun j hj => by
    rw [hchunk]
    exact Windows.window_drop_take bytesPerSector data.data (by omega)
  have hbase : b.1 / poraChunkSize * poraChunkSize + b.1 % poraChunkSize = b.1 := Nat.div_add_mod' _ _
  have hst : chunk.startIndex = b.1 := by rw [hchunk]
  simp only [appendBatch, hsub, hst] at h
  by_cases hin : c.inRange (b.1 / poraChunkSize) = true
  · simp only [hin, Bool.not_true, Bool.false_eq_true, if_false, Except.bind_eq_ok, Except.pure_eq_ok,
      Except.ok.injEq] at h
    obtain ⟨fs', hins, rfl⟩ := h
    rcases insertData_ok hins with ⟨rfl, hshow⟩ | ⟨rfl, -, habs⟩
    · -- nothing written: the batch shows its part already
      have hne : chunk.data ≠ [] := by
        rw [← List.length_pos_iff, hlen]
        exact Nat.mul_pos (by omega) (by decide)
      refine ⟨by simp [hin], WritesOver.refl _, fun _ chunk' hc' => ?_, fun _ _ => rfl⟩
      rw [hsub] at hc'
      cases hc'
      exact hshow.resolve_left hne
    · -- the part is written over sectors that held no entry
      refine ⟨by simp [hin], ⟨rfl, fun i => ?_⟩, fun _ chunk' hc' => ?_, fun i hi => ?_⟩
      · rw [entries_writeData, hbase, hn]
        by_cases hi : b.1 ≤ i ∧ i < b.1 + (b.2 - b.1)
        · have hseg' : i / poraChunkSize = b.1 / poraChunkSize := by
            unfold poraChunkSize at *
            omega
          refine .inr ⟨?_, by omega, ?_, by rw [hc, hseg']; exact hin, ?_⟩
          · have := habs (i - b.1) (by omega)
            rwa [hbase, Nat.add_sub_cancel' hi.1] at this
          · exact Nat.lt_of_lt_of_le hi.2 (by unfold chunkSize at h2; unfold bytesPerSector; omega)
          · rw [if_pos hi, hwin (i - b.1) (by omega), show b.1 - data.startIndex + (i - b.1) =
              i - data.startIndex by omega]
        · exact .inl (if_neg hi)
      · rw [hsub] at hc'
        cases hc'
        rw [getUnsealedData_writeData, Option.map_some, Windows.flatten_map_window, List.take_of_length_le]
        unfold bytesPerSector at hlen ⊢
        omega
      · rw [entries_writeData, hbase, hn, if_neg (by omega)]
  · simp only [Bool.not_eq_true] at hin
    simp only [hin, Bool.not_false, if_true, Except.pure_eq_ok, Except.ok.injEq] at h
    subst h
    exact ⟨by simp [hin], WritesOver.refl _, fun h => absurd h (by simp [hin]), fun _ _ => rfl⟩

/-- The batches of `batch_iter` follow one another. -/
theorem batchIter_pairwise (start endIndex : Nat) :
    (batchIter start endIndex poraChunkSize).Pairwise fun b b' => b.2 ≤ b'.1 := by
  unfold batchIter
  rw [List.pairwise_map]
  refine List.pairwise_lt_range.imp fun {k k'} hk => ?_
  simp only [poraChunkSize]
  omega

/-- Every entry the store holds is one sector. -/
def WellFormed (fs : FlowStore) : Prop :=
  ∀ i e, fs.entries i = some e → e.length = bytesPerSector

/-- Whole sectors of data write whole sectors. -/
theorem WritesOver.wellFormed {fs fs' : FlowStore} (h : WritesOver data fs fs')
    (hmod : data.data.length % bytesPerSector = 0) (hwf : fs.WellFormed) : fs'.WellFormed := by
  intro i e he
  rcases h.2 i with h' | ⟨-, hs, he', -, hw⟩
  · exact hwf i e (h'.symm.trans he)
  · rw [hw] at he
    cases he
    exact Windows.length_window (Nat.div_mul_cancel (Nat.dvd_of_mod_eq_zero hmod)).symm (by omega)

/-- A batch that shows its part of the data holds, in a store of whole
sectors, the data's sector at each of its entries. -/
theorem Shows.entries {fs : FlowStore} (hwf : fs.WellFormed) (hs : Shows data fs b) {chunk : ChunkArray}
    (hsub : data.subArray b.1 b.2 = some chunk) {i : Nat} (hi : b.1 ≤ i ∧ i < b.2) :
    fs.entries i = some (Windows.window bytesPerSector data.data (i - data.startIndex)) := by
  obtain ⟨hchunk, h1, h12, h2⟩ := subArray_some hsub
  have hlen : chunk.data.length / bytesPerSector = b.2 - b.1 := by
    rw [hchunk, List.length_drop, List.length_take]
    unfold chunkSize at h2 ⊢
    unfold bytesPerSector
    omega
  obtain ⟨es, hes, hflat⟩ := Option.map_eq_some_iff.mp (hs chunk hsub)
  obtain ⟨rfl, hsome⟩ := getUnsealedData_eq_some hes
  have hbase : b.1 / poraChunkSize * poraChunkSize + b.1 % poraChunkSize + (i - b.1) = i := by
    rw [Nat.div_add_mod']
    omega
  -- the entries are sectors, so they are the windows of the data they join into
  have hwin := congrArg (·[i - b.1]?) (@Windows.map_window_flatten UInt8 bytesPerSector
    ((List.range (chunk.data.length / bytesPerSector)).map fun j =>
      (fs.entries (b.1 / poraChunkSize * poraChunkSize + b.1 % poraChunkSize + j)).getD [])
    (fun e he => by
      obtain ⟨j, hj, rfl⟩ := List.mem_map.mp he
      obtain ⟨e', he'⟩ := Option.isSome_iff_exists.mp (hsome j (List.mem_range.mp hj))
      rw [he']
      exact hwf _ _ he'))
  simp only [List.length_map, List.length_range, hflat, List.getElem?_map, List.getElem?_range
    (show i - b.1 < chunk.data.length / bytesPerSector by omega), Option.map_some, hbase] at hwin
  obtain ⟨e, he⟩ := Option.isSome_iff_exists.mp (hbase ▸ hsome (i - b.1) (by omega))
  rw [he, Option.getD_some] at hwin
  have hw : Windows.window bytesPerSector chunk.data (i - b.1) =
      Windows.window bytesPerSector data.data (b.1 - data.startIndex + (i - b.1)) := by
    rw [hchunk]
    exact Windows.window_drop_take bytesPerSector data.data (by omega)
  rw [he, ← Option.some.inj hwin, hw, show b.1 - data.startIndex + (i - b.1) = i - data.startIndex by omega]

/-- The loop of `append_entries` over batches of the data: it returns the
batches the shard stores, in order, writes only entries that were not
there, and leaves each of those batches showing its part of the data. -/
theorem foldlM_appendBatch_ok {c : ShardConfig} {bs : List (Nat × Nat)}
    (hbs : ∀ b ∈ bs, b ∈ batchIter data.startIndex (data.startIndex + bytesToEntries data.data.length)
      poraChunkSize)
    {st st' : FlowStore × List Nat} (hc : st.1.shardConfig = c) (h : bs.foldlM (appendBatch c data) st = .ok st') :
    st'.2 = st.2 ++ bs.flatMap (fun b => if c.inRange (b.1 / poraChunkSize) then [b.1 / poraChunkSize] else []) ∧
      WritesOver data st.1 st'.1 ∧ ∀ b ∈ bs, c.inRange (b.1 / poraChunkSize) = true → Shows data st'.1 b := by
  induction bs generalizing st with
  | nil =>
    simp only [List.foldlM_nil, Except.pure_eq_ok, Except.ok.injEq] at h
    subst h
    exact ⟨by simp, WritesOver.refl _, fun _ hb => absurd hb List.not_mem_nil⟩
  | cons b bs ih =>
    rw [List.foldlM_cons, Except.bind_eq_ok] at h
    obtain ⟨st₁, h₁, h⟩ := h
    obtain ⟨hl₁, hw₁, hs₁, -⟩ := appendBatch_ok (hbs b List.mem_cons_self) hc h₁
    obtain ⟨hl₂, hw₂, hs₂⟩ := ih (fun b' hb' => hbs b' (List.mem_cons_of_mem _ hb')) (hw₁.1.trans hc) h
    refine ⟨by rw [hl₂, hl₁, List.flatMap_cons, List.append_assoc], hw₁.trans hw₂, fun b' hb' hin => ?_⟩
    rcases List.mem_cons.mp hb' with rfl | hb'
    · exact (hs₁ hin).of_writesOver hw₂
    · exact hs₂ b' hb' hin

/-- A batch that shows its part of the data holds all its entries. -/
theorem Shows.isSome {fs : FlowStore} (hs : Shows data fs b) {chunk : ChunkArray}
    (hsub : data.subArray b.1 b.2 = some chunk) {i : Nat} (hi : b.1 ≤ i ∧ i < b.2) : (fs.entries i).isSome := by
  obtain ⟨hchunk, h1, h12, h2⟩ := subArray_some hsub
  have hlen : chunk.data.length / bytesPerSector = b.2 - b.1 := by
    rw [hchunk, List.length_drop, List.length_take]
    unfold chunkSize at h2 ⊢
    unfold bytesPerSector
    omega
  obtain ⟨es, hes, -⟩ := Option.map_eq_some_iff.mp (hs chunk hsub)
  have := (getUnsealedData_eq_some hes).2 (i - b.1) (by omega)
  rwa [Nat.div_add_mod', Nat.add_sub_cancel' hi.1] at this

/-- Data of no whole sector writes nothing. -/
theorem WritesOver.eq_of_length {fs fs' : FlowStore} (h : WritesOver data fs fs')
    (hlen : data.data.length / bytesPerSector = 0) : fs' = fs := by
  have hentries : fs'.entries = fs.entries := funext fun i => (h.2 i).resolve_right fun hw => by omega
  cases fs
  cases fs'
  cases h.1
  cases hentries
  rfl

section Whole

variable (hmod : data.data.length % bytesPerSector = 0) (hpos : 0 < data.data.length)
include hmod hpos

/-- A batch that shows its part of the data takes nothing. -/
theorem appendBatch_of_shows {c : ShardConfig}
    (hb : b ∈ batchIter data.startIndex (data.startIndex + bytesToEntries data.data.length) poraChunkSize)
    {fs : FlowStore} (hs : c.inRange (b.1 / poraChunkSize) = true → Shows data fs b) (l : List Nat) :
    appendBatch c data (fs, l) b =
      .ok (fs, l ++ if c.inRange (b.1 / poraChunkSize) then [b.1 / poraChunkSize] else []) := by
  obtain ⟨chunk, hsub, hst, -, -⟩ := subArray_of_mem_batchIter hmod hpos hb
  by_cases hin : c.inRange (b.1 / poraChunkSize) = true
  · have hins := insertData_of_shows (hs hin chunk hsub)
    simp [appendBatch, hsub, hst, hin, hins]
  · simp [appendBatch, hsub, hst, hin]

/-- The loop over batches that all show their part of the data writes
nothing. -/
theorem foldlM_appendBatch_of_shows {c : ShardConfig} {fs : FlowStore} :
    ∀ {bs : List (Nat × Nat)},
      (∀ b ∈ bs, b ∈ batchIter data.startIndex (data.startIndex + bytesToEntries data.data.length)
        poraChunkSize) →
      (∀ b ∈ bs, c.inRange (b.1 / poraChunkSize) = true → Shows data fs b) → ∀ l : List Nat,
      bs.foldlM (appendBatch c data) (fs, l) =
        .ok (fs, l ++ bs.flatMap fun b => if c.inRange (b.1 / poraChunkSize) then [b.1 / poraChunkSize] else [])
  | [], _, _, l => by simp
  | b :: bs, hbs, hs, l => by
    rw [List.foldlM_cons, appendBatch_of_shows hmod hpos (hbs b List.mem_cons_self) (hs b List.mem_cons_self),
      Except.ok_bind, foldlM_appendBatch_of_shows (fun b' hb' => hbs b' (List.mem_cons_of_mem _ hb'))
        (fun b' hb' => hs b' (List.mem_cons_of_mem _ hb')), List.flatMap_cons, List.append_assoc]

/-- A batch whose entries are all absent, or that the shard does not store,
takes its part, and leaves the store outside it as it was. -/
theorem appendBatch_of_absent {c : ShardConfig}
    (hb : b ∈ batchIter data.startIndex (data.startIndex + bytesToEntries data.data.length) poraChunkSize)
    {st : FlowStore × List Nat}
    (habs : c.inRange (b.1 / poraChunkSize) = true → ∀ i, b.1 ≤ i → i < b.2 → st.1.entries i = none) :
    ∃ st', appendBatch c data st b = .ok st' := by
  obtain ⟨chunk, hsub, hst, hlen, -⟩ := subArray_of_mem_batchIter hmod hpos hb
  rw [bytesToEntries_of_mod hmod] at hb
  obtain ⟨-, h12, -, hseg⟩ := bounds_of_mem_batchIter hb (by unfold bytesPerSector at hmod ⊢; omega)
  have hn : chunk.data.length / bytesPerSector = b.2 - b.1 := by
    rw [hlen]
    exact Nat.mul_div_cancel _ (by decide)
  have hbase : b.1 / poraChunkSize * poraChunkSize + b.1 % poraChunkSize = b.1 := Nat.div_add_mod' _ _
  by_cases hin : c.inRange (b.1 / poraChunkSize) = true
  · have hins := @insertData_of_absent st.1 (b.1 / poraChunkSize) (b.1 % poraChunkSize) chunk.data
      (by rw [← List.length_pos_iff, hlen]; exact Nat.mul_pos (by omega) (by decide))
      (by rw [hlen]; exact Nat.mul_mod_left _ _)
      (by rw [hn]; unfold poraChunkSize at *; omega)
      (fun j hj => by rw [hbase]; exact habs hin _ (by omega) (by omega))
    exact ⟨(st.1.writeData (b.1 / poraChunkSize) (b.1 % poraChunkSize) chunk.data, st.2 ++ [b.1 / poraChunkSize]),
      by simp [appendBatch, hsub, hst, hin, hins]⟩
  · exact ⟨st, by simp [appendBatch, hsub, hst, hin]⟩

/-- The loop over batches that follow one another, each of whose entries
in the shard are absent, succeeds. -/
theorem foldlM_appendBatch_of_absent {c : ShardConfig} :
    ∀ {bs : List (Nat × Nat)},
      (∀ b ∈ bs, b ∈ batchIter data.startIndex (data.startIndex + bytesToEntries data.data.length)
        poraChunkSize) → bs.Pairwise (fun b b' => b.2 ≤ b'.1) →
      ∀ {st : FlowStore × List Nat}, st.1.shardConfig = c →
      (∀ b ∈ bs, c.inRange (b.1 / poraChunkSize) = true → ∀ i, b.1 ≤ i → i < b.2 → st.1.entries i = none) →
      ∃ st', bs.foldlM (appendBatch c data) st = .ok st'
  | [], _, _, st, _, _ => ⟨st, rfl⟩
  | b :: bs, hbs, hpw, st, hc, habs => by
    obtain ⟨st₁, h₁⟩ := appendBatch_of_absent hmod hpos (hbs b List.mem_cons_self) (habs b List.mem_cons_self)
    obtain ⟨-, hw₁, -, hframe⟩ := appendBatch_ok (hbs b List.mem_cons_self) hc h₁
    rw [List.foldlM_cons, h₁, Except.ok_bind]
    -- the batches after `b` lie past it, where it wrote nothing
    refine foldlM_appendBatch_of_absent (fun b' hb' => hbs b' (List.mem_cons_of_mem _ hb'))
      (List.pairwise_cons.mp hpw).2 (hw₁.1.trans hc) fun b' hb' hin i hi1 hi2 => ?_
    have hle := (List.pairwise_cons.mp hpw).1 b' hb'
    rw [hframe i (by omega)]
    exact habs b' (List.mem_cons_of_mem _ hb') hin i hi1 hi2

end Whole

end Append

/-- A store of shard `0` of `1` that holds no entry. -/
def emptyStore : FlowStore := ⟨⟨1, 0⟩, fun _ => none⟩

/-- One sector of zeros at flow index `1`. -/
def zeroSector : ChunkArray := ⟨List.replicate bytesPerSector 0, 1⟩

theorem zeroSector_whole : zeroSector.data.length % bytesPerSector = 0 ∧ 0 < zeroSector.data.length := by
  rw [zeroSector, List.length_replicate, Nat.mod_self]
  exact ⟨rfl, by decide⟩

section Roots

variable [Keccak] {data : ChunkArray}

/-- The root that `build_root` gives batch `k`: the Merkle root over the
leaves of its entries, batch `0` with the zero leaf in place of its first
entry, when all of them are there. -/
def batchRoot (fs : FlowStore) (k : Nat) : Option H256 :=
  let initialLeaves := if k = 0 then [OptionalHash.some H256.zero] else []
  (fs.getUnsealedData k initialLeaves.length (sectorsPerLoad - initialLeaves.length)).bind fun leafData =>
    (Merkle.root Sha3Algorithm.optional.parent (fun h r => Sha3Algorithm.optional.parentSingle r h)
      (initialLeaves ++ leafData.map Sha3Algorithm.optional.leaf)).bind OptionalHash.val

/-- `build_root` builds the batch tree over the leaves, so it never fails,
and gives the root of the leaves. -/
theorem buildRoot_eq (fs : FlowStore) (k : Nat) : fs.buildRoot k = .ok (fs.batchRoot k) := by
  have hknown : ∀ x ∈ (if k = 0 then [OptionalHash.some H256.zero] else []), isNull x = false := by
    split <;> simp [Sha3Algorithm.isNull_optional, OptionalHash.some]
  have hlen : (if k = 0 then [OptionalHash.some H256.zero] else []).length ≤ 1 := by
    split <;> simp
  unfold buildRoot batchRoot
  generalize (if k = 0 then [OptionalHash.some H256.zero] else []) = L at hknown hlen ⊢
  dsimp only
  have hleaves : ((AppendMerkleTree.empty none 0).withLayers
      (AppendMerkleTree.batchLayers Sha3Algorithm.optional 0 L)).leaves = .ok L.length :=
    AppendMerkleTree.layerLen_withLayers (AppendMerkleTree.getElem?_batchLayers _ _ _ (Merkle.one_le_depth _))
  rw [AppendMerkleTree.new_batch _ Sha3Algorithm.optional_keepsKnown L hknown 0, Except.ok_bind, hleaves,
    Except.ok_bind]
  cases hd : fs.getUnsealedData k L.length (sectorsPerLoad - L.length) with
  | none => rfl
  | some leafData =>
    have hM : ∀ x ∈ leafData.map Sha3Algorithm.optional.leaf, isNull x = false := by
      simp [Sha3Algorithm.isNull_optional, Sha3Algorithm.optional, OptionalHash.some]
    -- the batch is read whole, so there are leaves
    have hne : L ++ leafData.map Sha3Algorithm.optional.leaf ≠ [] := by
      rw [(getUnsealedData_eq_some hd).1]
      simp [sectorsPerLoad]
      omega
    have happ : ((AppendMerkleTree.empty none 0).withLayers
        (AppendMerkleTree.batchLayers Sha3Algorithm.optional 0 L)).appendList Sha3Algorithm.optional
          (leafData.map Sha3Algorithm.optional.leaf) =
        .ok ((AppendMerkleTree.empty none 0).withLayers (AppendMerkleTree.batchLayers Sha3Algorithm.optional 0
          (L ++ leafData.map Sha3Algorithm.optional.leaf))) :=
      AppendMerkleTree.appendList_batch _ Sha3Algorithm.optional_keepsKnown _ hknown hM
    obtain ⟨r, hr, hroot⟩ := AppendMerkleTree.root_batchLayers Sha3Algorithm.optional 0
      (AppendMerkleTree.empty none 0) hne
    have hroot' : Merkle.root Sha3Algorithm.optional.parent (fun h r => Sha3Algorithm.optional.parentSingle r h)
        (L ++ leafData.map Sha3Algorithm.optional.leaf) = some r := hroot
    simp [happ, hr, hroot']

/-- `put_entry_batch_list` gives the root of each batch of the list that is
full. -/
theorem putEntryBatchList_eq (fs : FlowStore) (batchList : List Nat) :
    fs.putEntryBatchList batchList = .ok (batchList.filterMap fun k => (fs.batchRoot k).map (k, ·)) := by
  have hfold : ∀ (l : List Nat) (acc : List (Nat × H256)),
      l.foldl (fun roots k => roots ++ ((fs.batchRoot k).map (k, ·)).toList) acc =
        acc ++ l.filterMap fun k => (fs.batchRoot k).map (k, ·) := by
    intro l
    induction l with
    | nil => simp
    | cons k l ih =>
      intro acc
      cases h : fs.batchRoot k <;> simp [ih, h]
  unfold putEntryBatchList
  refine (Except.foldlM_eq_ok (w := fun roots k => roots ++ ((fs.batchRoot k).map (k, ·)).toList)
    (fun _ => True) batchList [] (fun roots k _ _ => ⟨?_, trivial⟩) trivial).trans ?_
  · rw [buildRoot_eq]
    cases fs.batchRoot k <;> simp
  · rw [hfold, List.nil_append]

/-- The list of batches that the loop of `append_entries` builds: the
batches of the data's range that the shard stores. -/
def batchList (c : ShardConfig) (data : ChunkArray) : List Nat :=
  (batchIter data.startIndex (data.startIndex + bytesToEntries data.data.length) poraChunkSize).flatMap
    fun b => if c.inRange (b.1 / poraChunkSize) then [b.1 / poraChunkSize] else []

/-- What `append_entries` does when it succeeds: the data is whole sectors,
the store only gains the data's sectors where it held none, every batch of
the shard then shows its part, and the roots are those of the batches of
the shard that are full. -/
theorem appendEntries_ok {fs fs' : FlowStore} {roots : List (Nat × H256)}
    (h : fs.appendEntries data = .ok (fs', roots)) :
    data.data.length % bytesPerSector = 0 ∧ WritesOver data fs fs' ∧
      (∀ b ∈ batchIter data.startIndex (data.startIndex + bytesToEntries data.data.length) poraChunkSize,
        fs.shardConfig.inRange (b.1 / poraChunkSize) = true → Shows data fs' b) ∧
      roots = (batchList fs.shardConfig data).filterMap fun k => (fs'.batchRoot k).map (k, ·) := by
  unfold appendEntries at h
  by_cases hmod : data.data.length % bytesPerSector = 0
  · simp only [hmod, ne_eq, not_true_eq_false, if_false, Except.bind_eq_ok] at h
    obtain ⟨st, hloop, roots', hput, h⟩ := h
    obtain ⟨hl, hw, hs⟩ := foldlM_appendBatch_ok (c := fs.shardConfig) (fun b hb => hb) rfl hloop
    rw [putEntryBatchList_eq, Except.ok.injEq] at hput
    simp only [Except.pure_eq_ok, Except.ok.injEq, Prod.mk.injEq] at h
    obtain ⟨rfl, rfl⟩ := h
    subst hput
    exact ⟨hmod, hw, hs, by rw [hl, List.nil_append, batchList]⟩
  · simp [hmod] at h


section Absent

variable {fs : FlowStore} (hmod : data.data.length % bytesPerSector = 0) (hpos : 0 < data.data.length)
  (habs : ∀ i, data.startIndex ≤ i → i < data.startIndex + data.data.length / bytesPerSector →
    fs.shardConfig.inRange (i / poraChunkSize) = true → fs.entries i = none)
include hmod hpos habs

/-- Whole sectors of data over entries of the shard that hold nothing go
through `append_entries`. -/
theorem appendEntries_ok_of_absent : ∃ fs' roots, fs.appendEntries data = .ok (fs', roots) := by
  obtain ⟨st, hloop⟩ := foldlM_appendBatch_of_absent hmod hpos (c := fs.shardConfig) (fun b hb => hb)
    (batchIter_pairwise _ _) (show (fs, ([] : List Nat)).1.shardConfig = fs.shardConfig from rfl)
    fun b hb hin i hi1 hi2 => by
      -- an entry of a batch is an entry of the range, in the batch's segment
      rw [bytesToEntries_of_mod hmod] at hb
      obtain ⟨h1, -, h2, hseg⟩ := bounds_of_mem_batchIter hb (by unfold bytesPerSector at hmod ⊢; omega)
      have hseg' : i / poraChunkSize = b.1 / poraChunkSize := by
        unfold poraChunkSize at *
        omega
      exact habs i (by omega) (by omega) (hseg' ▸ hin)
  refine ⟨st.1, (st.1.putEntryBatchList st.2).toOption.getD [], ?_⟩
  simp only [appendEntries, hmod, ne_eq, not_true_eq_false, if_false, hloop, putEntryBatchList_eq]
  rfl

end Absent

end Roots

section Calls

variable {data : ChunkArray}

/-- `append_entries` only adds whole sectors: it keeps every entry the store
held, writes only where it held none, in the data's range and in the shard,
the data's own sector there, and keeps a store of whole sectors so. -/
theorem appendEntries_adds_sectors [Keccak] {fs fs' : FlowStore} {roots : List (Nat × H256)}
    (h : fs.appendEntries data = .ok (fs', roots)) :
    WritesOver data fs fs' ∧ (fs.WellFormed → fs'.WellFormed) := by
  obtain ⟨hmod, hw, -, -⟩ := appendEntries_ok h
  exact ⟨hw, hw.wellFormed hmod⟩

/-- Sector `1` written into the empty store. -/
theorem appendEntries_adds_sectors_zeroSector :
    ∃ fs' roots, emptyStore.appendEntries zeroSector = .ok (fs', roots) ∧
      WritesOver zeroSector emptyStore fs' ∧ (emptyStore.WellFormed → fs'.WellFormed) := by
  obtain ⟨fs', roots, h⟩ := @appendEntries_ok_of_absent _ zeroSector emptyStore
    zeroSector_whole.1 zeroSector_whole.2 fun _ _ _ _ => rfl
  exact ⟨fs', roots, h, appendEntries_adds_sectors h⟩

/-- A call of `append_entries` that succeeded succeeds again on its own
result, writes nothing more, and returns the same roots: each batch shows
its part, so `insert_data` takes it as it is. -/
theorem appendEntries_idempotent [Keccak] {fs fs' : FlowStore} {roots : List (Nat × H256)}
    (h : fs.appendEntries data = .ok (fs', roots)) : fs'.appendEntries data = .ok (fs', roots) := by
  obtain ⟨hmod, hw, hs, hroots⟩ := appendEntries_ok h
  by_cases hpos : 0 < data.data.length
  · have hloop := foldlM_appendBatch_of_shows hmod hpos (c := fs'.shardConfig) (fun b hb => hb)
      (fun b hb hin => hs b hb (hw.1 ▸ hin)) []
    simp only [appendEntries, hmod, ne_eq, not_true_eq_false, if_false, Except.ok_bind, hloop,
      putEntryBatchList_eq, List.nil_append, Except.pure_eq_ok]
    rw [hroots, batchList, hw.1]
  · -- no data: nothing was written
    rw [hw.eq_of_length (by simp [Nat.eq_zero_of_not_pos hpos])] at h ⊢
    exact h

/-- Sector `1` written twice into the empty store. -/
theorem appendEntries_idempotent_zeroSector :
    ∃ fs' roots, emptyStore.appendEntries zeroSector = .ok (fs', roots) ∧
      fs'.appendEntries zeroSector = .ok (fs', roots) := by
  obtain ⟨fs', roots, h⟩ := @appendEntries_ok_of_absent _ zeroSector emptyStore
    zeroSector_whole.1 zeroSector_whole.2 fun _ _ _ _ => rfl
  exact ⟨fs', roots, h, appendEntries_idempotent h⟩

end Calls

end FlowStore

end ZgStorage
