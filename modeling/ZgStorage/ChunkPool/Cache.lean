import ZgStorage.Framework.LinkedMap
import ZgStorage.ChunkPool.WriteControl
import ZgStorage.LogStore.SealQueue
import ZgStorage.SharedTypes.FileProof

/-!
# The segment cache of the chunk pool

`ChunkPoolCache` (`mem_pool/chunk_cache.rs`) holds the segments of small
files uploaded before the log entry of their transaction is synced, each
file a `MemoryCachedFile` in a `LinkedHashMap` by data root, in the order the
files were first cached. `cache_segment` first collects the files at the
front that expired, then caches a segment not cached yet if the pool's
total stays within `max_cached_chunks_all`; `remove_file` takes a file out,
and `update_file_info` takes it out and tells it its transaction. All keep `total_chunks` as the sum of the files' `cached_chunk_num`, and
assert that it holds each file they drop.

A call reads the clock once (`now`, in milliseconds). A panic ends a run of
calls, and a call that bails returns the cache it leaves: the file that
`or_insert_with` enters stays when the limit then bails.

* `runCacheOps_counts`: along every run of calls from a new cache, no call
  panics, and the total is the sum of the chunks of every file's segments,
  within the limit;
* `cacheSegment_never_flushes`: every `cache_segment` of such a run answers
  `Ok(false)` or bails at the limit. A file's `total_chunks` is set only by
  `update_with_tx`, on a file already taken out of the cache, so no cached
  file is ever flushed from `cache_chunks`.

Both follow from `CacheInv`, which every call keeps (`CacheInv.run`).
-/

namespace ZgStorage

namespace ChunkPool

open SharedTypes

/-- The two fields of `chunk_pool::Config` the cache reads. -/
structure CacheConfig where
  maxCachedChunksAll : Nat
  expirationTimeSecs : Nat

/-- `Config::expiration_time`, in milliseconds. -/
def CacheConfig.expirationTime (config : CacheConfig) : Nat := config.expirationTimeSecs * 1000

/-- `SegmentInfo`. -/
structure SegmentInfo where
  root : H256
  segData : List UInt8
  segProof : FileProof
  segIndex : Nat
  chunksPerSegment : Nat

/-- `From<SegmentInfo> for (ChunkArray, FileProof)`. -/
def SegmentInfo.toSegment (segInfo : SegmentInfo) : ChunkArray × FileProof :=
  (⟨segInfo.segData, segInfo.segIndex * segInfo.chunksPerSegment⟩, segInfo.segProof)

/-- `MemoryCachedFile`; its `HashMap` of segments is a map by segment index. -/
structure MemoryCachedFile where
  id : FileID
  chunksPerSegment : Nat
  segments : List (Nat × (ChunkArray × FileProof))
  totalChunks : Nat
  expiredAt : Nat
  cachedChunkNum : Nat

namespace MemoryCachedFile

/-- `MemoryCachedFile::new`, with the default `TxID`. -/
def new (root : H256) (timeout now chunksPerSegment : Nat) : MemoryCachedFile :=
  ⟨⟨root, ⟨0, H256.zero⟩⟩, chunksPerSegment, [], 0, now + timeout, 0⟩

/-- `update_expiration_time`. -/
def updateExpirationTime (file : MemoryCachedFile) (timeout now : Nat) : MemoryCachedFile :=
  { file with expiredAt := now + timeout }

/-- `update_with_tx`. `hash` is `tx.hash()`, the Keccak-256 of the
transaction's SSZ encoding, whose stream ids and in-place data the model of
`Transaction` does not carry. -/
def updateWithTx (file : MemoryCachedFile) (tx : Transaction) (hash : H256) : MemoryCachedFile :=
  { file with totalChunks := bytesToChunks tx.size, id := { file.id with txId := ⟨tx.seq, hash⟩ } }

/-- `should_flush`. -/
def shouldFlush (file : MemoryCachedFile) : Bool := file.totalChunks > 0 && file.cachedChunkNum > 0

end MemoryCachedFile

/-- `ChunkPoolCache`. -/
structure ChunkPoolCache where
  config : CacheConfig
  files : List (H256 × MemoryCachedFile)
  totalChunks : Nat

namespace ChunkPoolCache

/-- `ChunkPoolCache::new`. -/
def new (config : CacheConfig) : ChunkPoolCache := ⟨config, [], 0⟩

/-- `get_file`. -/
def getFile (c : ChunkPoolCache) (root : H256) : Option MemoryCachedFile := LinkedMap.get? c.files root

/-- `update_total_chunks_when_remove_file`, on the total it reads and
writes. -/
def updateTotalChunksWhenRemoveFile (totalChunks : Nat) (file : MemoryCachedFile) : Except Error Nat :=
  if totalChunks ≥ file.cachedChunkNum then .ok (totalChunks - file.cachedChunkNum)
  else .error (.panic "assertion failed: self.total_chunks >= file.cached_chunk_num")

/-- `remove_file`. -/
def removeFile (c : ChunkPoolCache) (root : H256) : Except Error (ChunkPoolCache × Option MemoryCachedFile) :=
  match LinkedMap.remove c.files root with
  | (none, _) => .ok (c, none)
  | (some file, files) => do
    let totalChunks ← updateTotalChunksWhenRemoveFile c.totalChunks file
    pure ({ c with files, totalChunks }, some file)

/-- The cache's part of `MemoryChunkPool::update_file_info`: the file of the
transaction's data root is taken out of the cache, and then told the
transaction (`update_with_tx`). `write_chunks` then writes its segments
through the write control and the store, outside the cache. -/
def updateFileInfo (c : ChunkPoolCache) (tx : Transaction) (hash : H256) :
    Except Error (ChunkPoolCache × Option MemoryCachedFile) :=
  (fun r => (r.1, r.2.map (·.updateWithTx tx hash))) <$> c.removeFile tx.dataMerkleRoot

/-- The `while let` loop of `garbage_collect` over the files from the front,
with the total: it stops at the first file that has not expired. -/
def garbageCollectLoop (now : Nat) :
    List (H256 × MemoryCachedFile) → Nat → Except Error (List (H256 × MemoryCachedFile) × Nat)
  | [], totalChunks => .ok ([], totalChunks)
  | (root, file) :: rest, totalChunks =>
    if file.expiredAt > now then .ok ((root, file) :: rest, totalChunks)
    else do
      let totalChunks ← updateTotalChunksWhenRemoveFile totalChunks file
      garbageCollectLoop now rest totalChunks

/-- `garbage_collect`. -/
def garbageCollect (now : Nat) (c : ChunkPoolCache) : Except Error ChunkPoolCache := do
  let (files, totalChunks) ← garbageCollectLoop now c.files c.totalChunks
  pure { c with files, totalChunks }

/-- `cache_segment`: a panic, or the cache after the call with what it
returns. -/
def cacheSegment (now : Nat) (c : ChunkPoolCache) (segInfo : SegmentInfo) :
    Except Error (ChunkPoolCache × Except Error Bool) := do
  let c ← c.garbageCollect now
  let file := (LinkedMap.get? c.files segInfo.root).getD
    (MemoryCachedFile.new segInfo.root c.config.expirationTime now segInfo.chunksPerSegment)
  let c := { c with files := LinkedMap.set c.files segInfo.root file }
  if (LinkedMap.get? file.segments segInfo.segIndex).isSome then pure (c, .ok file.shouldFlush)
  else
    let numChunks := segInfo.segData.length / chunkSize
    if c.totalChunks + numChunks > c.config.maxCachedChunksAll then
      pure (c, .error (.bail ("exceeds the maximum cached chunks of whole pool: " ++
        toString c.config.maxCachedChunksAll)))
    else
      let file := { file with
        cachedChunkNum := file.cachedChunkNum + numChunks
        segments := LinkedMap.set file.segments segInfo.segIndex segInfo.toSegment }
      let file := file.updateExpirationTime c.config.expirationTime now
      pure ({ c with totalChunks := c.totalChunks + numChunks, files := LinkedMap.set c.files segInfo.root file },
        .ok file.shouldFlush)

end ChunkPoolCache

/-! ### The invariant of the cache -/

/-- The chunks of a cached segment. -/
def segmentChunks (segment : ChunkArray × FileProof) : Nat := segment.1.data.length / chunkSize

/-- A file in the cache: no transaction is known for it yet, and it counts
the chunks of its segments. -/
structure FileInv (file : MemoryCachedFile) : Prop where
  totalChunks : file.totalChunks = 0
  cachedChunkNum : file.cachedChunkNum = LinkedMap.sumOf segmentChunks file.segments

/-- The cache counts the chunks of its files, within its limit. -/
structure CacheInv (c : ChunkPoolCache) : Prop where
  files : ∀ e ∈ c.files, FileInv e.2
  totalChunks : c.totalChunks = LinkedMap.sumOf (·.cachedChunkNum) c.files
  bounded : c.totalChunks ≤ c.config.maxCachedChunksAll

theorem cacheInv_new (config : CacheConfig) : CacheInv (ChunkPoolCache.new config) :=
  ⟨fun _ h => (nomatch h), rfl, Nat.zero_le _⟩

theorem fileInv_new (root : H256) (timeout now chunksPerSegment : Nat) :
    FileInv (MemoryCachedFile.new root timeout now chunksPerSegment) := ⟨rfl, rfl⟩

theorem FileInv.shouldFlush {file : MemoryCachedFile} (h : FileInv file) : file.shouldFlush = false := by
  simp [MemoryCachedFile.shouldFlush, h.totalChunks]

namespace ChunkPoolCache

theorem updateTotalChunksWhenRemoveFile_of_le {totalChunks : Nat} {file : MemoryCachedFile}
    (h : file.cachedChunkNum ≤ totalChunks) :
    updateTotalChunksWhenRemoveFile totalChunks file = .ok (totalChunks - file.cachedChunkNum) :=
  if_pos h

/-- The loop of `garbage_collect` drops the files at the front that expired,
with their chunks. -/
theorem garbageCollectLoop_spec (now : Nat) :
    ∀ (files : List (H256 × MemoryCachedFile)) (totalChunks : Nat),
      totalChunks = LinkedMap.sumOf (·.cachedChunkNum) files →
      garbageCollectLoop now files totalChunks =
        .ok (files.dropWhile (fun e => !decide (e.2.expiredAt > now)),
          LinkedMap.sumOf (·.cachedChunkNum) (files.dropWhile (fun e => !decide (e.2.expiredAt > now))))
  | [], _, h => by rw [h]; rfl
  | (root, file) :: rest, totalChunks, h => by
    rw [LinkedMap.sumOf_cons] at h
    dsimp only at h
    rw [garbageCollectLoop, List.dropWhile_cons]
    by_cases hexp : file.expiredAt > now
    · rw [if_pos hexp]
      simp only [hexp, decide_true, Bool.not_true, Bool.false_eq_true, if_false, LinkedMap.sumOf_cons]
      rw [h]
    · rw [if_neg hexp, updateTotalChunksWhenRemoveFile_of_le (by omega), Except.ok_bind,
        garbageCollectLoop_spec now rest _ (by omega)]
      simp [hexp]

end ChunkPoolCache

theorem CacheInv.garbageCollect {c : ChunkPoolCache} (hc : CacheInv c) (now : Nat) :
    ∃ c', c.garbageCollect now = .ok c' ∧ CacheInv c' ∧ c'.config = c.config := by
  refine ⟨{ c with
      files := c.files.dropWhile (fun e => !decide (e.2.expiredAt > now))
      totalChunks := LinkedMap.sumOf (·.cachedChunkNum) (c.files.dropWhile (fun e => !decide (e.2.expiredAt > now))) },
    by rw [ChunkPoolCache.garbageCollect, ChunkPoolCache.garbageCollectLoop_spec now _ _ hc.totalChunks]; rfl, ?_, rfl⟩
  refine ⟨fun e he => hc.files e ((List.dropWhile_suffix _).subset he), rfl, ?_⟩
  exact (LinkedMap.sumOf_dropWhile_le _ _ _).trans (hc.totalChunks ▸ hc.bounded)

theorem CacheInv.removeFile {c : ChunkPoolCache} (hc : CacheInv c) (root : H256) :
    ∃ c' file, c.removeFile root = .ok (c', file) ∧ CacheInv c' ∧ c'.config = c.config := by
  have hsum := LinkedMap.sumOf_remove (·.cachedChunkNum) c.files root
  have ht := hc.totalChunks
  unfold ChunkPoolCache.removeFile
  split
  · exact ⟨c, none, rfl, hc, rfl⟩
  · rename_i file files hrem
    rw [hrem] at hsum
    simp only [Option.map_some, Option.getD_some] at hsum
    rw [ChunkPoolCache.updateTotalChunksWhenRemoveFile_of_le (by omega)]
    refine ⟨_, some file, rfl, ⟨fun e he => hc.files e ?_, by dsimp only; omega, ?_⟩, rfl⟩
    · exact LinkedMap.mem_of_mem_remove (by rw [hrem]; exact he)
    · exact (Nat.sub_le _ _).trans hc.bounded

/-- The file `cache_segment` caches into: the one cached, or a new one. -/
theorem fileInv_getD {c : ChunkPoolCache} (hc : CacheInv c) (root : H256) (file : MemoryCachedFile)
    (hnew : FileInv file) : FileInv ((LinkedMap.get? c.files root).getD file) := by
  cases h : LinkedMap.get? c.files root with
  | none => exact hnew
  | some f => exact hc.files _ (LinkedMap.mem_of_get? h)

/-- Entering the file `cache_segment` caches into keeps the counts: a new
file holds no chunks. -/
theorem sumOf_set_getD (files : List (H256 × MemoryCachedFile)) (root : H256) {file : MemoryCachedFile}
    (hnew : file.cachedChunkNum = 0) :
    LinkedMap.sumOf (·.cachedChunkNum) (LinkedMap.set files root ((LinkedMap.get? files root).getD file)) =
      LinkedMap.sumOf (·.cachedChunkNum) files := by
  have h := LinkedMap.sumOf_set (·.cachedChunkNum) files root ((LinkedMap.get? files root).getD file)
  cases hg : LinkedMap.get? files root with
  | none =>
    simp only [hg, Option.map_none, Option.getD_none, hnew] at h
    rw [Option.getD_none]
    omega
  | some f =>
    simp only [hg, Option.map_some, Option.getD_some] at h
    rw [Option.getD_some]
    omega

/-- A file changed in place moves the total by what its count moved. -/
theorem sumOf_set_add {files : List (H256 × MemoryCachedFile)} {root : H256} {file file' : MemoryCachedFile}
    {totalChunks n : Nat} (h : LinkedMap.get? files root = some file)
    (htotal : totalChunks = LinkedMap.sumOf (·.cachedChunkNum) files)
    (hn : file'.cachedChunkNum = file.cachedChunkNum + n) :
    totalChunks + n = LinkedMap.sumOf (·.cachedChunkNum) (LinkedMap.set files root file') := by
  have := LinkedMap.sumOf_set (·.cachedChunkNum) files root file'
  rw [h, Option.map_some, Option.getD_some] at this
  omega

/-- A segment new to a file adds its chunks to the file. -/
theorem FileInv.cache {file : MemoryCachedFile} (h : FileInv file) (segment : ChunkArray × FileProof)
    {segIndex : Nat} (hnew : LinkedMap.get? file.segments segIndex = none) (timeout now : Nat) :
    FileInv ({ file with
      cachedChunkNum := file.cachedChunkNum + segmentChunks segment
      segments := LinkedMap.set file.segments segIndex segment }.updateExpirationTime timeout now) := by
  have hseg := LinkedMap.sumOf_set segmentChunks file.segments segIndex segment
  rw [hnew, Option.map_none, Option.getD_none, Nat.add_zero] at hseg
  refine ⟨h.totalChunks, ?_⟩
  simp only [MemoryCachedFile.updateExpirationTime]
  rw [hseg, h.cachedChunkNum]

/-- The answers `cache_segment` may give to a cache within `CacheInv`. -/
def CachedReply (config : CacheConfig) (r : Except Error Bool) : Prop :=
  r = .ok false ∨ r = .error (.bail ("exceeds the maximum cached chunks of whole pool: " ++
    toString config.maxCachedChunksAll))

theorem CacheInv.cacheSegment {c : ChunkPoolCache} (hc : CacheInv c) (now : Nat) (segInfo : SegmentInfo) :
    ∃ c' r, c.cacheSegment now segInfo = .ok (c', r) ∧ CacheInv c' ∧ c'.config = c.config ∧
      CachedReply c.config r := by
  obtain ⟨c₁, hgc, hc₁, hconf⟩ := hc.garbageCollect now
  unfold ChunkPoolCache.cacheSegment
  rw [hgc, Except.ok_bind]
  dsimp only
  -- the file cached into, entered at the back when it is new
  obtain ⟨file, hfd⟩ : ∃ file, (LinkedMap.get? c₁.files segInfo.root).getD
      (MemoryCachedFile.new segInfo.root c₁.config.expirationTime now segInfo.chunksPerSegment) = file := ⟨_, rfl⟩
  have hfile : FileInv file := hfd ▸ fileInv_getD hc₁ _ _ (fileInv_new _ _ _ _)
  have hentered : CacheInv { c₁ with files := LinkedMap.set c₁.files segInfo.root file } := by
    refine ⟨fun e he => ?_, ?_, hc₁.bounded⟩
    · rcases LinkedMap.mem_of_mem_set he with he | rfl
      · exact hc₁.files e he
      · exact hfile
    · rw [← hfd, sumOf_set_getD _ _ rfl]
      exact hc₁.totalChunks
  have hget : LinkedMap.get? (LinkedMap.set c₁.files segInfo.root file) segInfo.root = some file := by
    rw [LinkedMap.get?_set, if_pos rfl]
  rw [hfd]
  split
  · -- a segment cached already
    exact ⟨_, _, rfl, hentered, hconf, .inl (by rw [hfile.shouldFlush])⟩
  · rename_i hnot
    split
    · exact ⟨_, _, rfl, hentered, hconf, .inr (by rw [hconf])⟩
    · rename_i hle
      -- the segment is new to the file: its chunks add to the file and to the total
      have hfile' := hfile.cache segInfo.toSegment (Option.not_isSome_iff_eq_none.mp hnot)
        c₁.config.expirationTime now
      refine ⟨_, _, rfl, ⟨fun e he => ?_, sumOf_set_add hget hentered.totalChunks rfl, by dsimp only; omega⟩,
        hconf, .inl (congrArg Except.ok hfile'.shouldFlush)⟩
      rcases LinkedMap.mem_of_mem_set he with he | rfl
      · exact hentered.files e he
      · exact hfile'

/-! ### Runs of calls -/

/-- A call of the cache by the memory chunk pool: `cache_chunks`,
`remove_cached_file` and `remove_file`, and `update_file_info` with the hash
of the transaction. -/
inductive CacheOp where
  | cacheSegment (now : Nat) (segInfo : SegmentInfo)
  | removeFile (root : H256)
  | updateFileInfo (tx : Transaction) (hash : H256)

/-- What a call answers: for `update_file_info`, the file it writes out. -/
inductive CacheReply where
  | cached (r : Except Error Bool)
  | removed (file : Option MemoryCachedFile)
  | updated (file : Option MemoryCachedFile)

/-- A call: a panic, or the cache after it with its answer. -/
def CacheOp.run (c : ChunkPoolCache) : CacheOp → Except Error (ChunkPoolCache × CacheReply)
  | .cacheSegment now segInfo => (fun r => (r.1, .cached r.2)) <$> c.cacheSegment now segInfo
  | .removeFile root => (fun r => (r.1, .removed r.2)) <$> c.removeFile root
  | .updateFileInfo tx hash => (fun r => (r.1, .updated r.2)) <$> c.updateFileInfo tx hash

/-- A run of calls, ended by a panic. -/
def runCacheOps (c : ChunkPoolCache) : List CacheOp → Except Error (ChunkPoolCache × List CacheReply)
  | [] => .ok (c, [])
  | op :: ops => do
    let (c₁, r) ← op.run c
    let (c₂, rs) ← runCacheOps c₁ ops
    pure (c₂, r :: rs)

/-- The answers of a call to a cache within `CacheInv`. -/
def CacheReply.Allowed (config : CacheConfig) : CacheReply → Prop
  | .cached r => CachedReply config r
  | .removed _ | .updated _ => True

theorem CacheInv.run {c : ChunkPoolCache} (hc : CacheInv c) (op : CacheOp) :
    ∃ c' r, op.run c = .ok (c', r) ∧ CacheInv c' ∧ c'.config = c.config ∧ r.Allowed c.config := by
  cases op with
  | cacheSegment now segInfo =>
    obtain ⟨c', r, h, hc', hconf, hr⟩ := hc.cacheSegment now segInfo
    exact ⟨c', .cached r, by rw [CacheOp.run, h]; rfl, hc', hconf, hr⟩
  | removeFile root =>
    obtain ⟨c', file, h, hc', hconf⟩ := hc.removeFile root
    exact ⟨c', .removed file, by rw [CacheOp.run, h]; rfl, hc', hconf, trivial⟩
  | updateFileInfo tx hash =>
    -- the transaction is told to the file after it left the cache
    obtain ⟨c', file, h, hc', hconf⟩ := hc.removeFile tx.dataMerkleRoot
    exact ⟨c', .updated (file.map (·.updateWithTx tx hash)),
      by rw [CacheOp.run, ChunkPoolCache.updateFileInfo, h]; rfl, hc', hconf, trivial⟩

/-- Every run of calls from a cache within `CacheInv`: by induction on the
calls, with `CacheInv.run` for each. -/
theorem CacheInv.runCacheOps {c : ChunkPoolCache} (hc : CacheInv c) :
    ∀ ops, ∃ c' rs, runCacheOps c ops = .ok (c', rs) ∧ CacheInv c' ∧ c'.config = c.config ∧
      ∀ r ∈ rs, r.Allowed c.config
  | [] => ⟨c, [], rfl, hc, rfl, fun _ h => nomatch h⟩
  | op :: ops => by
    obtain ⟨c₁, r, h₁, hc₁, hconf₁, hr⟩ := hc.run op
    obtain ⟨c₂, rs, h₂, hc₂, hconf₂, hrs⟩ := hc₁.runCacheOps ops
    refine ⟨c₂, r :: rs, by rw [ChunkPool.runCacheOps, h₁, Except.ok_bind]; dsimp only; rw [h₂]; rfl, hc₂,
      hconf₂.trans hconf₁, fun r' hr' => ?_⟩
    rcases List.mem_cons.mp hr' with rfl | hr'
    · exact hr
    · exact hconf₁ ▸ hrs r' hr'

/-- Every run of calls from a new cache: no call panics (the assert of
`update_total_chunks_when_remove_file` holds), `total_chunks` is the sum of
the chunks of every file's segments, and it stays within
`max_cached_chunks_all`. -/
theorem runCacheOps_counts (config : CacheConfig) (ops : List CacheOp) :
    ∃ c rs, runCacheOps (ChunkPoolCache.new config) ops = .ok (c, rs) ∧
      c.totalChunks = LinkedMap.sumOf (·.cachedChunkNum) c.files ∧
      (∀ e ∈ c.files, e.2.cachedChunkNum = LinkedMap.sumOf segmentChunks e.2.segments) ∧
      c.totalChunks ≤ config.maxCachedChunksAll := by
  obtain ⟨c, rs, hrun, hc, hconf, -⟩ := (cacheInv_new config).runCacheOps ops
  have hbound : c.totalChunks ≤ config.maxCachedChunksAll := by
    have := hc.bounded
    rwa [hconf] at this
  exact ⟨c, rs, hrun, hc.totalChunks, fun e he => (hc.files e he).cachedChunkNum, hbound⟩

/-- Along every run of calls from a new cache, `cache_segment` answers
`Ok(false)` or bails at the limit: a cached file knows no transaction, so
`should_flush` never holds, and `cache_chunks` never flushes a file. -/
theorem cacheSegment_never_flushes (config : CacheConfig) (ops : List CacheOp) :
    ∃ c rs, runCacheOps (ChunkPoolCache.new config) ops = .ok (c, rs) ∧
      ∀ r, CacheReply.cached r ∈ rs → r = .ok false ∨
        r = .error (.bail ("exceeds the maximum cached chunks of whole pool: " ++
          toString config.maxCachedChunksAll)) := by
  obtain ⟨c, rs, hrun, -, -, hrs⟩ := (cacheInv_new config).runCacheOps ops
  exact ⟨c, rs, hrun, fun r hr => hrs _ hr⟩

end ChunkPool

end ZgStorage
